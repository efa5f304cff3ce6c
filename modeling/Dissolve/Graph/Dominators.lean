import Dissolve.Graph.Traversal

/-!
# Graph.Dominators — nodes that every path passes

A node dominates another when every path from the entry to the second passes the first. Taking the
first node out of the graph then cuts the second off, so one walk around each node answers every
question: `b` is dominated by `a` exactly when `b` is reachable and is not found around `a`.
-/

namespace Dissolve.Graph

/-- Which nodes are found from the entry, and which are found around each node. -/
structure DominatorTree where
  entry : Nat
  found : Array Bool
  around : Array (Array Bool)

/-- Per node, whether the walk from `start` around the nodes that `avoid` names finds it. -/
def foundFrom (g : Graph) (avoid : Nat → Bool) (start : Nat) : Array Bool :=
  (g.walkFrom avoid start).left.foldl (fun found n => found.setIfInBounds n true)
    (Array.replicate g.size false)

def dominators (g : Graph) (entry : Nat) : DominatorTree :=
  { entry
    found := g.foundFrom (fun _ => false) entry
    around := Array.ofFn fun a : Fin g.size => g.foundFrom (· == a.val) entry }

namespace DominatorTree

def isReachable (t : DominatorTree) (n : Nat) : Bool :=
  t.found[n]?.getD false

def isFoundAround (t : DominatorTree) (a b : Nat) : Bool :=
  match t.around[a]? with
  | some found => found[b]?.getD false
  | none => t.isReachable b

/-- Whether every path from the entry to `b` passes `a`; every reachable node dominates itself. -/
def dominates (t : DominatorTree) (a b : Nat) : Bool :=
  t.isReachable b && !t.isFoundAround a b

def strictlyDominates (t : DominatorTree) (a b : Nat) : Bool :=
  a != b && t.dominates a b

def strictDominators (t : DominatorTree) (b : Nat) : List Nat :=
  (List.range t.found.size).filter (t.strictlyDominates · b)

def depth (t : DominatorTree) (b : Nat) : Nat :=
  (t.strictDominators b).length

end DominatorTree

end Dissolve.Graph
