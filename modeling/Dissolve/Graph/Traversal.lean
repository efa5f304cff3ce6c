import Dissolve.Graph.Basic

/-!
# Graph.Traversal — depth-first orders

A depth-first walk visits the successors of a node in edge order before it leaves the node.
The walk keeps a mark per node; what is not a node counts as marked, so that it is never entered.
-/

namespace Dissolve.Graph

/-- The state of a walk: the marks and the nodes left so far, the latest first. -/
structure Walk where
  marked : Array Bool
  left : List Nat

namespace Walk

def isMarked (w : Walk) (n : Nat) : Bool :=
  w.marked[n]?.getD true

def enter (w : Walk) (n : Nat) : Walk :=
  { w with marked := w.marked.setIfInBounds n true }

def leave (w : Walk) (n : Nat) : Walk :=
  { w with left := n :: w.left }

end Walk

/-- Walks from `n` over the unmarked nodes; `fuel` bounds the length of a path without repetition. -/
def visit (g : Graph) : Nat → Walk → Nat → Walk
  | 0, w, _ => w
  | fuel + 1, w, n =>
    if w.isMarked n then w
    else ((g.succ n).foldl (fun w s => visit g fuel w s) (w.enter n)).leave n

def startWalk (g : Graph) (avoid : Nat → Bool) : Walk :=
  ⟨Array.ofFn fun n : Fin g.size => avoid n, []⟩

/-- The walk from `start`, around the nodes that `avoid` names. No path without repetition is longer
than the graph is large. -/
def walkFrom (g : Graph) (avoid : Nat → Bool) (start : Nat) : Walk :=
  g.visit (g.size + 1) (g.startWalk avoid) start

/-- The nodes reachable from `start`, each listed when the walk leaves it, the start first. -/
def reversePostorder (g : Graph) (start : Nat) : List Nat :=
  (g.walkFrom (fun _ => false) start).left

end Dissolve.Graph
