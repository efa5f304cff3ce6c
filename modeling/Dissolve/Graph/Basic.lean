/-!
# Graph.Basic — finite directed graphs

The nodes of a graph are the numbers below its size, and every node has a list of successors in edge
order. Successors may repeat; a successor that is not a node is no edge.
-/

namespace Dissolve

structure Graph where
  size : Nat
  succ : Nat → List Nat

namespace Graph

/-- The graph with the given edges; an edge with an end that is not a node is left out. -/
def ofEdges (size : Nat) (edges : List (Nat × Nat)) : Graph :=
  { size
    succ := fun n =>
      (edges.filter fun e => e.1 = n && e.1 < size && e.2 < size).map Prod.snd }

def Edge (g : Graph) (a b : Nat) : Prop :=
  a < g.size ∧ b < g.size ∧ b ∈ g.succ a

/-- A path, by the list of its nodes from the first to the last. -/
inductive Path (g : Graph) : Nat → List Nat → Nat → Prop
  | single {a : Nat} (h : a < g.size) : Path g a [a] a
  | cons {a b c : Nat} {nodes : List Nat} (h : g.Edge a b) (rest : Path g b nodes c) :
      Path g a (a :: nodes) c

def Reaches (g : Graph) (a b : Nat) : Prop :=
  ∃ nodes, g.Path a nodes b

/-- Every path from the entry to `b` passes `a`, and there is one. -/
def Dominates (g : Graph) (entry a b : Nat) : Prop :=
  g.Reaches entry b ∧ ∀ nodes, g.Path entry nodes b → a ∈ nodes

end Graph

end Dissolve
