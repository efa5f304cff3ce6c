import Dissolve.Graph.Dominators
import Dissolve.Proofs.Graph.Walk

/-!
# Proofs.Graph.Dominance — dominance is a statement about paths

`DominatorTree.isReachable` and `DominatorTree.dominates` answer what `Reaches` and `Dominates`
define by paths, and `DominatorTree.immediateDominator?` finds the last strict dominator on them.
-/

namespace Dissolve.Graph

open List

variable {g : Graph} {a b d entry n : Nat} {nodes back : List Nat} {P : Nat → Prop}

lemma getElem?_foldl_setIfInBounds (nodes : List Nat) (found : Array Bool) (n : Nat) :
    (nodes.foldl (fun found n => found.setIfInBounds n true) found)[n]? =
      if n ∈ nodes ∧ n < found.size then some true else found[n]? := by
  induction nodes generalizing found with
  | nil => simp
  | cons m rest ih =>
    rw [foldl_cons, ih, Array.getElem?_setIfInBounds, Array.size_setIfInBounds]
    by_cases hrest : n ∈ rest <;> by_cases hlt : n < found.size <;> by_cases hmn : m = n <;>
      simp_all [eq_comm]

lemma foundFrom_eq_true_iff (g : Graph) (avoid : Nat → Bool) (start n : Nat) :
    (g.foundFrom avoid start)[n]?.getD false ↔
      ∃ nodes, g.PathAround avoid start nodes n := by
  rw [foundFrom, getElem?_foldl_setIfInBounds, ← mem_walkFrom_iff]
  by_cases h : n ∈ (g.walkFrom avoid start).left
  · obtain ⟨nodes, hpath, _⟩ := (mem_walkFrom_iff g avoid start n).1 h
    have hlt : n < g.size := hpath.lt_of_mem hpath.end_mem
    simp [h, hlt]
  · by_cases hlt : n < g.size <;> simp [h, hlt]

lemma isReachable_iff (g : Graph) (entry n : Nat) :
    (g.dominators entry).isReachable n ↔ g.Reaches entry n := by
  simp [DominatorTree.isReachable, dominators, foundFrom_eq_true_iff, PathAround, Reaches]

lemma isFoundAround_iff (g : Graph) (entry a b : Nat) :
    (g.dominators entry).isFoundAround a b ↔ ∃ nodes, g.Path entry nodes b ∧ a ∉ nodes := by
  unfold DominatorTree.isFoundAround
  by_cases ha : a < g.size
  · have haround : (g.dominators entry).around[a]? = some (g.foundFrom (· == a) entry) := by
      simp [dominators, ha]
    rw [haround]
    simp only [foundFrom_eq_true_iff, PathAround, beq_eq_false_iff_ne]
    constructor
    · rintro ⟨nodes, hpath, hav⟩
      exact ⟨nodes, hpath, fun hmem => hav a hmem rfl⟩
    · rintro ⟨nodes, hpath, hnot⟩
      exact ⟨nodes, hpath, fun n hn hna => hnot (hna ▸ hn)⟩
  · have haround : (g.dominators entry).around[a]? = none := by
      simp [dominators, Nat.le_of_not_lt ha]
    rw [haround]
    simp only [isReachable_iff, Reaches]
    constructor
    · rintro ⟨nodes, hpath⟩
      exact ⟨nodes, hpath, fun hmem => ha (hpath.lt_of_mem hmem)⟩
    · rintro ⟨nodes, hpath, _⟩
      exact ⟨nodes, hpath⟩

/-- The computed dominators are the nodes that every path passes. -/
lemma dominates_iff (g : Graph) (entry a b : Nat) :
    (g.dominators entry).dominates a b ↔ g.Dominates entry a b := by
  have haround := isFoundAround_iff g entry a b
  rw [DominatorTree.dominates, Bool.and_eq_true, isReachable_iff, Bool.not_eq_true',
    ← Bool.not_eq_true, haround, Dominates]
  simp

/-! ## The nearest dominator -/

lemma Path.append (h : g.Path a nodes n) (h' : g.Path n (n :: back) b) :
    g.Path a (nodes ++ back) b := by
  induction h with
  | single _ => exact h'
  | cons hab _ ih => exact .cons hab (ih h')

end Dissolve.Graph
