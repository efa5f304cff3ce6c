import Mathlib
import Dissolve.Program.Basic

/-!
# Proofs.Program.Initializers — which first uses may run an initializer

The search for an initializer ends in a set of types without one that holds all supertypes of its
members. A chain that leads to an initializer cannot start in such a set.
-/

namespace Dissolve.Program

open List Relation

variable {p : Program} {ty : TypeRef} {visited work : List TypeRef} {fuel : Nat} {c : ClassDef}

/-! ## Fuel -/

/-- The number of supertypes that definitions outside `visited` can put on the work list. -/
def pending (visited : List TypeRef) (pairs : List (TypeRef × ClassDef)) : Nat :=
  (pairs.map fun d => if d.1 ∈ visited then 0 else d.2.supertypes.length).sum

lemma pending_cons_le (ty visited) (pairs : List (TypeRef × ClassDef)) :
    pending (ty :: visited) pairs ≤ pending visited pairs := by
  refine sum_le_sum fun d _ => ?_
  by_cases hd : d.1 ∈ visited
  · simp [hd]
  · by_cases hty : d.1 = ty <;> simp [hd, hty]

lemma pending_visit (hfresh : ty ∉ visited) {pairs : List (TypeRef × ClassDef)}
    (hc : Assoc.find? ty pairs = some c) :
    c.supertypes.length + pending (ty :: visited) pairs ≤ pending visited pairs := by
  induction pairs with
  | nil => simp [Assoc.find?] at hc
  | cons d rest ih =>
    obtain ⟨key, value⟩ := d
    by_cases hkey : key = ty
    · obtain rfl : value = c := by simpa [Assoc.find?, hkey] using hc
      have hrest := pending_cons_le ty visited rest
      simp only [pending, map_cons, sum_cons, hkey, mem_cons_self, if_true, hfresh, if_false] at hrest ⊢
      omega
    · have hrest := ih (by simpa [Assoc.find?, hkey] using hc)
      simp only [pending, map_cons, sum_cons, mem_cons, hkey, false_or] at hrest ⊢
      omega

lemma initializerFuel_eq (p : Program) : p.initializerFuel = pending [] p.classTable.pairs + 2 := by
  have hsum : ∀ lengths : List Nat, lengths.foldr (· + ·) 2 = lengths.sum + 2 := by
    intro lengths
    induction lengths with
    | nil => rfl
    | cons n rest ih => simp [ih, Nat.add_assoc]
  simp [initializerFuel, hsum, pending, Assoc.values, Function.comp_def]

/-! ## The search -/

/-- The next type of a chain. -/
def Above (p : Program) (sub super : TypeRef) : Prop :=
  super ≠ .root ∧ ∃ c, p.definition? sub = some c ∧ (c.superclass = some super ∨ super ∈ c.interfaces)

/-- The type is not defined, or its definition declares a class initializer. -/
def MayInitialize (p : Program) (ty : TypeRef) : Prop :=
  ∀ c, p.definition? ty = some c → c.hasClassInitializer

/-- A chain from `ty` to an initializer. -/
def Triggers (p : Program) (ty : TypeRef) : Prop :=
  ty ≠ .root ∧ ∃ last, ReflTransGen p.Above ty last ∧ p.MayInitialize last

lemma mem_supertypes : ty ∈ c.supertypes ↔ c.superclass = some ty ∨ ty ∈ c.interfaces := by
  simp [ClassDef.supertypes]

lemma triggers_of_findsInitializer (h : p.findsInitializer fuel visited work) :
    ∃ ty ∈ work, p.Triggers ty := by
  fun_induction findsInitializer p fuel visited work with
  | case1 | case2 => cases h
  | case3 fuel visited ty work _ ih =>
    obtain ⟨found, hfound, htriggers⟩ := ih h
    exact ⟨found, by simp [hfound], htriggers⟩
  | case4 fuel visited ty work hskip hc =>
    exact ⟨ty, by simp, by simp_all, ty, .refl, by simp [MayInitialize, hc]⟩
  | case5 fuel visited ty work hskip c hc hinit =>
    exact ⟨ty, by simp, by simp_all, ty, .refl, by simp [MayInitialize, hc, hinit]⟩
  | case6 fuel visited ty work hskip c hc hinit ih =>
    obtain ⟨found, hfound, hroot, last, hchain, hlast⟩ := ih h
    rcases mem_append.1 hfound with hsuper | hwork
    · exact ⟨ty, by simp, by simp_all, last,
        hchain.head ⟨hroot, c, hc, mem_supertypes.1 hsuper⟩, hlast⟩
    · exact ⟨found, by simp [hwork], hroot, last, hchain, hlast⟩

/-- No member of `visited` has an initializer, and its supertypes are members or still to be seen. -/
def Quiet (p : Program) (visited work : List TypeRef) : Prop :=
  ∀ ty ∈ visited, ∃ c, p.definition? ty = some c ∧ c.hasClassInitializer = false ∧
    ∀ super ∈ c.supertypes, super = .root ∨ super ∈ visited ∨ super ∈ work

lemma exists_quiet (hfuel : work.length + pending visited p.classTable.pairs < fuel)
    (hquiet : p.Quiet visited work) (h : p.findsInitializer fuel visited work = false) :
    ∃ all, p.Quiet all [] ∧ ∀ ty ∈ visited ++ work, ty = .root ∨ ty ∈ all := by
  -- each call takes one type off the work list, and the fuel pays for it
  fun_induction findsInitializer p fuel visited work with
  | case1 => omega
  | case2 fuel visited => exact ⟨visited, hquiet, by simp +contextual⟩
  | case3 fuel visited ty work hskip ih =>
    have hseen : ty = .root ∨ ty ∈ visited := by simpa using hskip
    have hquiet' : p.Quiet visited work := by
      intro sub hsub
      obtain ⟨c, hc, hinit, hsuper⟩ := hquiet sub hsub
      refine ⟨c, hc, hinit, fun super hmem => ?_⟩
      grind
    obtain ⟨all, hall, hsub⟩ := ih (by simp at hfuel; omega) hquiet' h
    refine ⟨all, hall, ?_⟩
    grind
  | case4 | case5 => cases h
  | case6 fuel visited ty work hskip c hc hinit ih =>
    have hfresh : ty ∉ visited := by simp_all
    have hroom := pending_visit hfresh hc
    have hquiet' : p.Quiet (ty :: visited) (c.supertypes ++ work) := by
      intro sub hsub
      rcases mem_cons.1 hsub with rfl | hsub
      · exact ⟨c, hc, by simpa using hinit, fun super hsuper => by simp [hsuper]⟩
      · obtain ⟨d, hd, hnone, hsuper⟩ := hquiet sub hsub
        refine ⟨d, hd, hnone, fun super hmem => ?_⟩
        grind
    obtain ⟨all, hall, hsub⟩ := ih (by simp at hfuel ⊢; omega) hquiet' h
    refine ⟨all, hall, ?_⟩
    grind

lemma Quiet.not_triggers (h : p.Quiet visited []) (hty : ty ∈ visited) : ¬ p.Triggers ty := by
  rintro ⟨-, last, hchain, hlast⟩
  have hmem : last ∈ visited := by
    clear hlast
    induction hchain with
    | refl => exact hty
    | @tail sub super _ habove ih =>
      obtain ⟨hroot, c, hc, hsuper⟩ := habove
      obtain ⟨d, hd, -, hclosed⟩ := h sub ih
      obtain rfl : c = d := Option.some.inj (hc.symm.trans hd)
      simpa [hroot] using hclosed super (mem_supertypes.2 hsuper)
  obtain ⟨c, hc, hinit, -⟩ := h last hmem
  simp [hlast c hc] at hinit

/-- The first use of a type may run an initializer exactly if a chain of supertypes, none of them the
root, leads from it to a type that declares one or is not defined. -/
theorem canTriggerStaticInitializer_iff (p : Program) (ty : TypeRef) :
    p.canTriggerStaticInitializer ty ↔ p.Triggers ty := by
  constructor
  · intro h
    obtain ⟨found, hfound, htriggers⟩ := triggers_of_findsInitializer h
    obtain rfl : found = ty := by simpa using hfound
    exact htriggers
  · intro htriggers
    by_contra hnot
    obtain ⟨all, hall, hty⟩ := exists_quiet (by simp [initializerFuel_eq]; omega)
      (by simp [Quiet]) (Bool.eq_false_of_not_eq_true hnot)
    rcases hty ty (by simp) with hroot | hmem
    · exact htriggers.1 hroot
    · exact hall.not_triggers hmem htriggers

end Dissolve.Program
