import Mathlib
import Dissolve.Lens.Chain

/-!
# Proofs.Lens.Composition — views compose

A chain that pushes have built is a tree: every layer stands on the root or on an older layer
(`Stacked`). A *place* is the root or a layer.

* `Chain.Lineage chain a c path` — `path` leads from the place `a` to `c`, layer by layer, the oldest
  first,
* `Chain.path_eq_ok_iff` — a path is found exactly if there is a lineage, and it is the lineage,
* `Chain.Lineage.append` — lineages compose, and with them the renames along them.
-/

namespace Dissolve.Lens

open List

variable {fuel : Nat} {current source target : Option LensId}

namespace Chain

/-! ## Places -/

inductive Grows (chain : Chain) : Chain → Prop
  | refl : Grows chain chain
  | push {grown next : Chain} {layer : Layer} {id : LensId} (before : Grows chain grown)
      (pushed : grown.push layer = .ok (id, next)) : Grows chain next

def Known (chain : Chain) (place : Option LensId) : Prop :=
  ∀ id, place = some id → id.index < chain.size

/-- The layer at `place` stands on `below`. -/
def StandsOn (chain : Chain) (below place : Option LensId) : Prop :=
  ∃ id layer, place = some id ∧ chain.get? id = some layer ∧ layer.parent = below

/-- The place `a` is `c`, or a parent of it, or a parent of a parent, and so on. -/
def Ancestor (chain : Chain) (a c : Option LensId) : Prop :=
  Relation.ReflTransGen chain.StandsOn a c

/-- The layers strictly above `a` up to `c`, the oldest first. -/
inductive Lineage (chain : Chain) (a : Option LensId) : Option LensId → List LensId → Prop
  | here : Lineage chain a a []
  | above {id : LensId} {layer : Layer} {path : List LensId} (found : chain.get? id = some layer)
      (below : Lineage chain a layer.parent path) : Lineage chain a (some id) (path ++ [id])

def age : Option LensId → Nat
  | none => 0
  | some id => id.index + 1

def Stacked (chain : Chain) : Prop :=
  ∀ id layer, chain.get? id = some layer → age layer.parent < age (some id)

variable {chain grown next : Chain} {a b c : Option LensId} {id : LensId} {layer : Layer}
  {path path' : List LensId}

/-! ## Pushes -/

section

variable (h : chain.push layer = .ok (id, next))
include h

lemma push_cases : next.layers = chain.layers ++ [layer] ∧ age layer.parent ≤ chain.size := by
  unfold push at h
  cases hparent : layer.parent with
  | none =>
    rw [hparent] at h
    cases h
    exact ⟨rfl, Nat.zero_le _⟩
  | some parent =>
    simp only [hparent] at h
    split at h
    · rename_i hlt
      cases h
      exact ⟨rfl, hlt⟩
    · cases h

lemma get?_of_push (known : LensId) (hlt : known.index < chain.size) :
    next.get? known = chain.get? known := by
  rw [get?, get?, (push_cases h).1, getElem?_append_left hlt]

lemma size_of_push : next.size = chain.size + 1 := by
  rw [size, (push_cases h).1, length_append]
  rfl

end

lemma lt_size_of_get? (h : chain.get? id = some layer) : id.index < chain.size :=
  (List.getElem?_eq_some_iff.1 h).1

lemma Grows.size_le (h : chain.Grows grown) : chain.size ≤ grown.size := by
  induction h with
  | refl => exact Nat.le_refl _
  | push _ pushed ih =>
    have hsize := size_of_push pushed
    omega

lemma Grows.get? (h : chain.Grows grown) (known : LensId) (hlt : known.index < chain.size) :
    grown.get? known = chain.get? known := by
  induction h with
  | refl => rfl
  | push before pushed ih =>
    exact (get?_of_push pushed known (Nat.lt_of_lt_of_le hlt before.size_le)).trans ih

lemma Stacked.push (h : chain.Stacked) (hpush : chain.push layer = .ok (id, next)) :
    next.Stacked := by
  intro i found hi
  have hsize := size_of_push hpush
  have hlt := lt_size_of_get? hi
  by_cases hold : i.index < chain.size
  · rw [get?_of_push hpush i hold] at hi
    exact h i found hi
  · obtain ⟨hlayers, hparent⟩ := push_cases hpush
    have hlast : i.index = chain.layers.length := Nat.le_antisymm (by
      rw [hsize] at hlt
      exact Nat.le_of_lt_succ hlt) (Nat.le_of_not_lt hold)
    rw [Chain.get?, hlayers, hlast, getElem?_concat_length] at hi
    cases hi
    rw [age, hlast]
    exact Nat.lt_succ_of_le hparent

lemma Grows.stacked (h : Chain.empty.Grows chain) : chain.Stacked := by
  induction h with
  | refl =>
    intro id layer h
    exact absurd (lt_size_of_get? h) (Nat.not_lt_zero _)
  | push _ pushed ih => exact ih.push pushed

/-! ## Lineages -/

lemma Known.none : chain.Known none := fun _ h => nomatch h

lemma known_of_get? (h : chain.get? id = some layer) : chain.Known (some id) := by
  rintro i ⟨⟩
  exact lt_size_of_get? h

lemma Stacked.known_parent (h : chain.Stacked) (hget : chain.get? id = some layer) :
    chain.Known layer.parent := by
  intro parent hparent
  have hage := h id layer hget
  have hlt := lt_size_of_get? hget
  rw [hparent, age, age] at hage
  omega

namespace Lineage

theorem append (h : chain.Lineage a b path) (h' : chain.Lineage b c path') :
    chain.Lineage a c (path ++ path') := by
  induction h' with
  | here => rwa [append_nil]
  | above found _ ih =>
    rw [← append_assoc]
    exact .above found ih

lemma ancestor (h : chain.Lineage a c path) : chain.Ancestor a c := by
  induction h with
  | here => exact .refl
  | above found _ ih => exact ih.tail ⟨_, _, rfl, found, rfl⟩

lemma age_add_length_le (h : chain.Lineage a c path) (hs : chain.Stacked) :
    age a + path.length ≤ age c := by
  induction h with
  | here => exact Nat.le_refl _
  | above found _ ih =>
    have hage := hs _ _ found
    rw [length_append, length_singleton]
    omega

/-- The layers of a lineage are exactly those between its ends. -/
lemma mem_iff (hs : chain.Stacked) (h : chain.Lineage a c path) :
    id ∈ path ↔ some id ≠ a ∧ chain.Ancestor a (some id) ∧ chain.Ancestor (some id) c := by
  constructor
  · intro hmem
    induction h with
    | here => cases hmem
    | above found below ih =>
      rename_i top layer path
      rcases mem_append.1 hmem with hmem | hmem
      · obtain ⟨hne, ha, hc⟩ := ih hmem
        exact ⟨hne, ha, hc.tail ⟨_, _, rfl, found, rfl⟩⟩
      · obtain rfl := mem_singleton.1 hmem
        refine ⟨?_, (above found below).ancestor, .refl⟩
        rintro rfl
        have hle := below.age_add_length_le hs
        have hlt := hs _ _ found
        omega
  · rintro ⟨hne, ha, hc⟩
    induction h with
    | here =>
      -- nothing is strictly between a place and itself
      have hle : ∀ {x y : Option LensId}, chain.Ancestor x y → x = y ∨ age x < age y := by
        intro x y hxy
        induction hxy with
        | refl => exact .inl rfl
        | tail _ hstep ih =>
          obtain ⟨i, l, rfl, hget, rfl⟩ := hstep
          have hlt := hs i l hget
          rcases ih with rfl | ih
          · exact .inr hlt
          · exact .inr (by omega)
      rcases hle hc with heq | hlt
      · exact absurd heq hne
      · rcases hle ha with heq | hlt'
        · exact absurd heq.symm hne
        · omega
    | above found below ih =>
      rename_i top layer path
      rcases hc.cases_tail with heq | ⟨p, hp, i, l, hi, hget, hparent⟩
      · cases heq
        simp
      · cases hi
        obtain rfl := Option.some.inj (found.symm.trans hget)
        subst hparent
        exact mem_append_left _ (ih hp)

lemma sorted (hs : chain.Stacked) (h : chain.Lineage a c path) :
    path.Pairwise fun i j => i.index < j.index := by
  have hlast : ∀ {c path}, chain.Lineage a c path → ∀ i ∈ path, age (some i) ≤ age c := by
    intro c path h
    induction h with
    | here => exact nofun
    | above found below ih =>
      intro i hi
      have hlt := hs _ _ found
      rcases mem_append.1 hi with hi | hi
      · have hle := ih i hi
        omega
      · rw [mem_singleton.1 hi]
  induction h with
  | here => exact .nil
  | above found below ih =>
    rename_i top layer path
    refine pairwise_append.2 ⟨ih, pairwise_singleton _ _, fun i hi j hj => ?_⟩
    have hle := hlast below i hi
    have hlt := hs _ _ found
    rw [mem_singleton.1 hj]
    rw [age] at hle hlt
    omega

end Lineage

lemma Ancestor.lineage (h : chain.Ancestor a c) : ∃ path, chain.Lineage a c path := by
  induction h with
  | refl => exact ⟨[], .here⟩
  | tail _ hstep ih =>
    obtain ⟨path, hpath⟩ := ih
    obtain ⟨id, layer, rfl, hget, rfl⟩ := hstep
    exact ⟨path ++ [id], .above hget hpath⟩

/-! ## Walks -/

lemma lineage_of_pathFrom
    {found acc : List LensId} (h : chain.pathFrom source target fuel current acc = .ok found) :
    ∃ path, chain.Lineage source current path ∧ found = path ++ acc := by
  induction fuel generalizing current acc with
  | zero =>
    unfold pathFrom at h
    split at h
    · rename_i heq
      cases h
      exact ⟨[], heq ▸ .here, rfl⟩
    · cases current <;> cases h
  | succ fuel ih =>
    unfold pathFrom at h
    split at h
    · rename_i heq
      cases h
      exact ⟨[], heq ▸ .here, rfl⟩
    · cases current with
      | none => cases h
      | some id =>
        dsimp only at h
        cases hget : chain.get? id with
        | none =>
          rw [hget] at h
          cases h
        | some layer =>
          rw [hget] at h
          obtain ⟨path, hpath, rfl⟩ := ih h
          exact ⟨path ++ [id], .above hget hpath, by simp⟩

lemma pathFrom_of_lineage (hs : chain.Stacked)
    (h : chain.Lineage source current path) (hfuel : path.length ≤ fuel)
    (acc : List LensId) : chain.pathFrom source target fuel current acc = .ok (path ++ acc) := by
  induction h generalizing fuel acc with
  | here =>
    unfold pathFrom
    rw [if_pos rfl]
    rfl
  | above found below ih =>
    rename_i id layer path
    have hne : some id ≠ source := by
      rintro rfl
      have hle := below.age_add_length_le hs
      have hlt := hs _ _ found
      omega
    rw [length_append, length_singleton] at hfuel
    obtain ⟨fuel, rfl⟩ : ∃ n, fuel = n + 1 := ⟨fuel - 1, by omega⟩
    unfold pathFrom
    rw [if_neg hne]
    simp only [found]
    rw [ih (by omega)]
    simp

lemma pathFrom_fuel (hs : chain.Stacked) {fuel' : Nat}
    (h : min (age current) (chain.size + 1) ≤ fuel) (h' : min (age current) (chain.size + 1) ≤ fuel')
    (acc : List LensId) :
    chain.pathFrom source target fuel current acc = chain.pathFrom source target fuel' current acc := by
  induction fuel generalizing current fuel' acc with
  | zero =>
    cases current with
    | none =>
      unfold pathFrom
      cases fuel' <;> rfl
    | some id =>
      rw [age] at h
      omega
  | succ fuel ih =>
    cases current with
    | none =>
      unfold pathFrom
      cases fuel' <;> rfl
    | some id =>
      rw [age] at h h'
      obtain ⟨fuel', rfl⟩ : ∃ n, fuel' = n + 1 := ⟨fuel' - 1, by omega⟩
      unfold pathFrom
      split
      · rfl
      · dsimp only
        cases hget : chain.get? id with
        | none => rfl
        | some layer =>
          have hlt := hs id layer hget
          have hsize := lt_size_of_get? hget
          rw [age] at hlt
          exact ih (by omega) (by omega) _

lemma Grows.pathFrom (hgrows : chain.Grows grown) (hs : chain.Stacked)
    (hknown : chain.Known current) (fuel : Nat) (acc : List LensId) :
    grown.pathFrom source target fuel current acc = chain.pathFrom source target fuel current acc := by
  induction fuel generalizing current acc with
  | zero =>
    cases current <;> rfl
  | succ fuel ih =>
    unfold Chain.pathFrom
    split
    · rfl
    · cases current with
      | none => rfl
      | some id =>
        dsimp only
        rw [hgrows.get? id (hknown id rfl)]
        cases hget : chain.get? id with
        | none => rfl
        | some layer => exact ih (hs.known_parent hget) _

/-! ## Paths -/

lemma path_of_known (h : chain.Known source) :
    chain.path source target = chain.pathFrom source target (chain.size + 1) target [] := by
  cases source with
  | none => rfl
  | some id => exact if_pos (h id rfl)

lemma known_of_path (h : chain.path source target = .ok path) : chain.Known source := by
  unfold Chain.path at h
  cases source with
  | none => exact .none
  | some id =>
    rintro i ⟨⟩
    by_contra hlt
    simp only [if_neg hlt] at h
    cases h

lemma Lineage.known (h : chain.Lineage a c path) (ha : chain.Known a) : chain.Known c := by
  cases h with
  | here => exact ha
  | above found _ => exact known_of_get? found

/-- The path between two places is the lineage from one to the other. -/
theorem path_eq_ok_iff (hs : chain.Stacked) :
    chain.path a c = .ok path ↔ chain.Known a ∧ chain.Lineage a c path := by
  constructor
  · intro h
    have hknown := known_of_path h
    rw [path_of_known hknown] at h
    obtain ⟨found, hfound, rfl⟩ := lineage_of_pathFrom h
    exact ⟨hknown, by rwa [append_nil]⟩
  · rintro ⟨hknown, h⟩
    have hage : age c ≤ chain.size := by
      cases c with
      | none => exact Nat.zero_le _
      | some id => exact (h.known hknown) id rfl
    have hlength := h.age_add_length_le hs
    rw [path_of_known hknown, pathFrom_of_lineage hs h (by omega) [], append_nil]

/-- The paths between places that exist stay what they are, found or not. -/
lemma Grows.path_eq (hgrows : chain.Grows grown) (hs : chain.Stacked) (ha : chain.Known a)
    (hc : chain.Known c) : grown.path a c = chain.path a c := by
  have hsize := hgrows.size_le
  have ha' : grown.Known a := fun id hid => Nat.lt_of_lt_of_le (ha id hid) hsize
  rw [path_of_known ha', path_of_known ha, hgrows.pathFrom hs hc]
  exact pathFrom_fuel hs (by omega) (by omega) []

/-! ## Renames along a path -/

def viewOf (chain : Chain) (path : List LensId) (target : Option LensId) : View :=
  ⟨path, path.filterMap chain.get?, target⟩

lemma view_eq (chain : Chain) (a c : Option LensId) :
    chain.view a c = (chain.path a c).map fun path => chain.viewOf path c := by
  unfold view
  cases chain.path a c <;> rfl

lemma lookupType_viewOf_append (chain : Chain) (path path' : List LensId) (ty : TypeRef) :
    (chain.viewOf (path ++ path') c).lookupType ty =
      (chain.viewOf path' c).lookupType ((chain.viewOf path b).lookupType ty) := by
  simp only [View.lookupType, viewOf, filterMap_append, foldl_append]

lemma lookupField_viewOf_append (chain : Chain) (path path' : List LensId) (field : FieldRef) :
    (chain.viewOf (path ++ path') c).lookupField field =
      (chain.viewOf path' c).lookupField ((chain.viewOf path b).lookupField field) := by
  simp only [View.lookupField, viewOf, filterMap_append, foldl_append]

lemma lookupMethod_viewOf_append (chain : Chain) (path path' : List LensId)
    (method context : MethodRef) (kind : InvokeKind) :
    (chain.viewOf (path ++ path') c).lookupMethod method context kind =
      (chain.viewOf path' c).lookupMethod
        ((chain.viewOf path b).lookupMethod method context kind).ref context
        ((chain.viewOf path b).lookupMethod method context kind).kind := by
  simp only [View.lookupMethod, viewOf, filterMap_append, foldl_append]

lemma Grows.view_eq (hgrows : chain.Grows grown) (hs : chain.Stacked) (ha : chain.Known a)
    (hc : chain.Known c) : grown.view a c = chain.view a c := by
  rw [Chain.view_eq, Chain.view_eq, hgrows.path_eq hs ha hc]
  cases hpath : chain.path a c with
  | error e => rfl
  | ok path =>
    have hlineage := ((path_eq_ok_iff hs).1 hpath).2
    have hlayers : path.filterMap grown.get? = path.filterMap chain.get? := by
      refine filterMap_congr fun id hid => hgrows.get? id ?_
      obtain ⟨rest, hrest⟩ := (((hlineage.mem_iff hs).1 hid).2.1).lineage
      exact (hrest.known ha) id rfl
    exact congrArg Except.ok (congrArg (View.mk path · c) hlayers)

/-- Views compose. Of a chain that pushes have built: a path is found exactly between places of which
one is below the other, and it lists the layers strictly above the one up to the other, the oldest
first; paths and the renames along them compose; and later pushes change neither. A walk never uses its
fuel up. -/
theorem views_compose (h : Chain.empty.Grows chain) :
    (∀ a c, (∃ path, chain.path a c = .ok path) ↔
      chain.Known a ∧ chain.Known c ∧ chain.Ancestor a c) ∧
    (∀ a c path, chain.path a c = .ok path → chain.Lineage a c path ∧
      (path.Pairwise fun i j => i.index < j.index) ∧
      ∀ id, id ∈ path ↔ some id ≠ a ∧ chain.Ancestor a (some id) ∧ chain.Ancestor (some id) c) ∧
    (∀ a c fuel, chain.Known a → chain.size < fuel →
      chain.pathFrom a c fuel c [] = chain.path a c) ∧
    (∀ a b c path path', chain.path a b = .ok path → chain.path b c = .ok path' →
      chain.path a c = .ok (path ++ path') ∧
      ∃ first second whole, chain.view a b = .ok first ∧ chain.view b c = .ok second ∧
        chain.view a c = .ok whole ∧
        (∀ ty, whole.lookupType ty = second.lookupType (first.lookupType ty)) ∧
        (∀ field, whole.lookupField field = second.lookupField (first.lookupField field)) ∧
        ∀ method context kind, whole.lookupMethod method context kind =
          second.lookupMethod (first.lookupMethod method context kind).ref context
            (first.lookupMethod method context kind).kind) ∧
    ∀ later, chain.Grows later → ∀ a c, chain.Known a → chain.Known c →
      later.path a c = chain.path a c ∧ later.view a c = chain.view a c := by
  have hs := h.stacked
  refine ⟨fun a c => ⟨?_, ?_⟩, fun a c path hpath => ?_, fun a c fuel ha hfuel => ?_,
    fun a b c path path' hpath hpath' => ?_, fun later hlater a c ha hc =>
      ⟨hlater.path_eq hs ha hc, hlater.view_eq hs ha hc⟩⟩
  · rintro ⟨path, hpath⟩
    obtain ⟨ha, hlineage⟩ := (path_eq_ok_iff hs).1 hpath
    exact ⟨ha, hlineage.known ha, hlineage.ancestor⟩
  · rintro ⟨ha, -, hancestor⟩
    obtain ⟨path, hpath⟩ := hancestor.lineage
    exact ⟨path, (path_eq_ok_iff hs).2 ⟨ha, hpath⟩⟩
  · obtain ⟨-, hlineage⟩ := (path_eq_ok_iff hs).1 hpath
    exact ⟨hlineage, hlineage.sorted hs, fun id => hlineage.mem_iff hs⟩
  · rw [path_of_known ha]
    exact pathFrom_fuel hs (by omega) (by omega) []
  · obtain ⟨ha, hfirst⟩ := (path_eq_ok_iff hs).1 hpath
    obtain ⟨-, hsecond⟩ := (path_eq_ok_iff hs).1 hpath'
    have hwhole := (path_eq_ok_iff hs).2 ⟨ha, hfirst.append hsecond⟩
    refine ⟨hwhole, chain.viewOf path b, chain.viewOf path' c, chain.viewOf (path ++ path') c,
      ?_, ?_, ?_, fun ty => chain.lookupType_viewOf_append path path' ty,
      fun field => chain.lookupField_viewOf_append path path' field,
      fun method context kind => chain.lookupMethod_viewOf_append path path' method context kind⟩
    · rw [Chain.view_eq, hpath]
      rfl
    · rw [Chain.view_eq, hpath']
      rfl
    · rw [Chain.view_eq, hwhole]
      rfl

def typeLayer (name : String) (parent : Option LensId) (source target : TypeRef) : Layer :=
  ({ name, parent } : Layer).renameType source target

def baseLayer : Layer := typeLayer "base" none ⟨"LA;"⟩ ⟨"LB;"⟩

def leftLayer : Layer := typeLayer "left" (some ⟨0⟩) ⟨"LB;"⟩ ⟨"LC;"⟩

def rightLayer : Layer := typeLayer "right" (some ⟨0⟩) ⟨"LB;"⟩ ⟨"LD;"⟩

/-- Two layers on one parent: the base renames a type, and each of the others its new name. -/
def forked : Chain :=
  ⟨[baseLayer, leftLayer, rightLayer]⟩

theorem forked_views_compose : Chain.empty.Grows forked ∧
    forked.path none (some ⟨2⟩) = .ok [⟨0⟩, ⟨2⟩] ∧ ¬forked.Ancestor (some ⟨1⟩) (some ⟨2⟩) ∧
    ∃ first second whole, forked.view none (some ⟨0⟩) = .ok first ∧
      forked.view (some ⟨0⟩) (some ⟨2⟩) = .ok second ∧ forked.view none (some ⟨2⟩) = .ok whole ∧
      ∀ ty, whole.lookupType ty = second.lookupType (first.lookupType ty) := by
  have hbase : Chain.empty.push baseLayer = .ok (⟨0⟩, ⟨[baseLayer]⟩) := rfl
  have hleft : push ⟨[baseLayer]⟩ leftLayer = .ok (⟨1⟩, ⟨[baseLayer, leftLayer]⟩) := rfl
  have hright : push ⟨[baseLayer, leftLayer]⟩ rightLayer = .ok (⟨2⟩, forked) := rfl
  have hgrows : Chain.empty.Grows forked := .push (.push (.push .refl hbase) hleft) hright
  obtain ⟨hfound, -, -, hcompose, -⟩ := views_compose hgrows
  obtain ⟨hpath, first, second, whole, hfirst, hsecond, hwhole, htype, -⟩ :=
    hcompose none (some ⟨0⟩) (some ⟨2⟩) [⟨0⟩] [⟨2⟩] (by rfl) (by rfl)
  refine ⟨hgrows, hpath, fun hancestor => ?_, first, second, whole, hfirst, hsecond, hwhole, htype⟩
  have hknown : ∀ n < 3, forked.Known (some ⟨n⟩) := by
    rintro n hn id ⟨⟩
    exact hn
  obtain ⟨path, hpath⟩ := (hfound (some ⟨1⟩) (some ⟨2⟩)).2
    ⟨hknown 1 (by decide), hknown 2 (by decide), hancestor⟩
  cases hpath

end Chain

end Dissolve.Lens
