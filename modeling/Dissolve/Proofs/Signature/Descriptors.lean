import Mathlib
import Dissolve.Signature.Proto

/-!
# Proofs.Signature.Descriptors — method descriptors are read as they are written

The reader accepts the language of descriptors and nothing else. No field descriptor is the beginning
of another, so a concatenation of them is split in one way only.
-/

namespace Dissolve.Proto

open List

variable {stop : Char} {cs name front back : List Char} {params : List TypeRef} {fuel : Nat}

/-- The language of field descriptors. -/
inductive Field : List Char → Prop
  | primitive {c : Char} (h : c ∈ ['Z', 'B', 'C', 'S', 'I', 'J', 'F', 'D']) : Field [c]
  | object {name : List Char} (h : ';' ∉ name) : Field ('L' :: (name ++ [';']))
  | array {cs : List Char} (h : Field cs) : Field ('[' :: cs)

lemma splitThrough_append (h : stop ∉ name) (back : List Char) :
    splitThrough stop (name ++ stop :: back) = some (name ++ [stop], back) := by
  induction name with
  | nil => simp [splitThrough]
  | cons c name ih =>
    simp only [mem_cons, not_or] at h
    simp [splitThrough, Ne.symm h.1, ih h.2]

lemma of_splitThrough (h : splitThrough stop cs = some (front, back)) :
    ∃ name, stop ∉ name ∧ front = name ++ [stop] ∧ cs = name ++ stop :: back := by
  induction cs generalizing front with
  | nil => simp [splitThrough] at h
  | cons c rest ih =>
    by_cases hc : c = stop
    · simp only [splitThrough, hc, if_true, Option.some.injEq, Prod.mk.injEq] at h
      exact ⟨[], by simp, by simp [h.1], by simp [hc, h.2]⟩
    · simp only [splitThrough, hc, if_false, Option.map_eq_some_iff, Prod.exists, Prod.mk.injEq] at h
      obtain ⟨front, _, hrest, rfl, rfl⟩ := h
      obtain ⟨name, hname, rfl, rfl⟩ := ih hrest
      exact ⟨c :: name, by simp [hname, Ne.symm hc], rfl, rfl⟩

lemma takeField_append (h : Field front) (back : List Char) :
    takeField (front ++ back) = some (front, back) := by
  induction h with
  | @primitive c h =>
    have hc : c ≠ '[' := by rintro rfl; simp at h
    simp [takeField, hc, h]
  | object h => simp [takeField, splitThrough_append h]
  | array _ ih => simp [takeField, ih]

lemma of_takeField (h : takeField cs = some (front, back)) : Field front ∧ cs = front ++ back := by
  induction cs generalizing front with
  | nil => simp [takeField] at h
  | cons c rest ih =>
    rw [takeField] at h
    split_ifs at h with harray hprimitive hobject
    · simp only [Option.map_eq_some_iff, Prod.exists, Prod.mk.injEq] at h
      obtain ⟨front, _, hrest, rfl, rfl⟩ := h
      obtain ⟨hfield, rfl⟩ := ih hrest
      exact ⟨harray ▸ hfield.array, rfl⟩
    · simp only [Option.some.injEq, Prod.mk.injEq] at h
      obtain ⟨rfl, rfl⟩ := h
      exact ⟨.primitive hprimitive, rfl⟩
    · simp only [Option.map_eq_some_iff, Prod.exists, Prod.mk.injEq] at h
      obtain ⟨front, _, hrest, rfl, rfl⟩ := h
      obtain ⟨name, hname, rfl, rfl⟩ := of_splitThrough hrest
      exact ⟨hobject ▸ .object hname, by simp⟩

lemma isField_iff : isField cs ↔ Field cs := by
  constructor
  · intro h
    rw [isField] at h
    split at h
    · obtain ⟨hfield, rfl⟩ := of_takeField ‹_›
      simpa using hfield
    · cases h
  · intro h
    have hwhole := takeField_append h []
    rw [append_nil] at hwhole
    simp [isField, hwhole]

/-- The descriptors of the types, one after the other. -/
def chars (params : List TypeRef) : List Char :=
  params.flatMap (·.descriptor.toList)

lemma Field.ne_nil (h : Field cs) : cs ≠ [] := by
  cases h <;> simp

lemma takeFields_chars (h : ∀ ty ∈ params, Field ty.descriptor.toList)
    (hfuel : (chars params).length ≤ fuel) : takeFields fuel (chars params) = some params := by
  induction params generalizing fuel with
  | nil => simp [chars, takeFields]
  | cons ty rest ih =>
    have hty : Field ty.descriptor.toList := h ty (by simp)
    have hlen := length_pos_iff.2 hty.ne_nil
    have hchars : chars (ty :: rest) = ty.descriptor.toList ++ chars rest := flatMap_cons
    rw [hchars, length_append] at hfuel
    obtain ⟨fuel, rfl⟩ : ∃ n, fuel = n + 1 := ⟨fuel - 1, by omega⟩
    rw [hchars, takeFields.eq_3 _ _ (by simp [hty.ne_nil]), takeField_append hty]
    have hrest : takeFields fuel (chars rest) = some rest :=
      ih (fun ty hmem => h ty (by simp [hmem])) (by omega)
    simp [hrest]

lemma of_takeFields (h : takeFields fuel cs = some params) :
    (∀ ty ∈ params, Field ty.descriptor.toList) ∧ cs = chars params := by
  fun_induction takeFields fuel cs generalizing params with
  | case1 => simp_all [chars]
  | case2 => cases h
  | case3 => cases h
  | case4 fuel cs _ front back hfront ih =>
    obtain ⟨rest, hrest, rfl⟩ := Option.map_eq_some_iff.1 h
    obtain ⟨hfield, rfl⟩ := of_takeField hfront
    obtain ⟨hfields, rfl⟩ := ih hrest
    exact ⟨by simpa [hfield] using hfields, by simp [chars]⟩

lemma toList_text (p : Proto) :
    p.text.toList = '(' :: (chars p.params ++ ')' :: p.ret.descriptor.toList) := by
  simp [text, String.toList_join, chars, flatMap_map]

/-- The parameters are field descriptors without a closing parenthesis, and the result is `V` or a
field descriptor. -/
def IsMethod (p : Proto) : Prop :=
  (∀ ty ∈ p.params, Field ty.descriptor.toList ∧ ')' ∉ ty.descriptor.toList) ∧
    (p.ret.descriptor = "V" ∨ Field p.ret.descriptor.toList)

lemma ofDescriptor_text {p : Proto} (h : p.IsMethod) : ofDescriptor p.text = .ok p := by
  obtain ⟨ret, params⟩ := p
  have hclose : ')' ∉ chars params := by
    simpa [chars] using fun ty hty => (h.1 ty hty).2
  have hparams := takeFields_chars (fun ty hty => (h.1 ty hty).1) (Nat.le_succ (chars params).length)
  have hret : ret.descriptor.toList = ['V'] ∨ isField ret.descriptor.toList :=
    h.2.imp (fun hV => by rw [hV]; rfl) isField_iff.2
  simp [ofDescriptor, toList_text, splitThrough_append hclose, hparams, hret]

lemma of_ofDescriptor {s : String} {p : Proto} (h : ofDescriptor s = .ok p) :
    p.IsMethod ∧ s = p.text := by
  rw [ofDescriptor] at h
  split at h
  · rename_i rest hs
    split at h
    · cases h
    · rename_i front back hsplit
      obtain ⟨inner, hclose, rfl, rfl⟩ := of_splitThrough hsplit
      rw [dropLast_concat] at h
      split at h
      · cases h
      · rename_i params hparams
        obtain ⟨hfields, rfl⟩ := of_takeFields hparams
        split_ifs at h with hret
        cases h
        refine ⟨⟨fun ty hty => ⟨hfields ty hty, ?_⟩, ?_⟩, ?_⟩
        · exact fun hmem => hclose (mem_flatMap.2 ⟨ty, hty, hmem⟩)
        · rw [Bool.or_eq_true, decide_eq_true_eq, isField_iff] at hret
          exact hret.imp (fun hV => by rw [hV]) (by simpa using ·)
        · rw [← String.toList_inj, toList_text, hs]
          simp
  · cases h

/-- A text is read as a prototype exactly if it is the written form of one whose parameters and result
have descriptors; so writing undoes reading, and reading undoes writing. -/
theorem ofDescriptor_eq_ok_iff (s : String) (p : Proto) :
    (ofDescriptor s = .ok p ↔ p.IsMethod ∧
      s.toList = '(' :: (p.params.flatMap (·.descriptor.toList) ++ ')' :: p.ret.descriptor.toList)) ∧
    (ofDescriptor s = .ok p → p.text = s) ∧ (p.IsMethod → ofDescriptor p.text = .ok p) := by
  refine ⟨⟨fun h => ?_, fun ⟨hp, hs⟩ => ?_⟩, fun h => (of_ofDescriptor h).2.symm, ofDescriptor_text⟩
  · obtain ⟨hp, rfl⟩ := of_ofDescriptor h
    exact ⟨hp, toList_text p⟩
  · obtain rfl : s = p.text := by rw [← String.toList_inj, toList_text, hs]; rfl
    exact ofDescriptor_text hp

end Dissolve.Proto
