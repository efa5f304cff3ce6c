import Mathlib
import Dissolve.Lift.Basic

/-!
# Proofs.Lift.Ensures — what a lifting step ensures

`Ensures m p Q` says that the step `m`, started at `p`, ends with a result and a progress in `Q`
unless the method body is at fault. The rules below take a step apart along its binds and loops; a
loop is handled by a property of what is left to do.

The second part is about replaced values: as long as every key of a map is written once, and with a
value that is no key, following the map ends at a value without replacement, and one more
replacement is followed last (`Assoc.chase_insert`).
-/

namespace Dissolve

open List

/-- The failure is a fault of the code of a method. -/
def Error.BlamesCode : Error → Prop
  | .malformedCode .. | .stackUnderflow .. | .stackOverflow .. | .stackMismatch .. => True
  | _ => False

namespace Lift

/-- A step ends in `Q` or fails by a fault of the code. -/
def Ensures {α : Type} (m : Lifting α) (p : Progress) (Q : α → Progress → Prop) : Prop :=
  match m.run p with
  | .ok (a, p') => Q a p'
  | .error e => e.BlamesCode

namespace Ensures

variable {α β : Type} {m : Lifting α} {k : α → Lifting β} {p p' : Progress}
  {Q R : α → Progress → Prop} {S : β → Progress → Prop} {xs : List α}

lemma mono (h : Ensures m p Q) (hQR : ∀ a p', Q a p' → R a p') : Ensures m p R := by
  unfold Ensures at *
  split at h
  · exact hQR _ _ h
  · exact h

lemma pure {a : α} (h : Q a p) : Ensures (Pure.pure a) p Q := h

lemma bind (h : Ensures m p fun a p' => Ensures (k a) p' S) : Ensures (m >>= k) p S := by
  unfold Ensures at *
  rw [StateT.run_bind]
  cases hm : m.run p with
  | error e =>
    rwa [hm] at h
  | ok r =>
    rwa [hm] at h

lemma seq (h : Ensures m p Q) (hk : ∀ a p', Q a p' → Ensures (k a) p' S) : Ensures (m >>= k) p S :=
  bind (h.mono hk)

lemma map {f : α → β} (h : Ensures m p fun a p' => S (f a) p') : Ensures (f <$> m) p S := by
  exact seq h fun _ _ hs => pure hs

lemma get {Q : Progress → Progress → Prop} (h : Q p p) : Ensures MonadState.get p Q := h

lemma set {Q : PUnit → Progress → Prop} (h : Q ⟨⟩ p') :
    Ensures (MonadStateOf.set p') p Q := h

lemma modifying {g : Progress → Progress} {Q : PUnit → Progress → Prop} (h : Q ⟨⟩ (g p)) :
    Ensures (modify g) p Q := h

lemma throw {e : Error} (h : e.BlamesCode) : Ensures (MonadExcept.throw e : Lifting α) p Q := h

lemma fault (cause : CodeFault) : Ensures (Lift.fault cause : Lifting α) p Q := trivial

lemma unassigned (x : Variable) : Ensures (Lift.unassigned x : Lifting α) p Q := by
  cases x <;> exact trivial

lemma build {step : Ssa.Function → α × Ssa.Function}
    (h : Q (step p.func).1 { p with func := (step p.func).2 }) : Ensures (Lift.build step) p Q := h

lemma edit {step : Ssa.Edit α} {a : α} {f : Ssa.Function} (hrun : step.run p.func = .ok a f)
    (h : Q a { p with func := f }) : Ensures (Lift.edit step) p Q := by
  unfold Ensures Lift.edit
  rw [StateT.run_bind]
  simp only [StateT.run_get, pure_bind, hrun]
  exact h

lemma liftExcept {x : Except Error α} (hok : ∀ a, x = .ok a → Q a p)
    (herr : ∀ e, x = .error e → e.BlamesCode) : Ensures (liftM x) p Q := by
  cases x with
  | ok a => exact hok a rfl
  | error e => exact herr e rfl

lemma forM {f : α → Lifting PUnit} {I : List α → Progress → Prop} (h : I xs p)
    (hstep : ∀ x rest p, I (x :: rest) p → Ensures (f x) p fun _ p' => I rest p') :
    Ensures (xs.forM f) p fun _ p' => I [] p' := by
  induction xs generalizing p with
  | nil => exact h
  | cons x rest ih => exact seq (hstep x rest p h) fun _ p' h' => ih h'

lemma mapM {f : α → Lifting β} {I : List α → List β → Progress → Prop} (h : I xs [] p)
    (hstep : ∀ x rest done p, I (x :: rest) done p →
      Ensures (f x) p fun b p' => I rest (done ++ [b]) p') :
    Ensures (xs.mapM f) p fun bs p' => I [] bs p' := by
  have hgen : ∀ (xs : List α) (done : List β) (p : Progress), I xs done p →
      Ensures (xs.mapM f) p fun bs p' => I [] (done ++ bs) p' := by
    intro xs
    induction xs with
    | nil =>
      intro done p h
      exact pure (by simpa using h)
    | cons x rest ih =>
      intro done p h
      rw [mapM_cons]
      refine seq (hstep x rest done p h) fun b p' h' => ?_
      refine seq (ih _ _ h') fun bs p'' h'' => ?_
      exact pure (by simpa using h'')
  simpa using hgen xs [] p h

end Ensures

end Lift

/-! ## Following replacements -/

namespace Assoc

variable {α β : Type} {m : Assoc α α} {k v : α} [DecidableEq α]

/-- Following the map ends at a key without value. -/
def Grounded (m : Assoc α α) : Prop :=
  ∀ a, m.get? (m.chase a) = none

lemma follow_of_get?_none {a : α} (h : m.get? a = none) (fuel : Nat) : m.follow fuel a = a := by
  cases fuel with
  | zero => rfl
  | succ fuel => rw [follow, h]

lemma chase_of_get?_none {a : α} (h : m.get? a = none) : m.chase a = a :=
  follow_of_get?_none h _

lemma grounded_empty : (empty : Assoc α α).Grounded := fun _ => rfl

lemma Grounded.chase_chase (h : m.Grounded) (a : α) : m.chase (m.chase a) = m.chase a :=
  chase_of_get?_none (h a)

lemma length_put_of_find?_none (k : α) (v : β) (ps : List (α × β)) (h : find? k ps = none) :
    (put k v ps).length = ps.length + 1 := by
  induction ps with
  | nil => rfl
  | cons p rest ih =>
    obtain ⟨a, b⟩ := p
    by_cases hak : a = k
    · simp [find?, hak] at h
    · simp only [find?, hak, if_false] at h
      simp [put, hak, ih h]

lemma keys_put (k : α) (v : β) (ps : List (α × β)) :
    (put k v ps).map Prod.fst =
      if k ∈ ps.map Prod.fst then ps.map Prod.fst else ps.map Prod.fst ++ [k] := by
  induction ps with
  | nil => rfl
  | cons p rest ih =>
    obtain ⟨a, b⟩ := p
    by_cases hak : a = k
    · simp [put, hak]
    · simp only [put, hak, if_false, map_cons, ih, mem_cons, Ne.symm hak, false_or]
      split <;> rfl

lemma nodup_keys_insert (m : Assoc α β) (k : α) (v : β) (h : m.keys.Nodup) :
    (m.insert k v).keys.Nodup := by
  change ((put k v m.pairs).map Prod.fst).Nodup
  rw [keys_put]
  split
  · exact h
  · next hk =>
      refine nodup_append.2 ⟨h, nodup_singleton k, fun a ha b hb => ?_⟩
      rintro rfl
      exact hk (mem_singleton.1 hb ▸ ha)

lemma get?_eq_some_iff_mem {m : Assoc α β} (h : m.keys.Nodup) {v : β} :
    m.get? k = some v ↔ (k, v) ∈ m.pairs := by
  obtain ⟨ps⟩ := m
  change find? k ps = some v ↔ (k, v) ∈ ps
  induction ps with
  | nil => simp [find?]
  | cons p rest ih =>
    obtain ⟨a, b⟩ := p
    obtain ⟨hnot, hrest⟩ := nodup_cons.1 h
    by_cases hak : a = k
    · subst hak
      have hfresh : (a, v) ∉ rest := fun hc => hnot (mem_map.2 ⟨_, hc, rfl⟩)
      simp [find?, hfresh, eq_comm]
    · simp [find?, hak, ih hrest, Ne.symm hak]

/-- One more replacement: a chain that ended at the new key goes one step further. -/
lemma follow_insert (hk : m.get? k = none) (hv : m.get? v = none) (hkv : k ≠ v) (fuel : Nat) (a : α)
    (h : m.get? (m.follow fuel a) = none) :
    (m.insert k v).follow (fuel + 1) a = if m.follow fuel a = k then v else m.follow fuel a := by
  have hv' : (m.insert k v).get? v = none := by rw [get?_insert, if_neg hkv, hv]
  induction fuel generalizing a with
  | zero =>
    have ha : m.get? a = none := h
    simp only [follow, get?_insert]
    by_cases hak : k = a
    · simp [hak]
    · simp [hak, ha, Ne.symm hak]
  | succ fuel ih =>
    rw [follow, get?_insert]
    by_cases hak : k = a
    · subst hak
      rw [if_pos rfl, follow_of_get?_none hk, if_pos rfl]
      exact follow_of_get?_none hv' _
    · rw [if_neg hak]
      cases hnext : m.get? a with
      | none =>
        rw [follow_of_get?_none hnext, if_neg (Ne.symm hak)]
      | some next =>
        have hstep : m.follow (fuel + 1) a = m.follow fuel next := by rw [follow, hnext]
        rw [hstep] at h ⊢
        exact ih next h

theorem Grounded.chase_insert (h : m.Grounded) (hk : m.get? k = none) (hv : m.get? v = none)
    (hkv : k ≠ v) (a : α) : (m.insert k v).chase a = if m.chase a = k then v else m.chase a := by
  have hsize : (m.insert k v).size = m.size + 1 := length_put_of_find?_none k v m.pairs hk
  rw [chase, hsize]
  exact follow_insert hk hv hkv m.size a (h a)

lemma Grounded.insert (h : m.Grounded) (hk : m.get? k = none) (hv : m.get? v = none) (hkv : k ≠ v) :
    (m.insert k v).Grounded := by
  intro a
  rw [h.chase_insert hk hv hkv, get?_insert]
  by_cases hak : m.chase a = k
  · rw [if_pos hak, if_neg hkv, hv]
  · rw [if_neg hak, if_neg (Ne.symm hak), h a]

end Assoc

end Dissolve
