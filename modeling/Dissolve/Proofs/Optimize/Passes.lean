import Dissolve.Proofs.Optimize.Following

/-!
# Proofs.Optimize.Passes — loops over faithful passes

A loop over faithful passes is faithful: it answers `false` only behind a round in which no pass
changed anything, and the checks of functions that some configurations ask for always succeed, because
the functions of a sound context are well formed (`checkStored_run`).
-/

namespace Dissolve.Optimize

open List
open Ssa (Function)

variable {ρ α β : Type} {seen : Function → Function} {s t u : Session ρ} {x : Run ρ Bool}
  {xs : List β}

/-! ## Sessions -/

/-- Two sessions with alike contexts, in which passes remember the same. -/
structure Session.AlikeBy (seen : Function → Function) (s t : Session ρ) : Prop where
  context : s.context.AlikeBy seen t.context
  memory : s.memory = t.memory

namespace Session.AlikeBy

lemma refl (h : s.context.Sound) : s.AlikeBy seen s := ⟨h.alike, rfl⟩

lemma trans (h : s.AlikeBy seen t) (h' : t.AlikeBy seen u) : s.AlikeBy seen u :=
  ⟨h.context.trans h'.context, h.memory.trans h'.memory⟩

end Session.AlikeBy

lemma Follows.onContext {x y : Work α} {Q : α → Context → Context → Prop}
    (h : Follows x y s.context t.context Q) : Follows (onContext x) (onContext y) s t fun a s' t' =>
      Q a s'.context t'.context ∧ s'.memory = s.memory ∧ t'.memory = t.memory := by
  intro a s' hrun
  change Optimize.onContext x s = _ at hrun
  unfold Optimize.onContext at hrun
  split at hrun
  · rename_i b c' hx
    cases hrun
    obtain ⟨d', hy, hq⟩ := h a c' hx
    refine ⟨⟨d', t.memory⟩, ?_, hq, rfl, rfl⟩
    change Optimize.onContext y t = _
    rw [Optimize.onContext, show y t.context = .ok a d' from hy]
  · cases hrun

lemma Quiet.onContext {x : Work α} {A : α → Prop} (h : Quiet seen x A) (hst : s.AlikeBy seen t) :
    Follows (onContext x) (onContext x) s t fun _ s' t' => s'.AlikeBy seen t' ∧ s.AlikeBy seen s' := by
  refine (Follows.onContext (h hst.context)).mono ?_
  rintro _ s' t' ⟨⟨-, hcd, hcc⟩, hs, ht⟩
  exact ⟨⟨hcd, hs.trans (hst.memory.trans ht.symm)⟩, hcc, hs.symm⟩

lemma Quiet.markChanged (method : MethodRef) :
    Quiet seen (modify fun c => c.markChanged method) fun _ => True := by
  have hsame (c : Context) : (c.Sound → (c.markChanged method).Sound) ∧
      (c.markChanged method).core seen = c.core seen := by
    unfold Context.markChanged
    split
    · exact ⟨id, rfl⟩
    · exact ⟨fun h => ⟨h.regular, ⟨rfl, h.truthful.bodies, h.truthful.summaries⟩, h.verdicts⟩, rfl⟩
  intro c d hcd
  refine .modify ⟨trivial, ⟨(hsame c).1 hcd.left, (hsame d).1 hcd.right, ?_⟩, hcd.left,
    (hsame c).1 hcd.left, (hsame c).2.symm⟩
  rw [(hsame c).2, (hsame d).2, hcd.core]

/-! ## Loops -/

namespace Faithful

lemma onContext {x : Work Bool} (h : Faithful (Context.AlikeBy seen) x) :
    Faithful (Session.AlikeBy seen) (onContext x : Run ρ Bool) := by
  intro s t hst
  refine (Follows.onContext (h hst.context)).mono ?_
  rintro _ s' t' ⟨⟨hcd, hsame⟩, hs, ht⟩
  exact ⟨⟨hcd, hs.trans (hst.memory.trans ht.symm)⟩, fun hfalse => ⟨hsame hfalse, hs.symm⟩⟩

lemma pure_false : Faithful (Session.AlikeBy seen) (pure false : Run ρ Bool) :=
  fun _ _ hst => .pure ⟨hst, fun _ => .refl hst.context.left⟩

lemma andThen {y : Run ρ Unit} (hx : Faithful (Session.AlikeBy seen) x)
    (hy : ∀ ⦃s t⦄, s.AlikeBy seen t → Follows y y s t fun _ s' t' => s'.AlikeBy seen t') :
    Faithful (Session.AlikeBy seen)
      (x >>= fun changed => if !changed then return false else y >>= fun _ => return true) := by
  intro s t hst
  refine (hx hst).bind ?_
  rintro changed s' t' ⟨hst', hsame⟩
  cases changed with
  | false => exact .pure ⟨hst', hsame⟩
  | true => exact (hy hst').bind fun _ s'' t'' hst'' => .pure ⟨hst'', nofun⟩

lemma mapM {step : β → Run ρ Bool} (hstep : ∀ x ∈ xs, Faithful (Session.AlikeBy seen) (step x))
    (hst : s.AlikeBy seen t) :
    Follows (xs.mapM step) (xs.mapM step) s t
      fun changes s' t' => s'.AlikeBy seen t' ∧ (changes.any id = false → s.AlikeBy seen s') := by
  refine Follows.mapM xs (I := fun _ (done : List Bool) s' t' =>
    s'.AlikeBy seen t' ∧ (done.any id = false → s.AlikeBy seen s')) (fun x hx _ done s' t' h => ?_)
    ⟨hst, fun _ => .refl hst.context.left⟩
  refine (hstep x hx h.1).mono fun changed s'' t'' h' => ⟨h'.1, fun hfalse => ?_⟩
  simp only [any_append, any_cons, any_nil, Bool.or_eq_false_iff] at hfalse
  exact (h.2 hfalse.1).trans (h'.2 hfalse.2.1)

end Faithful

section Attempts

variable {step : MethodRef → Run ρ Bool} {methods : List MethodRef}

/-- Runs a step for one method after the other, also behind a failure, and reports the first. -/
def sweep (step : MethodRef → Run ρ Bool) : List MethodRef → Run ρ Bool
  | [] => pure false
  | m :: rest => do
    let first ← attempt (step m)
    let later ← attempt (sweep step rest)
    return (← ofExcept first) || (← ofExcept later)

lemma attempt_run (x : Run ρ α) (s : Session ρ) :
    (attempt x).run s = .ok (answer x s) (after x s) := by
  change attempt x s = _
  simp only [attempt, answer, after, EStateM.run]
  cases x s <;> rfl

lemma attempts_run (step : MethodRef → Run ρ Bool) (methods : List MethodRef) (s : Session ρ) :
    ∃ results t, (methods.mapM fun m => attempt (step m)).run s = .ok results t := by
  induction methods generalizing s with
  | nil => exact ⟨[], s, rfl⟩
  | cons m rest ih =>
    obtain ⟨results, t, hresults⟩ := ih (after (step m) s)
    exact ⟨answer (step m) s :: results, t, by simp [attempt_run, hresults]⟩

lemma mapM_ofExcept (results : List (Except Error Bool)) :
    (results.mapM ofExcept : Run ρ (List Bool)) = ofExcept (results.mapM id) := by
  induction results with
  | nil => rfl
  | cons r rest ih =>
    rw [mapM_cons, mapM_cons, ih]
    cases r with
    | error e => rfl
    | ok a => cases (rest.mapM id : Except Error (List Bool)) <;> rfl

lemma attempt_run_of_eq {r : Except Error α} {x : Run ρ α}
    (h : x.run s = (ofExcept r : Run ρ α).run t) : (attempt x).run s = .ok r t := by
  rw [attempt_run, answer, after, h]
  cases r <;> rfl

lemma runForEach_eq_sweep (step : MethodRef → Run ρ Bool) (methods : List MethodRef) :
    runForEach step methods = sweep step methods := by
  have hrun {methods : List MethodRef} {results : List (Except Error Bool)} {s t : Session ρ}
      (h : (methods.mapM fun m => attempt (step m)).run s = .ok results t) :
      (runForEach step methods).run s =
        (ofExcept ((results.mapM id).map fun changes => changes.any id) : Run ρ Bool).run t := by
    simp only [runForEach, EStateM.run_bind, h, mapM_ofExcept]
    cases (results.mapM id : Except Error (List Bool)) <;> rfl
  induction methods with
  | nil => rfl
  | cons m rest ih =>
    refine funext fun s => ?_
    obtain ⟨results, t, hresults⟩ := attempts_run step rest (after (step m) s)
    have hcons : ((m :: rest).mapM fun m => attempt (step m)).run s =
        .ok (answer (step m) s :: results) t := by
      simp [attempt_run, hresults]
    change (runForEach step (m :: rest)).run s = (sweep step (m :: rest)).run s
    simp only [hrun hcons, sweep, EStateM.run_bind, attempt_run (step m), ← ih,
      attempt_run_of_eq (hrun hresults), mapM_cons]
    cases answer (step m) s <;> cases (results.mapM id : Except Error (List Bool)) <;> rfl

lemma mapM_cons_ok_iff {step : β → Run ρ α} {x : β} {as : List α} :
    ((x :: xs).mapM step).run s = .ok as t ↔ ∃ a rest u, as = a :: rest ∧
      (step x).run s = .ok a u ∧ (xs.mapM step).run u = .ok rest t := by
  rw [mapM_cons]
  simp only [bind_ok_iff, EStateM.run_pure, EStateM.Result.ok.injEq]
  constructor
  · rintro ⟨a, u, hx, rest, _, hxs, rfl, rfl⟩
    exact ⟨a, rest, u, rfl, hx, hxs⟩
  · rintro ⟨a, rest, u, rfl, hx, hxs⟩
    exact ⟨a, u, hx, rest, t, hxs, rfl, rfl⟩

lemma ofExcept_ok_iff {r : Except Error α} {a : α} :
    (ofExcept r : Run ρ α).run s = .ok a t ↔ r = .ok a ∧ s = t := by
  cases r with
  | ok b =>
    change EStateM.Result.ok b s = .ok a t ↔ _
    simp
  | error e => exact ⟨nofun, nofun⟩

lemma attempt_ok_iff {a : Bool} : (attempt x).run s = .ok (.ok a) t ↔ x.run s = .ok a t := by
  change attempt x s = _ ↔ x s = _
  unfold attempt
  cases x s <;> simp

lemma runForEach_ok_iff {changed : Bool} : (runForEach step methods).run s = .ok changed t ↔
    ∃ changes, (methods.mapM step).run s = .ok changes t ∧ changes.any id = changed := by
  induction methods generalizing s changed with
  | nil => simp [runForEach, and_comm, eq_comm]
  | cons m rest ih =>
    rw [runForEach_eq_sweep] at ih ⊢
    simp only [sweep, bind_ok_iff, ofExcept_ok_iff, EStateM.run_pure, EStateM.Result.ok.injEq,
      mapM_cons_ok_iff]
    constructor
    · rintro ⟨_, u, hm, _, _, hrest, a, _, ⟨rfl, rfl⟩, c, _, ⟨rfl, rfl⟩, rfl, rfl⟩
      obtain ⟨changes, hchanges, rfl⟩ := ih.1 (attempt_ok_iff.1 hrest)
      exact ⟨_, ⟨a, changes, u, rfl, attempt_ok_iff.1 hm, hchanges⟩, rfl⟩
    · rintro ⟨_, ⟨a, changes, u, rfl, hm, hchanges⟩, rfl⟩
      exact ⟨_, u, attempt_ok_iff.2 hm, _, t, attempt_ok_iff.2 (ih.2 ⟨changes, hchanges, rfl⟩), a, t,
        ⟨rfl, rfl⟩, _, t, ⟨rfl, rfl⟩, rfl, rfl⟩

end Attempts

lemma Follows.runForEach {step : MethodRef → Run ρ Bool} {methods : List MethodRef}
    {Q : List Bool → Session ρ → Session ρ → Prop}
    (h : Follows (methods.mapM step) (methods.mapM step) s t Q) :
    Follows (runForEach step methods) (runForEach step methods) s t fun changed s' t' =>
      ∃ changes : List Bool, changes.any id = changed ∧ Q changes s' t' := by
  intro changed s' hrun
  obtain ⟨changes, hchanges, rfl⟩ := runForEach_ok_iff.1 hrun
  obtain ⟨t', hrun', hq⟩ := h changes s' hchanges
  exact ⟨t', runForEach_ok_iff.2 ⟨changes, hrun', rfl⟩, changes, rfl, hq⟩

lemma Faithful.runForEach {step : MethodRef → Run ρ Bool}
    (hstep : ∀ m, Faithful (Session.AlikeBy seen) (step m)) (methods : List MethodRef) :
    Faithful (Session.AlikeBy seen) (runForEach step methods) := by
  intro s t hst
  refine (Follows.runForEach (Faithful.mapM (fun m _ => hstep m) hst)).mono ?_
  rintro _ s' t' ⟨changes, rfl, h⟩
  exact h

/-! ## Passes -/

theorem checkStored_run {c : Context} (hc : c.Sound) (pass : String) (method : MethodRef) :
    (checkStored pass method).run c = .ok () c := by
  simp only [checkStored, EStateM.run_bind, EStateM.run_get]
  cases hf : c.functions.get? method with
  | none => rfl
  | some f =>
    dsimp only
    rw [(hc.get? hf).toWellFormed.verify]
    rfl

/-- A pass whose steps are faithful. -/
structure Pass.Faithful (seen : Function → Function) (p : Pass ρ) : Prop where
  prepare : p.prepare = pure ()
  conclude : p.conclude = pure ()
  applies : ∀ c d, c.AlikeBy seen d → p.applies c = p.applies d
  runOn : ∀ m, Optimize.Faithful (Session.AlikeBy seen) (p.runOn m)
  runGlobal : Optimize.Faithful (Session.AlikeBy seen) p.runGlobal

namespace Pass.Faithful

lemma runOnMethod {p : Pass ρ} (hp : p.Faithful seen) (method : MethodRef) :
    Optimize.Faithful (Session.AlikeBy seen) (p.runOnMethod method) := by
  intro s t hst
  have hcontains : s.context.functions.contains method = t.context.functions.contains method := by
    have := congrArg Option.isSome (hst.context.map_get? method)
    rwa [Option.isSome_map, Option.isSome_map] at this
  refine .get_bind ?_
  dsimp only
  rw [hp.applies _ _ hst.context, hcontains]
  split
  · exact Faithful.pure_false hst
  · refine (hp.runOn method hst).bind ?_
    rintro changed s1 t1 ⟨hst1, hsame⟩
    cases changed with
    | false => exact .pure ⟨hst1, hsame⟩
    | true =>
      have hchecked {u : Session ρ} (hu : u.context.Sound) (verify : Bool) (k : Run ρ Bool) :
          EStateM.run (if verify then do onContext (checkStored p.name method); k else k) u =
            k.run u := by
        split
        · have hcheck : (onContext (checkStored p.name method)).run u = .ok () u := by
            change Optimize.onContext _ u = _
            rw [onContext, show checkStored p.name method u.context = _ from checkStored_run hu _ _]
          rw [EStateM.run_bind, hcheck]
        · rfl
      simp only [Follows, Bool.not_true, Bool.false_eq_true, if_false, hchecked hst1.context.left,
        hchecked hst1.context.right]
      exact (Quiet.onContext (.markChanged method) hst1).bind fun _ s2 t2 h =>
        .pure ⟨h.1, Bool.noConfusion⟩

lemma recorded (p : Pass ρ) (hx : Optimize.Faithful (Session.AlikeBy seen) x) :
    Optimize.Faithful (Session.AlikeBy seen) (p.recorded x) := by
  intro s t hst
  refine (Quiet.onContext (.record _) hst).bind ?_
  rintro _ s1 t1 ⟨hst1, hss1⟩
  refine (hx hst1).bind ?_
  rintro changed s2 t2 ⟨hst2, hsame⟩
  refine (Quiet.onContext (.record _) hst2).bind ?_
  rintro _ s3 t3 ⟨hst3, hss3⟩
  exact .pure ⟨hst3, fun hfalse => (hss1.trans (hsame hfalse)).trans hss3⟩

variable {passes normalizers : List (Pass ρ)} (hpasses : ∀ p ∈ passes, p.Faithful seen)
include hpasses

lemma runOnce : Optimize.Faithful (Session.AlikeBy seen) (runOnce passes) := by
  have hquiet (step : Pass ρ → Run ρ Unit) (hstep : ∀ p ∈ passes, step p = pure ()) :
      passes.forM step = pure () := by
    clear hpasses
    induction passes with
    | nil => rfl
    | cons p rest ih =>
      change (step p >>= fun _ => rest.forM step) = pure ()
      rw [hstep p mem_cons_self, pure_bind]
      exact ih fun q hq => hstep q (mem_cons_of_mem p hq)
  intro s t hst
  rw [Optimize.runOnce, hquiet _ fun p hp => (hpasses p hp).prepare,
    hquiet _ fun p hp => (hpasses p hp).conclude]
  refine (Faithful.mapM (fun p hp => ?_) hst).bind ?_
  · exact recorded p (hpasses p (mem_of_mem_filter hp)).runGlobal
  rintro globals s1 t1 ⟨hst1, hsame1⟩
  refine .get_bind ?_
  rw [hst1.context.methods]
  refine (Faithful.mapM (fun p hp => ?_) hst1).bind ?_
  · exact recorded p (.runForEach (hpasses p (mem_of_mem_filter hp)).runOnMethod _)
  · rintro changes s2 t2 ⟨hst2, hsame2⟩
    refine .pure ⟨hst2, fun hfalse => ?_⟩
    rw [any_append, Bool.or_eq_false_iff] at hfalse
    exact (hsame1 hfalse.1).trans (hsame2 hfalse.2)

lemma runToFixpoint (limit : Nat) :
    Optimize.Faithful (Session.AlikeBy seen) (runToFixpoint passes limit) := by
  induction limit with
  | zero => exact Faithful.pure_false
  | succ limit ih =>
    refine Faithful.andThen (runOnce hpasses) (y := discard (Optimize.runToFixpoint passes limit))
      fun s t hst => ?_
    exact ((ih hst).bind fun _ s' t' h => .pure h.1)

lemma runPhaseLoop {tidy : Run ρ Unit} (htidy : ∀ ⦃s t⦄, s.AlikeBy seen t →
    Follows tidy tidy s t fun _ s' t' => s'.AlikeBy seen t') (limit : Nat) :
    Optimize.Faithful (Session.AlikeBy seen) (runPhaseLoop passes tidy limit) := by
  induction limit with
  | zero => exact Faithful.pure_false
  | succ limit ih =>
    have := Faithful.andThen (runOnce hpasses)
      (y := tidy >>= fun _ => discard (Optimize.runPhaseLoop passes tidy limit)) fun s t hst => ?_
    · simp only [bind_assoc] at this
      exact this
    · refine (htidy hst).bind fun _ s' t' hst' => ?_
      exact ((ih hst').bind fun _ s' t' h => .pure h.1)

lemma runPhase (hnormalizers : ∀ p ∈ normalizers, p.Faithful seen) (limit : Nat) :
    Optimize.Faithful (Session.AlikeBy seen) (runPhase passes normalizers limit) := by
  rw [Optimize.runPhase]
  split
  · exact Faithful.pure_false
  · refine runPhaseLoop hpasses (fun s t hst => ?_) limit
    split
    · exact .pure hst
    · exact (runToFixpoint hnormalizers limit hst).bind fun _ s' t' h => .pure h.1

end Pass.Faithful

end Dissolve.Optimize
