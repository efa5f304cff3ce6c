import Mathlib
import Dissolve.Optimize.Context

/-!
# Proofs.Optimize.Answers — what steps answer and what they leave

* `answer` and `after`: the outcome of a step, taken apart; a step that fails leaves a state too.
* `Yields`: a step gives an answer and leaves a state with a property. It is proved along the steps of
  a `do` block.
* `Setting`: the part of a context that answers depend on, with the body that each method has in it.
-/

namespace Dissolve.Optimize

/-! ## Steps -/

section Steps

variable {σ α β : Type}

def answer (x : EStateM Error σ α) (s : σ) : Except Error α :=
  match x.run s with
  | .ok a _ => .ok a
  | .error e _ => .error e

/-- The state that a step leaves, also when it fails. -/
def after (x : EStateM Error σ α) (s : σ) : σ :=
  match x.run s with
  | .ok _ s => s
  | .error _ s => s

/-- A step gives the answer `r` and leaves a state with the property `P`. -/
structure Yields (x : EStateM Error σ α) (s : σ) (r : Except Error α) (P : σ → Prop) : Prop where
  answer : answer x s = r
  after : P (after x s)

namespace Yields

variable {x : EStateM Error σ α} {k : α → EStateM Error σ β} {s s' : σ} {a : α} {e : Error}
  {P Q : σ → Prop} {r : Except Error α} {r' : Except Error β}

lemma run_ok (h : Yields x s (.ok a) P) : ∃ s', x.run s = .ok a s' ∧ P s' := by
  obtain ⟨hanswer, hafter⟩ := h
  unfold Optimize.answer at hanswer
  unfold Optimize.after at hafter
  cases hrun : x.run s with
  | ok b s' =>
    rw [hrun] at hanswer hafter
    obtain rfl := Except.ok.inj hanswer
    exact ⟨s', rfl, hafter⟩
  | error e s' =>
    rw [hrun] at hanswer
    cases hanswer

lemma run_error (h : Yields x s (.error e) P) : ∃ s', x.run s = .error e s' ∧ P s' := by
  obtain ⟨hanswer, hafter⟩ := h
  unfold Optimize.answer at hanswer
  unfold Optimize.after at hafter
  cases hrun : x.run s with
  | ok b s' =>
    rw [hrun] at hanswer
    cases hanswer
  | error e' s' =>
    rw [hrun] at hanswer hafter
    obtain rfl := Except.error.inj hanswer
    exact ⟨s', rfl, hafter⟩

lemma of_run_ok (hrun : x.run s = .ok a s') (hs : P s') : Yields x s (.ok a) P :=
  ⟨by rw [Optimize.answer, hrun], by rw [Optimize.after, hrun]; exact hs⟩

lemma of_run_error (hrun : x.run s = .error e s') (hs : P s') : Yields x s (.error e) P :=
  ⟨by rw [Optimize.answer, hrun], by rw [Optimize.after, hrun]; exact hs⟩

lemma pure (hs : P s) : Yields (Pure.pure a) s (.ok a) P :=
  of_run_ok rfl hs

lemma throw (hs : P s) : Yields (throw e : EStateM Error σ α) s (.error e) P :=
  of_run_error rfl hs

lemma modify {g : σ → σ} (hs : P (g s)) : Yields (modify g) s (.ok ()) P :=
  of_run_ok rfl hs

lemma ofExcept (hs : P s) : Yields (MonadExcept.ofExcept r : EStateM Error σ α) s r P := by
  cases r with
  | ok a => exact pure hs
  | error e => exact throw hs

lemma bind (hx : Yields x s (.ok a) Q) (hk : ∀ s', Q s' → Yields (k a) s' r' P) :
    Yields (x >>= k) s r' P := by
  obtain ⟨s', hrun, hs'⟩ := hx.run_ok
  have hbind : (x >>= k).run s = (k a).run s' := by rw [EStateM.run_bind, hrun]
  obtain ⟨hanswer, hafter⟩ := hk s' hs'
  exact ⟨by rw [← hanswer, Optimize.answer, Optimize.answer, hbind],
    by rw [Optimize.after, hbind]; exact hafter⟩

lemma bind_error (hx : Yields x s (.error e) P) : Yields (x >>= k) s (.error e) P := by
  obtain ⟨s', hrun, hs'⟩ := hx.run_error
  exact of_run_error (by rw [EStateM.run_bind, hrun]) hs'

lemma get_bind {k : σ → EStateM Error σ β} (h : Yields (k s) s r' P) : Yields (get >>= k) s r' P :=
  ⟨h.answer, h.after⟩

end Yields

end Steps

/-! ## What answers depend on -/

open Inline (ClassVerdict MethodSummary ReceiverUse receiverOf?)
open Ssa (Function)

variable {method : MethodRef}

/-- The part of a context that bodies and summaries depend on. -/
structure Setting where
  program : Program
  config : Config
  lenses : Lens.Chain
  currentLens : Option LensId

def Context.setting (c : Context) : Setting :=
  ⟨c.program, c.config, c.lenses, c.currentLens⟩

namespace Setting

def liftMethod (s : Setting) (method : MethodDef) : Except Error Function :=
  match method.code with
  | none => Lift.liftMethod method s.config.lift .identity
  | some body => do
      let view ← s.lenses.view body.lens s.currentLens
      Lift.liftMethod method s.config.lift view

def body (s : Setting) (method : MethodRef) : Except Error (Option Function) :=
  match s.program.methodDefinition? method with
  | none => .ok none
  | some definition =>
    if definition.code.isNone then .ok none else (s.liftMethod definition).map some

end Setting

lemma liftMethod_yields {c : Context} {P : Context → Prop} (hc : P c) (method : MethodDef) :
    Yields (liftMethod method) c (c.setting.liftMethod method) P := by
  refine .get_bind ?_
  unfold Setting.liftMethod
  cases method.code with
  | none => exact .ofExcept hc
  | some body =>
    dsimp only
    have hview : Yields (MonadExcept.ofExcept (c.view body.lens) : Work Lens.View) c
        (c.setting.lenses.view body.lens c.setting.currentLens) P := .ofExcept hc
    cases h : c.setting.lenses.view body.lens c.setting.currentLens with
    | error e =>
      rw [h] at hview
      exact hview.bind_error
    | ok view =>
      rw [h] at hview
      exact hview.bind fun c' hc' => .ofExcept hc'

lemma ref_of_definition {program : Program} {definition : MethodDef}
    (h : program.methodDefinition? method = some definition) : definition.ref = method := by
  rw [Program.methodDefinition?, Option.bind_eq_some_iff] at h
  obtain ⟨c, -, hc⟩ := h
  simpa using List.find?_some hc

lemma Setting.definition_of_body {S : Setting} {f : Function} (h : S.body method = .ok (some f)) :
    ∃ definition,
      S.program.methodDefinition? method = some definition ∧ definition.ref = method ∧
        definition.code.isSome ∧ S.liftMethod definition = .ok f := by
  unfold Setting.body at h
  cases hdef : S.program.methodDefinition? method with
  | none => simp [hdef] at h
  | some definition =>
    rw [hdef] at h
    refine ⟨definition, rfl, ref_of_definition hdef, ?_⟩
    dsimp only at h
    split at h
    · cases h
    · rename_i hcode
      cases hlift : S.liftMethod definition with
      | error e =>
        rw [hlift] at h
        cases h
      | ok g =>
        rw [hlift] at h
        cases h
        exact ⟨by simpa [Option.isNone_iff_eq_none, Option.isSome_iff_ne_none] using hcode, rfl⟩

end Dissolve.Optimize
