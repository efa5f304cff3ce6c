import Dissolve.Proofs.Semantics.Execution

/-!
# Proofs.Semantics.StackRun — running stack code

A running method is at an offset of its instruction stream and has a frame. What it does next is what
the instruction there asks for (`Machine.exec`); operations and choices are questions of the same form
as those of a function in SSA form, so the two can be observed together. No handler takes an
exception here.

`SlotsAgree` says that control comes to an instruction with the same kinds of slots on all ways. No
instruction looks into a value, so this is stated for runs in which all contents are the same.
`KindsAgree` asks less of the ways and also follows those that begin at a handler.
-/

namespace Dissolve

namespace Semantics

section Reaches

variable {ε α ρ σ : Type}

/-- Some run leads from one state to another. -/
inductive Reaches (next : σ → Move ε α ρ σ) (s : σ) : σ → Prop
  | refl : Reaches next s s
  | silent {t u : σ} (before : Reaches next s t) (now : next t = .silent u) : Reaches next s u
  | ask {t : σ} {question : ε} {resume : α → σ} (before : Reaches next s t)
      (now : next t = .ask question resume) (answer : α) : Reaches next s (resume answer)

end Reaches

end Semantics

namespace Machine

open Code (Instruction)
open Semantics (Answer Move Question Reaches)
open Ssa (Op)

inductive State (α : Type)
  | running (offset : Nat) (frame : Frame α)
  | ended (ending : Ending α)

section Run

variable {α : Type} (insns : List Instruction)

def goTo (label : Label) (frame : Frame α) : State α :=
  match insns.findIdx? fun insn => decide (insn = .label label) with
  | some offset => .running offset frame
  | none => .ended .stuck

/-- Takes way number `n` of a choice at an offset: one of the targets or, behind them, the next
instruction if the choice has no default. -/
def choose (offset : Nat) (targets : List Label) (default : Option Label) (n : Nat)
    (frame : Frame α) : State α :=
  match (targets ++ default.toList)[n]? with
  | some label => goTo insns label frame
  | none =>
    if default = none ∧ n = targets.length then .running (offset + 1) frame else .ended .stuck

def performed (offset : Nat) (resume : α → Frame α) : Answer α → State α
  | .value content => .running (offset + 1) (resume content)
  | .choice _ => .ended .stuck
  | .raise exception _ => .ended (.thrown exception)

def chosen (offset : Nat) (targets : List Label) (default : Option Label) (frame : Frame α) :
    Answer α → State α
  | .value _ => .ended .stuck
  | .choice n => choose insns offset targets default n frame
  | .raise exception _ => .ended (.thrown exception)

/-- What a method does next. -/
def next : State α → Move (Question α) (Answer α) (Ending α) (State α)
  | .ended ending => .halt ending
  | .running offset frame =>
    match insns[offset]? with
    | none => .halt .stuck
    | some insn =>
      match exec frame insn with
      | .silent frame => .silent (.running (offset + 1) frame)
      | .perform op args resume => .ask ⟨op, args⟩ (performed offset resume)
      | .jump target frame => .silent (goTo insns target frame)
      | .choose op args targets default frame =>
        .ask ⟨op, args⟩ (chosen insns offset targets default frame)
      | .finish ending => .halt ending

def start (cells : Nat → α) : State α :=
  .running 0 ⟨[], cells⟩

/-- Control comes to each instruction with the same kinds of slots on all ways. -/
def SlotsAgree : Prop :=
  ∀ (offset : Nat) (frame frame' : Frame Unit),
    Reaches (next insns) (start fun _ => ()) (.running offset frame) →
    Reaches (next insns) (start fun _ => ()) (.running offset frame') →
      frame.stack.map Prod.snd = frame'.stack.map Prod.snd

/-- Where the ways through a body begin: at its first instruction, and at its handlers, which are
entered with the exception alone on the stack. -/
inductive Origin (body : Code.Body) : State Unit → Prop
  | start : Origin body (start fun _ => ())
  | handler {entry : Code.HandlerEntry} (mem : entry ∈ body.handlers) :
      Origin body (goTo body.instructions entry.handler ⟨[((), .object)], fun _ => ()⟩)

/-- Some way through a body comes to a state. -/
def Comes (body : Code.Body) (state : State Unit) : Prop :=
  ∃ origin, Origin body origin ∧ Reaches (next body.instructions) origin state

/-- Ways that come to an instruction with equally many slots come with slots of the same kinds. -/
def KindsAgree (body : Code.Body) : Prop :=
  ∀ (offset : Nat) (frame frame' : Frame Unit), Comes body (.running offset frame) →
    Comes body (.running offset frame') → frame.stack.length = frame'.stack.length →
      frame.stack.map Prod.snd = frame'.stack.map Prod.snd

lemma SlotsAgree.kindsAgree {body : Code.Body} (h : SlotsAgree body.instructions)
    (hhandlers : body.handlers = []) : KindsAgree body := by
  have hstart : ∀ {state}, Comes body state →
      Reaches (next body.instructions) (start fun _ => ()) state := by
    rintro state ⟨origin, horigin, hreaches⟩
    cases horigin with
    | start => exact hreaches
    | handler mem => simp [hhandlers] at mem
  exact fun offset frame frame' hcomes hcomes' _ =>
    h offset frame frame' (hstart hcomes) (hstart hcomes')

variable {insns}

/-- The slots of a running method are of the kinds that a table gives for its offset. -/
def Kinded (kinds : Nat → List ValueType) : State Unit → Prop
  | .running offset frame => frame = ⟨(kinds offset).map fun kind => ((), kind), fun _ => ()⟩
  | .ended _ => True

/-- The kinds agree if some table of kinds fits the start and is kept by every step. -/
lemma slotsAgree_of_kinds {kinds : Nat → List ValueType} (hstart : kinds 0 = [])
    (hsilent : ∀ t u, Kinded kinds t → next insns t = .silent u → Kinded kinds u)
    (hask : ∀ t question resume, Kinded kinds t → next insns t = .ask question resume →
      ∀ answer, Kinded kinds (resume answer)) : SlotsAgree insns := by
  have hkinds : ∀ t, Reaches (next insns) (start fun _ => ()) t → Kinded kinds t := by
    intro t ht
    induction ht with
    | refl => simp [Kinded, start, hstart]
    | silent _ now ih => exact hsilent _ _ ih now
    | ask _ now answer ih => exact hask _ _ _ ih now answer
  intro offset frame frame' h h'
  have hframe : frame = frame' := (hkinds _ h).trans (hkinds _ h').symm
  rw [hframe]

end Run

/-! ## Instructions and what they ask for -/

section Exec

variable {α : Type} {frame : Frame α} {insn : Instruction}

lemma operation?_role {operation : Operation} (h : operation? insn = some operation) :
    operation.op.role = .ask := by
  cases insn <;> first
    | (cases h; rfl)
    | (obtain ⟨_, _, rfl⟩ := Option.map_eq_some_iff.1 h; rfl)
    | cases h

/-- What an instruction can ask for: control goes where its targets are, and a question is one of a
function in SSA form. -/
def Action.Fits (insn : Instruction) : Action α → Prop
  | .perform name _ _ => name.role = .ask
  | .jump target _ => insn = .goto target
  | .choose name _ targets default _ => insn.branchTargets = targets ++ default.toList ∧
      insn.fallsThrough = default.isNone ∧ name.role = .ask
  | _ => True

lemma withTop_fits {action : α → Frame α → Action α}
    (h : ∀ value frame, (action value frame).Fits insn) : (frame.withTop action).Fits insn := by
  unfold Frame.withTop
  split
  · exact h _ _
  · trivial

lemma steer_fits (frame : Frame α) (insn : Instruction) : (frame.steer insn).Fits insn := by
  unfold Frame.steer
  split
  · trivial
  · exact withTop_fits fun _ _ => trivial
  · rfl
  · rfl
  · exact withTop_fits fun _ _ => ⟨rfl, rfl, rfl⟩
  · exact withTop_fits fun _ _ => withTop_fits fun _ _ => ⟨rfl, rfl, rfl⟩
  · exact withTop_fits fun _ _ => ⟨rfl, rfl, rfl⟩
  · exact withTop_fits fun _ _ => ⟨rfl, rfl, rfl⟩
  · trivial
  · exact withTop_fits fun _ _ => trivial
  · exact withTop_fits fun _ _ => trivial
  · split <;> trivial

lemma exec_fits (frame : Frame α) (insn : Instruction) : (exec frame insn).Fits insn := by
  unfold exec
  split
  · next operation hop =>
      split
      · exact operation?_role hop
      · trivial
  · exact steer_fits frame insn

end Exec

end Machine

end Dissolve
