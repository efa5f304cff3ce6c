import Dissolve.Proofs.Semantics.Cleanup
import Dissolve.Proofs.Ssa.Tidy

/-!
# Proofs.Semantics.Operands — what instructions are given does not change

Two functions are run step by step with the same answers (`stateAt`). Before and after trivial or dead
phis are taken out they come by the same instructions, and each instruction is given the same contents
(`cleanUp_keeps_operands`).
-/

namespace Dissolve.Semantics

open List
open Machine (Ending)
open Ssa (Function Op)
open Ssa.Function

section System

variable {ε α ρ σ τ : Type} {rel : σ → τ → Prop} {s : σ} {t : τ}

/-- The state behind a move; a system that has halted stays where it is. -/
def Move.after (s : σ) (answer : α) : Move ε α ρ σ → σ
  | .silent s' => s'
  | .ask _ resume => resume answer
  | .halt _ => s

/-- The state after a number of steps. `answers n` answers what is asked in step `n`. -/
def stateAt (next : σ → Move ε α ρ σ) (answers : Nat → α) (s : σ) : Nat → σ
  | 0 => s
  | n + 1 => (next (stateAt next answers s n)).after (stateAt next answers s n) (answers n)

lemma Move.Matches.after {move : Move ε α ρ σ} {move' : Move ε α ρ τ} (h : move.Matches rel move')
    (hst : rel s t) (answer : α) : rel (move.after s answer) (move'.after t answer) := by
  cases h with
  | silent related => exact related
  | ask related => exact related answer
  | halt _ => exact hst

lemma stateAt_related {next : σ → Move ε α ρ σ} {next' : τ → Move ε α ρ τ}
    (h : ∀ s t, rel s t → (next s).Matches rel (next' t)) (hst : rel s t) (answers : Nat → α)
    (n : Nat) : rel (stateAt next answers s n) (stateAt next' answers t n) := by
  induction n with
  | zero => exact hst
  | succ n ih => exact (h _ _ ih).after ih (answers n)

end System

variable {D : Type} {f g : Function} {params : List D}

/-- The instruction that is about to run with the contents of its operands, or how the run ended. -/
def State.facing (f : Function) : State D → Option (InsnId × List D ⊕ Ending D)
  | .running _ [] _ => none
  | .running _ (i :: _) env => some (.inl (i, (f.insn i).op.operands.map env))
  | .ended ending => some (.inr ending)

/-- Two functions have the same instructions in the same blocks with the same edges, up to phis and
the names of operands, and in every run each instruction is given the same contents by both. -/
structure KeepsOperands (f g : Function) : Prop where
  block : ∀ b, { g.block b with phis := [] } = { f.block b with phis := [] }
  insn : ∀ i, { g.insn i with op := (g.insn i).op.mapOperands fun _ => default } =
    { f.insn i with op := (f.insn i).op.mapOperands fun _ => default }
  successors : ∀ b, g.successors b = f.successors b
  facing : ∀ (D : Type) (params : List D) (env : ValueId → D) (answers : Nat → Answer D) (n : Nat),
    (stateAt (next g params) answers (start g env) n).facing g =
      (stateAt (next f params) answers (start f env) n).facing f

lemma Retells.facing {value : ValueId → ValueId}
    {Q : BlockId → List InsnId → (ValueId → D) → (ValueId → D) → Prop} (h : Retells f g value Q)
    (hf : f.WellFormed) {env env' : ValueId → D} (hQ : Q f.entry [] env env')
    (answers : Nat → Answer D) (n : Nat) :
    (stateAt (next g params) answers (start g env') n).facing g =
      (stateAt (next f params) answers (start f env) n).facing f := by
  have hlock := h.lockstep hf
  have hstep : InStep f id id _ (stateAt (next f params) answers (start f env) n)
      (stateAt (next g params) answers (start g env') n) :=
    stateAt_related (fun _ _ => hlock.step) (h.start_inStep hQ) answers n
  generalize stateAt (next f params) answers (start f env) n = s at hstep
  generalize stateAt (next g params) answers (start g env') n = t at hstep
  cases hstep with
  | ended ending => rfl
  | @running b before rest env env' here contents =>
    cases rest with
    | nil => rfl
    | cons i rest =>
      have hargs := (hlock.doubles contents here).args
      rw [id] at hargs
      rw [map_id, State.facing, State.facing, hargs]

lemma keepsOperands_collapsed (hc : Collapsed f g) (h : f.WellFormed) : KeepsOperands f g := by
  induction hc with
  | refl f => exact ⟨fun _ => rfl, fun _ => rfl, fun _ => rfl, fun _ _ _ _ _ => rfl⟩
  | @step f g q same hq htriv _ ih =>
    have hlater := ih (h.collapsePhi hq htriv)
    refine ⟨fun b => (hlater.block b).trans ?_, fun i => (hlater.insn i).trans ?_,
      fun b => (hlater.successors b).trans ?_,
      fun D params env answers n => (hlater.facing D params env answers n).trans ?_⟩
    · rw [h.exact.block_collapsePhi (h.flow.same_lt htriv)]
    · rw [h.exact.insn_collapsePhi, redirectInsn, Op.mapOperands_mapOperands]
      rfl
    · exact (retells_collapsePhi (D := Unit) h hq htriv).successors b
    · exact (retells_collapsePhi h hq htriv).facing h
        ⟨fun _ _ => rfl, copied_at_entry h hq htriv env⟩ answers n

lemma keepsOperands_drops {dead : List PhiId} (hdrops : f.Drops g dead) (h : f.WellFormed)
    (hdead : f.Unneeded dead) : KeepsOperands f g := by
  refine ⟨fun b => ?_, fun i => ?_, (retells_drops (D := Unit) hdrops h hdead).successors,
    fun D params env answers n => ?_⟩
  · rw [hdrops.block]
  · rw [hdrops.insn]
  · exact (retells_drops hdrops h hdead).facing h (fun _ _ => rfl) answers n

/-- Taking out trivial phis and taking out dead phis both succeed on a verified function and leave a
verified one. Its instructions and edges are those of the function, and in every run each instruction
is given the same contents before and after. -/
theorem cleanUp_keeps_operands (hf : f.Orderly) (hverified : Ssa.verify f = .ok ()) :
    ∀ pass ∈ [Ssa.eliminateTrivialPhis, Ssa.removeDeadPhis], ∃ n g, pass.run f = .ok n g ∧
      g.Orderly ∧ Ssa.verify g = .ok () ∧ KeepsOperands f g := by
  have hf := hf.wellFormed_of_verify hverified
  rw [forall_mem_cons, forall_mem_singleton]
  constructor
  · obtain ⟨n, g, hrun, hcollapsed, -⟩ := hf.eliminateTrivialPhis_run
    have hg := hcollapsed.wellFormed hf
    exact ⟨n, g, hrun, hg.orderly, hg.verify, keepsOperands_collapsed hcollapsed hf⟩
  · obtain ⟨g, hrun, hdrops⟩ := hf.removeDeadPhis_run
    have hdead := hf.deadPhis_unneeded
    have hg := hdrops.wellFormed hf hdead
    exact ⟨_, g, hrun, hg.orderly, hg.verify, keepsOperands_drops hdrops hf hdead⟩

/-- The phi that only carries the start value around the loop goes, and its reader behind the loop is
given the start value itself. -/
theorem burdened_keeps_operands : ∃ g, Ssa.eliminateTrivialPhis.run burdened = .ok 2 g ∧
    Ssa.verify g = .ok () ∧ KeepsOperands burdened g := by
  have horderly : burdened.Orderly := Ssa.Mutation.orderly_replay (.empty _ _) (by decide)
  obtain ⟨n, g, hrun, -, hrest⟩ :=
    cleanUp_keeps_operands horderly (by decide +kernel) Ssa.eliminateTrivialPhis (by simp)
  have hanswer : Ssa.eliminateTrivialPhis.answer? burdened = some 2 := by decide +kernel
  obtain ⟨g', hrun'⟩ := Ssa.Edit.ok_of_answer? hanswer
  obtain ⟨rfl, -⟩ := EStateM.Result.ok.inj (hrun.symm.trans hrun')
  exact ⟨g, hrun, hrest⟩

end Dissolve.Semantics
