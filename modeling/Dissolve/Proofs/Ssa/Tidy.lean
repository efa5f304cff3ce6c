import Dissolve.Proofs.Ssa.History

/-!
# Proofs.Ssa.Tidy — cleaning up leaves nothing to clean up

After the trivial phis are gone (`TrivialIn`) the phis that are dropped are exactly the ones whose
values reach no instruction (`Needed`). Dropping them changes no phi that stays, so it makes no phi
trivial and takes no reader from a phi that is needed. Hence cleaning up a second time finds nothing.
-/

namespace Dissolve.Ssa.Function

open List

variable {f g : Function} {p q : PhiId} {dead : List PhiId}

/-- The value of a phi reaches an instruction through a chain of phis. -/
inductive Needed (f : Function) : PhiId → Prop
  | insn {p : PhiId} {i : InsnId} (read : f.Reads (f.phi p).value (.insn i)) : Needed f p
  | phi {p q : PhiId} (read : f.Reads (f.phi p).value (.phi q)) (rest : Needed f q) : Needed f p

lemma Exact.needed_of_operandPhis (h : f.Exact) (hp : p ∈ f.operandPhis q) (hq : f.Needed q) :
    f.Needed p := by
  obtain ⟨v, hv, hdef⟩ := mem_filterMap.1 hp
  split at hdef
  · rename_i r hr
    cases hdef
    refine .phi ?_ hq
    rw [((h.definition_iff v (.phi p)).1 hr).2]
    exact hv
  · cases hdef

lemma Exact.needed_of_gatherLive (h : f.Exact) (fuel : Nat) {work live : List PhiId}
    (hwork : ∀ q ∈ work, f.Needed q) (hlive : ∀ q ∈ live, f.Needed q)
    (hp : p ∈ f.gatherLive fuel work live) : f.Needed p := by
  induction fuel generalizing work live with
  | zero => exact hlive p hp
  | succ fuel ih =>
    cases work with
    | nil => exact hlive p hp
    | cons q work =>
      obtain ⟨hq, hwork⟩ := forall_mem_cons.1 hwork
      rw [gatherLive] at hp
      split at hp
      · exact ih hwork hlive hp
      · refine ih (forall_mem_append.2 ⟨fun r hr => ?_, hwork⟩) (forall_mem_cons.2 ⟨hq, hlive⟩) hp
        exact h.needed_of_operandPhis hr hq

lemma WellFormed.needed_of_not_dead (h : f.WellFormed) (hp : (f.phi p).removed = false)
    (hdead : p ∉ f.deadPhis) : f.Needed p := by
  have hlive : p ∈ f.livePhis := by
    by_contra hnot
    exact hdead (mem_filter.2 ⟨h.mem_phiIds.2 hp, by simpa using hnot⟩)
  refine h.exact.needed_of_gatherLive _ (fun q hq => ?_) (by simp) hlive
  obtain ⟨s, hs, hread⟩ := any_eq_true.1 (mem_filter.1 hq).2
  cases s with
  | insn i => exact .insn ((h.exact.users_iff _ _).1 hs)
  | phi r => cases hread

lemma Unneeded.not_mem (hdead : f.Unneeded dead) (hp : f.Needed p) : p ∉ dead := by
  induction hp with
  | insn read =>
    intro hmem
    obtain ⟨q, -, hq⟩ := hdead.readers _ hmem _ read
    cases hq
  | phi read _ ih =>
    intro hmem
    obtain ⟨q, hq, ⟨⟩⟩ := hdead.readers _ hmem _ read
    exact ih hq

lemma Drops.needed (h : f.Drops g dead) (hdead : f.Unneeded dead) (hp : f.Needed p) :
    g.Needed p := by
  have hkeep : ∀ {q}, f.Needed q → g.phi q = f.phi q := fun hq => by
    rw [h.phi, if_neg (hdead.not_mem hq)]
  induction hp with
  | @insn p i read =>
    have hr : g.Reads (f.phi p).value (.insn i) := by rwa [Reads, h.insn]
    exact .insn (hkeep (.insn read) ▸ hr)
  | phi read rest ih =>
    refine .phi ?_ ih
    rw [hkeep (.phi read rest), Reads, hkeep rest]
    exact read

lemma eliminateTrivial_of_trivialIn (hf : f.TrivialIn []) (fuel : Nat) (work : List PhiId)
    (removed : Nat) : (eliminateTrivial fuel work removed).run f = .ok removed f := by
  induction fuel generalizing work with
  | zero => rw [eliminateTrivial, EStateM.run_pure]
  | succ fuel ih =>
    cases work with
    | nil => simp [eliminateTrivial]
    | cons p work =>
      rw [eliminateTrivial, Edit.run_bind_ok (EStateM.run_get f)]
      split
      · rename_i same hlive htriv
        exact absurd (hf p hlive (by rw [htriv]; rfl)) not_mem_nil
      · exact ih work

lemma removeDeadPhis_of_nil (hf : f.deadPhis = []) : removeDeadPhis.run f = .ok 0 f := by
  rw [removeDeadPhis, Edit.run_bind_ok (EStateM.run_get f), hf]
  rfl

/-- Cleaning up a verified function succeeds and leaves a verified function. There no live phi merges a
single value, every live phi is needed, and cleaning up again changes nothing. -/
theorem cleanUpPhis_tidy (hf : f.Orderly) (hverified : verify f = .ok ()) :
    ∃ n g, cleanUpPhis.run f = .ok n g ∧ verify g = .ok () ∧
      (∀ p, (g.phi p).removed = false → (g.phi p).trivialOperand? = none ∧ g.Needed p) ∧
        cleanUpPhis.run g = .ok 0 g := by
  have hf := hf.wellFormed_of_verify hverified
  obtain ⟨m, k, hrun, hcollapsed, hsettled⟩ := hf.eliminateTrivialPhis_run
  have hk := hcollapsed.wellFormed hf
  have hdead := hk.deadPhis_unneeded
  obtain ⟨g, hrun', hdrops⟩ := hk.removeDeadPhis_run
  have hg := hdrops.wellFormed hk hdead
  -- a phi that is still there is the one it was before the dead ones were dropped
  have hkept : ∀ p, (g.phi p).removed = false → p ∉ k.deadPhis ∧ g.phi p = k.phi p := by
    intro p hp
    rw [hdrops.phi] at hp ⊢
    split at hp
    · cases hp
    · rename_i hmem
      exact ⟨hmem, if_neg hmem⟩
  have htrivial : g.TrivialIn [] := by
    intro p hp htriv
    obtain ⟨-, heq⟩ := hkept p hp
    rw [heq] at hp htriv
    exact hsettled p hp htriv
  have hneeded : ∀ p, (g.phi p).removed = false → g.Needed p := by
    intro p hp
    obtain ⟨hmem, heq⟩ := hkept p hp
    exact hdrops.needed hdead (hk.needed_of_not_dead (heq ▸ hp) hmem)
  have hnone : g.deadPhis = [] := eq_nil_iff_forall_not_mem.2 fun p hp =>
    hg.deadPhis_unneeded.not_mem (hneeded p (hg.deadPhis_unneeded.live p hp)) hp
  refine ⟨m + k.deadPhis.length, g, ?_, hg.verify, fun p hp => ⟨?_, hneeded p hp⟩, ?_⟩
  · rw [cleanUpPhis, Edit.run_bind_ok hrun, Edit.run_bind_ok hrun', EStateM.run_pure]
  · by_contra hsome
    exact absurd (htrivial p hp (Option.isSome_iff_ne_none.2 hsome)) not_mem_nil
  · have hidle : eliminateTrivialPhis.run g = .ok 0 g :=
      eliminateTrivial_of_trivialIn htrivial _ _ _
    rw [cleanUpPhis, Edit.run_bind_ok hidle, Edit.run_bind_ok (removeDeadPhis_of_nil hnone)]
    rfl

/-- A loop that counts down. A second phi of the loop only carries the start value around, and a third
one is read by nothing but itself and the block behind the loop, where no instruction reads it. -/
def burdened : Function :=
  Mutation.replay (Function.empty default true)
    [.addBlock, .addBlock, .addBlock, .appendValue ⟨0⟩ (.argument 0) .int (.lifted 0),
      .appendInsn ⟨0⟩ (.goto ⟨1⟩) none (.lifted 1), .addPredecessor ⟨1⟩ ⟨0⟩, .insertPhi ⟨1⟩ .int,
      .insertPhi ⟨1⟩ .int, .insertPhi ⟨1⟩ .int, .appendValue ⟨1⟩ (.neg .int ⟨1⟩) .int (.lifted 2),
      .appendInsn ⟨1⟩ (.branch .ne ⟨4⟩ none ⟨1⟩ ⟨2⟩) none (.lifted 3), .addPredecessor ⟨1⟩ ⟨1⟩,
      .setPhiOperands ⟨0⟩ [⟨0⟩, ⟨4⟩], .setPhiOperands ⟨1⟩ [⟨0⟩, ⟨2⟩], .setPhiOperands ⟨2⟩ [⟨0⟩, ⟨4⟩],
      .addPredecessor ⟨2⟩ ⟨1⟩, .insertPhi ⟨2⟩ .int, .setPhiOperands ⟨3⟩ [⟨3⟩],
      .appendInsn ⟨2⟩ (.ret (some ⟨2⟩)) none (.lifted 4)]

theorem burdened_tidy : ∃ g, cleanUpPhis.run burdened = .ok 3 g ∧ verify g = .ok () ∧
    (∀ p, (g.phi p).removed = false → (g.phi p).trivialOperand? = none ∧ g.Needed p) ∧
      cleanUpPhis.run g = .ok 0 g := by
  have horderly : burdened.Orderly := Mutation.orderly_replay (.empty _ _) (by decide)
  obtain ⟨n, g, hrun, hrest⟩ := cleanUpPhis_tidy horderly (by decide +kernel)
  have hanswer : cleanUpPhis.answer? burdened = some 3 := by decide +kernel
  obtain ⟨g', hrun'⟩ := Edit.ok_of_answer? hanswer
  rw [hrun] at hrun'
  cases hrun'
  exact ⟨g, hrun, hrest⟩

end Dissolve.Ssa.Function
