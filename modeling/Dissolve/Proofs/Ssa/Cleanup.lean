import Dissolve.Proofs.Ssa.WellFormed

/-!
# Proofs.Ssa.Cleanup — removing phis keeps a function well-formed

Cleaning up never fails on a well-formed function, and what it does is said by two relations:

* `Function.Collapsed`: trivial phis were replaced by the values they merge, one after another,
* `Function.Drops`: a set of phis that only phis of the set read was taken out.

Both keep a function well-formed. For the second the search for the phis that are needed has to be
complete, which `gatherLive` is because its fuel covers every phi with its operands.
-/

namespace Dissolve.Ssa

open List EStateM

variable {α β : Type} {f g : Function} {b : BlockId} {v : ValueId} {dead : List PhiId} {x : Edit α}
  {k : α → Edit β}

lemma Edit.run_bind_ok {a : α} (h : x.run f = .ok a g) : (x >>= k).run f = (k a).run g := by
  rw [run_bind, h]

lemma Edit.ok_of_bind {h : Function} {b : β} (hrun : (x >>= k).run f = .ok b h) :
    ∃ a g, x.run f = .ok a g ∧ (k a).run g = .ok b h := by
  cases hx : x.run f with
  | ok a g => exact ⟨a, g, rfl, by simpa [hx] using hrun⟩
  | error e g => simp [hx] at hrun

namespace Function

/-! ## Collapsing phis one after another -/

variable {q p : PhiId} {same : ValueId}

/-- Trivial phis were replaced by the values they merge. -/
inductive Collapsed : Function → Function → Prop
  | refl (f : Function) : Collapsed f f
  | step {f g : Function} {q : PhiId} {same : ValueId} (live : (f.phi q).removed = false)
      (trivial : (f.phi q).trivialOperand? = some same)
      (rest : Collapsed (f.collapsePhi q same) g) : Collapsed f g

lemma normalSuccessors_congr (hblock : (g.block b).insns = (f.block b).insns)
    (hterm : ∀ i, (g.insn i).op.isTerminator = (f.insn i).op.isTerminator)
    (htargets : ∀ i, (g.insn i).op.targets = (f.insn i).op.targets) :
    g.normalSuccessors b = f.normalSuccessors b := by
  unfold normalSuccessors terminator?
  simp only [hblock, hterm]
  cases (f.block b).insns.getLast?.filter fun i => (f.insn i).op.isTerminator with
  | none => rfl
  | some i => exact htargets i

lemma successors_congr (hblock : (g.block b).insns = (f.block b).insns)
    (hhandlers : (g.block b).handlers = (f.block b).handlers)
    (hterm : ∀ i, (g.insn i).op.isTerminator = (f.insn i).op.isTerminator)
    (htargets : ∀ i, (g.insn i).op.targets = (f.insn i).op.targets) :
    g.successors b = f.successors b := by
  rw [successors, successors, normalSuccessors_congr hblock hterm htargets, hhandlers]

lemma WellFormed.of_flow (h : f.WellFormed) (hflow : g.Flow fun _ => False)
    (hblock : ∀ b, (g.block b).insns = (f.block b).insns ∧ (g.block b).preds = (f.block b).preds ∧
      (g.block b).handlers = (f.block b).handlers ∧ (g.block b).removed = (f.block b).removed)
    (hphis : ∀ b, (f.block b).phis = [] → (g.block b).phis = [])
    (hterm : ∀ i, (g.insn i).op.isTerminator = (f.insn i).op.isTerminator)
    (htargets : ∀ i, (g.insn i).op.targets = (f.insn i).op.targets) : g.WellFormed := by
  refine ⟨hflow, ?_, ?_, ?_, ?_⟩
  · rw [(hblock _).2.2.2]
    exact h.entry_live
  · intro b hb
    obtain ⟨hinsns, hpreds, hhandlers, hremoved⟩ := hblock b
    have hgone := h.gone b (hremoved ▸ hb)
    have hnil := hphis b (by rw [hgone]; rfl)
    generalize g.block b = block at *
    cases block
    simp_all [Block.gone]
  · intro b hb
    rw [(hblock b).2.2.2] at hb
    obtain ⟨front, last, hinsns, hlast, hfront⟩ := h.terminated b hb
    refine ⟨front, last, (hblock b).1.trans hinsns, (hterm last).trans hlast, ?_⟩
    exact fun i hi => (hterm i).trans (hfront i hi)
  · intro b p
    rw [predecessors, (hblock b).2.1, successors_congr (hblock p).1 (hblock p).2.2.1 hterm htargets]
    exact h.edges b p

lemma WellFormed.collapsePhi (h : f.WellFormed) (hq : f.LivePhi q)
    (htriv : (f.phi q).trivialOperand? = some same) : (f.collapsePhi q same).WellFormed := by
  have hblock := h.exact.block_collapsePhi (p := q) (h.flow.same_lt htriv)
  refine h.of_flow (h.flow.collapsePhi hq not_false htriv) ?_ ?_ ?_ ?_
  · intro b
    simp [hblock]
  · intro b hb
    simp [hblock, hb]
  · intro i
    simp [h.exact.insn_collapsePhi, redirectInsn]
  · intro i
    simp [h.exact.insn_collapsePhi, redirectInsn]

lemma Collapsed.wellFormed (hc : Collapsed f g) (h : f.WellFormed) : g.WellFormed := by
  induction hc with
  | refl f => exact h
  | step live trivial _ ih => exact ih (h.collapsePhi live trivial)

/-! ## Looking for trivial phis -/

/-- Every live phi that merges a single value is on the list. -/
def TrivialIn (f : Function) (work : List PhiId) : Prop :=
  ∀ p, (f.phi p).removed = false → (f.phi p).trivialOperand?.isSome → p ∈ work

lemma Exact.mem_dependentPhis (h : f.Exact) :
    p ∈ f.dependentPhis v q ↔ f.Reads v (.phi p) ∧ p ≠ q := by
  rw [← h.users_iff, dependentPhis, mem_filterMap]
  constructor
  · rintro ⟨s | r, hs, hr⟩
    · cases hr
    · rw [Option.ite_none_right_eq_some] at hr
      exact ⟨Option.some.inj hr.2 ▸ hs, Option.some.inj hr.2 ▸ hr.1⟩
  · exact fun ⟨hs, hne⟩ => ⟨.phi p, hs, if_pos hne⟩

/-- Only the phis that read the value of a collapsed phi can become trivial. -/
lemma Exact.trivialIn_collapsePhi (h : f.Exact) {work : List PhiId} (hq : f.LivePhi q)
    (hwork : f.TrivialIn (q :: work)) :
    (f.collapsePhi q same).TrivialIn ((f.dependentPhis (f.phi q).value q).reverse ++ work) := by
  intro p hp htriv
  rw [h.phi_collapsePhi hq] at hp htriv
  split at hp
  · cases hp
  · rename_i hpq
    rw [if_neg hpq] at htriv
    by_cases hr : (f.phi q).value ∈ (f.phi p).operands
    · exact mem_append_left _ (mem_reverse.2 (h.mem_dependentPhis.2 ⟨hr, hpq⟩))
    · have hsame : ∀ w ∈ (f.phi p).operands, redirect (f.phi q).value same w = w := fun w hw =>
        redirect_of_ne fun hc => hr (hc ▸ hw)
      rw [redirectPhi, map_congr_left hsame, map_id'] at htriv
      exact mem_append_right _ ((mem_cons.1 (hwork p hp htriv)).resolve_left hpq)

section

variable (h : f.WellFormed)
include h

lemma WellFormed.length_phiIds_le : f.phiIds.length ≤ f.phis.size := by
  have hsub : f.phiIds ⊆ (range f.phis.size).map PhiId.mk := fun p hp =>
    mem_map.2 ⟨p.index, mem_range.2 (f.lt_phis_of_live (h.mem_phiIds.1 hp)), rfl⟩
  simpa using (subperm_of_subset h.nodup_phiIds hsub).length_le

lemma WellFormed.length_dependentPhis_le (v : ValueId) (q : PhiId) :
    (f.dependentPhis v q).length ≤ f.phis.size := by
  refine le_trans (List.Subperm.length_le (subperm_of_subset ?_ ?_)) h.length_phiIds_le
  · refine List.Nodup.filterMap ?_ (h.exact.users_nodup v)
    rintro (i | p) (j | r) k hk hk'
    all_goals simp at hk hk'
    exact congrArg Site.phi (hk.2.trans hk'.2.symm)
  · intro p hp
    exact h.mem_phiIds.2 (h.exact.live_of_reads_phi (h.exact.mem_dependentPhis.1 hp).1)

lemma WellFormed.length_phiIds_collapsePhi (hq : (f.phi q).removed = false)
    (htriv : (f.phi q).trivialOperand? = some same) :
    (f.collapsePhi q same).phiIds.length < f.phiIds.length := by
  have hg := h.collapsePhi hq htriv
  have hgone : q ∉ (f.collapsePhi q same).phiIds := by
    rw [hg.mem_phiIds, LivePhi, h.exact.phi_collapsePhi hq, if_pos rfl]
    exact Bool.noConfusion
  refine (subperm_of_subset (nodup_cons.2 ⟨hgone, hg.nodup_phiIds⟩) ?_).length_le
  rintro p (_ | ⟨_, hp⟩)
  · exact h.mem_phiIds.2 hq
  · have hp := hg.mem_phiIds.1 hp
    rw [LivePhi, h.exact.phi_collapsePhi hq] at hp
    split at hp
    · cases hp
    · exact h.mem_phiIds.2 hp

/-- Looking at trivial phis never fails, and if the list has all of them none is left. A removal puts
up to one look per phi on the list, and there are at most as many removals as live phis. -/
lemma WellFormed.eliminateTrivial_run (fuel : Nat) (work : List PhiId) (removed : Nat) :
    ∃ n g, (eliminateTrivial fuel work removed).run f = .ok n g ∧ Collapsed f g ∧
      (f.TrivialIn work → work.length + f.phiIds.length * f.phis.size < fuel → g.TrivialIn []) := by
  induction fuel generalizing f work removed with
  | zero => exact ⟨removed, f, by rw [eliminateTrivial, run_pure], .refl f, by simp⟩
  | succ fuel ih =>
    cases work with
    | nil => exact ⟨removed, f, by simp [eliminateTrivial], .refl f, fun hwork _ => hwork⟩
    | cons p work =>
      rw [eliminateTrivial, Edit.run_bind_ok (run_get f)]
      split
      · rename_i same hlive htriv
        obtain ⟨hne, -, -⟩ := Phi.trivialOperand?_eq_some_iff.1 htriv
        have hrun := h.exact.replaceTrivial_run hlive hne.symm (h.flow.same_lt htriv)
        rw [Edit.run_bind_ok hrun]
        obtain ⟨n, g, hg, hcollapsed, hdone⟩ := ih (h.collapsePhi hlive htriv)
          ((f.dependentPhis (f.phi p).value p).reverse ++ work) (removed + 1)
        refine ⟨n, g, hg, .step hlive htriv hcollapsed, fun hwork hfuel => ?_⟩
        refine hdone (h.exact.trivialIn_collapsePhi hlive hwork) ?_
        have hdeps := h.length_dependentPhis_le (f.phi p).value p
        have hfewer := Nat.mul_le_mul_right f.phis.size (h.length_phiIds_collapsePhi hlive htriv)
        rw [Nat.succ_mul] at hfewer
        simp only [length_cons, length_append, length_reverse, size_phis_collapsePhi] at hfuel ⊢
        omega
      · rename_i hkeep
        obtain ⟨n, g, hg, hcollapsed, hdone⟩ := ih h work removed
        refine ⟨n, g, hg, hcollapsed, fun hwork hfuel => hdone ?_ ?_⟩
        · intro q hq htriv
          refine (mem_cons.1 (hwork q hq htriv)).resolve_left ?_
          rintro rfl
          obtain ⟨same, hsame⟩ := Option.isSome_iff_exists.1 htriv
          exact hkeep same hq hsame
        · rw [length_cons] at hfuel
          omega

lemma WellFormed.eliminateTrivialPhis_run :
    ∃ n g, eliminateTrivialPhis.run f = .ok n g ∧ Collapsed f g ∧ g.TrivialIn [] := by
  obtain ⟨n, g, hrun, hcollapsed, hdone⟩ := h.eliminateTrivial_run
    (f.phiIds.length + f.phis.size * f.phis.size + 1) f.phiIds 0
  refine ⟨n, g, hrun, hcollapsed, hdone (fun p hp _ => h.mem_phiIds.2 hp) ?_⟩
  have hle := Nat.mul_le_mul_right f.phis.size h.length_phiIds_le
  omega

end

/-! ## The phis that are needed -/

/-- What the operands of the phis outside a list can still add to the work. -/
def outstanding (f : Function) (live : List PhiId) : Nat :=
  ∑ n ∈ Finset.range f.phis.size, if (⟨n⟩ : PhiId) ∈ live then 0 else (f.operandPhis ⟨n⟩).length

lemma outstanding_cons (f : Function) {live : List PhiId} (hp : p ∉ live) :
    f.outstanding (p :: live) + (f.operandPhis p).length = f.outstanding live := by
  by_cases hlt : f.HasPhi p
  · have hmem := Finset.mem_range.2 hlt
    rw [outstanding, outstanding, ← Finset.add_sum_erase _ _ hmem,
      ← Finset.add_sum_erase (a := p.index) _ _ hmem]
    have hrest : ∀ n ∈ (Finset.range f.phis.size).erase p.index,
        (if (⟨n⟩ : PhiId) ∈ p :: live then 0 else (f.operandPhis ⟨n⟩).length) =
          if (⟨n⟩ : PhiId) ∈ live then 0 else (f.operandPhis ⟨n⟩).length := by
      intro n hn
      have hne : (⟨n⟩ : PhiId) ≠ p := fun hc => (Finset.mem_erase.1 hn).1 (PhiId.eq_iff.1 hc)
      simp [hne]
    have hself : (⟨p.index⟩ : PhiId) = p := rfl
    rw [Finset.sum_congr rfl hrest, hself, if_pos mem_cons_self, if_neg hp]
    omega
  · have hnone : f.operandPhis p = [] := by
      simp [operandPhis, f.phi_of_size_le (Nat.le_of_not_lt hlt)]
    rw [hnone, outstanding, outstanding, length_nil, Nat.add_zero]
    refine Finset.sum_congr rfl fun n hn => ?_
    have hne : (⟨n⟩ : PhiId) ≠ p := by
      intro hc
      rw [Finset.mem_range] at hn
      exact hlt (hc ▸ hn)
    simp [hne]

lemma gatherLive_spec (f : Function) (fuel : Nat) :
    ∀ (work live : List PhiId), work.length + f.outstanding live < fuel →
      (∀ p ∈ live, ∀ q ∈ f.operandPhis p, q ∈ live ∨ q ∈ work) →
      (∀ p ∈ live, p ∈ f.gatherLive fuel work live) ∧
      (∀ p ∈ work, p ∈ f.gatherLive fuel work live) ∧
      ∀ p ∈ f.gatherLive fuel work live, ∀ q ∈ f.operandPhis p, q ∈ f.gatherLive fuel work live := by
  induction fuel with
  | zero => intro work live hfuel; omega
  | succ fuel ih =>
    intro work live hfuel hclosed
    cases work with
    | nil =>
      refine ⟨fun p hp => hp, by simp, ?_⟩
      exact fun p hp q hq => (hclosed p hp q hq).resolve_right not_mem_nil
    | cons p work =>
      rw [gatherLive]
      simp only [length_cons] at hfuel
      split
      · rename_i hp
        obtain ⟨hlive, hwork, hstep⟩ := ih work live (by omega) fun r hr q hq =>
          (hclosed r hr q hq).elim .inl fun hmem =>
            (mem_cons.1 hmem).elim (fun h => .inl (h ▸ hp)) .inr
        refine ⟨hlive, ?_, hstep⟩
        rintro r (_ | ⟨_, hr⟩)
        · exact hlive p hp
        · exact hwork r hr
      · rename_i hp
        have hsum := f.outstanding_cons hp
        obtain ⟨hlive, hwork, hstep⟩ := ih (f.operandPhis p ++ work) (p :: live)
          (by rw [length_append]; omega) fun r hr q hq => by
            rcases mem_cons.1 hr with rfl | hr
            · exact .inr (mem_append_left _ hq)
            · rcases hclosed r hr q hq with hq | hq
              · exact .inl (mem_cons_of_mem _ hq)
              · rcases mem_cons.1 hq with rfl | hq
                · exact .inl mem_cons_self
                · exact .inr (mem_append_right _ hq)
        refine ⟨fun r hr => hlive r (mem_cons_of_mem _ hr), ?_, hstep⟩
        rintro r (_ | ⟨_, hr⟩)
        · exact hlive p mem_cons_self
        · exact hwork r (mem_append_right _ hr)

lemma outstanding_le (f : Function) :
    f.outstanding [] ≤ (f.phis.toList.map fun p => p.operands.length).sum := by
  have hsum : (f.phis.toList.map fun p => p.operands.length).sum =
      ∑ n ∈ Finset.range f.phis.size, (f.phi ⟨n⟩).operands.length := by
    rw [Finset.sum_range]
    have hlist : (f.phis.toList.map fun p => p.operands.length) =
        ofFn fun n : Fin f.phis.size => (f.phi ⟨n⟩).operands.length := by
      refine ext_getElem (by simp) fun n hn hn' => ?_
      simp [phi]
    rw [hlist, sum_ofFn]
  rw [hsum, outstanding]
  refine Finset.sum_le_sum fun n _ => ?_
  simpa [operandPhis] using length_filterMap_le _ _

lemma livePhis_closed (f : Function) :
    (∀ p ∈ f.phiIds, f.isReadByInsn p → p ∈ f.livePhis) ∧
      ∀ p ∈ f.livePhis, ∀ q ∈ f.operandPhis p, q ∈ f.livePhis := by
  have hroots := length_filter_le f.isReadByInsn f.phiIds
  have hsum := f.outstanding_le
  obtain ⟨-, hwork, hstep⟩ := f.gatherLive_spec
    (1 + f.phiIds.length + (f.phis.toList.map fun p => p.operands.length).sum)
    (f.phiIds.filter f.isReadByInsn) [] (by omega) (by simp)
  exact ⟨fun p hp hr => hwork p (mem_filter.2 ⟨hp, hr⟩), hstep⟩

/-! ## Phis that are taken out -/

/-- The phis on a list were taken out, and nothing else changed. -/
structure Drops (f g : Function) (dead : List PhiId) : Prop where
  exact : g.Exact
  insns : g.insns = f.insns
  phi : ∀ q, g.phi q = if q ∈ dead then (f.phi q).gone else f.phi q
  block : ∀ b, g.block b = { f.block b with phis := (f.block b).phis.filter fun q => q ∉ dead }
  definition : ∀ v, (g.value v).definition =
    if ∃ p ∈ dead, (f.phi p).value = v then none else (f.value v).definition
  ty : ∀ v, (g.value v).ty = (f.value v).ty

lemma Drops.insn (h : f.Drops g dead) (i : InsnId) : g.insn i = f.insn i := by
  rw [Function.insn, Function.insn, h.insns]

/-- Phis that only phis of the same list read. -/
structure Unneeded (f : Function) (dead : List PhiId) : Prop where
  nodup : dead.Nodup
  live : ∀ p ∈ dead, (f.phi p).removed = false
  readers : ∀ p ∈ dead, ∀ s, f.Reads (f.phi p).value s → ∃ q ∈ dead, s = .phi q

lemma WellFormed.deadPhis_unneeded (h : f.WellFormed) : f.Unneeded f.deadPhis := by
  obtain ⟨hroots, hclosed⟩ := f.livePhis_closed
  refine ⟨h.nodup_phiIds.filter _, ?_, ?_⟩
  · intro p hp
    exact h.mem_phiIds.1 (mem_filter.1 hp).1
  · intro p hp s hr
    obtain ⟨hlive, hdead⟩ := mem_filter.1 hp
    simp only [decide_not, Bool.not_eq_true', decide_eq_false_iff_not] at hdead
    cases s with
    | insn i =>
      refine absurd (hroots p hlive ?_) hdead
      rw [isReadByInsn, any_eq_true]
      exact ⟨.insn i, (h.exact.users_iff _ _).2 hr, rfl⟩
    | phi q =>
      refine ⟨q, mem_filter.2 ⟨?_, ?_⟩, rfl⟩
      · exact h.mem_phiIds.2 (h.exact.live_of_reads_phi hr)
      · simp only [decide_not, Bool.not_eq_true', decide_eq_false_iff_not]
        intro hq
        refine hdead (hclosed q hq p ?_)
        have hdef := (h.exact.definition_iff (f.phi p).value (.phi p)).2 ⟨h.mem_phiIds.1 hlive, rfl⟩
        exact mem_filterMap.2 ⟨_, hr, by rw [hdef]⟩

def emptyPhis (f : Function) (dead : List PhiId) : Function :=
  dead.foldl (fun f p => f.setPhiOperands p []) f

lemma phi_emptyPhis (f : Function) (dead : List PhiId) (q : PhiId) :
    (f.emptyPhis dead).phi q = if q ∈ dead then { f.phi q with operands := [] } else f.phi q := by
  induction dead generalizing f with
  | nil => simp [emptyPhis]
  | cons p rest ih =>
    refine (ih (f.setPhiOperands p [])).trans ?_
    rw [phi_setPhiOperands]
    by_cases hpq : p = q
    · subst hpq
      by_cases hlt : f.HasPhi p
      · simp [hlt]
      · simp only [hlt, and_false, if_false, mem_cons, true_or, if_true,
          f.phi_of_size_le (Nat.le_of_not_lt hlt)]
        split <;> rfl
    · simp [hpq, Ne.symm hpq]

lemma emptyPhis_frame (f : Function) (dead : List PhiId) :
    (f.emptyPhis dead).insns = f.insns ∧
      (∀ b, (f.emptyPhis dead).block b = f.block b) ∧
      ∀ v, ((f.emptyPhis dead).value v).definition = (f.value v).definition ∧
        ((f.emptyPhis dead).value v).ty = (f.value v).ty := by
  induction dead generalizing f with
  | nil => simp [emptyPhis]
  | cons p rest ih =>
    obtain ⟨hinsns, hblock, hvalue⟩ := ih (f.setPhiOperands p [])
    refine ⟨hinsns.trans (by simp), fun b => (hblock b).trans (by simp), fun v => ?_⟩
    exact ⟨(hvalue v).1.trans (by simp), (hvalue v).2.trans (by simp)⟩

lemma Exact.emptyPhis (h : f.Exact) (dead : List PhiId) : (f.emptyPhis dead).Exact := by
  induction dead generalizing f with
  | nil => exact h
  | cons p rest ih => exact ih (h.setPhiOperands (by simp) (.inl rfl))

lemma Exact.removePhis_run (h : f.Exact) (hnodup : dead.Nodup)
    (hlive : ∀ p ∈ dead, (f.phi p).removed = false)
    (hunread : ∀ p ∈ dead, ∀ s, ¬f.Reads (f.phi p).value s) :
    ∃ g, (dead.forM removePhi).run f = .ok () g ∧ f.Drops g dead := by
  induction dead generalizing f with
  | nil =>
    refine ⟨f, by simp, h, rfl, by simp, ?_, by simp, fun _ => rfl⟩
    intro b
    simp
  | cons p rest ih =>
    obtain ⟨hp, hrest⟩ := nodup_cons.1 hnodup
    have hplive := hlive p mem_cons_self
    have hplt : f.HasPhi p := f.lt_phis_of_live hplive
    have hpu : ∀ s ∈ (f.value (f.phi p).value).users, s = .phi p := fun s hs =>
      absurd ((h.users_iff _ s).1 hs) (hunread p mem_cons_self s)
    have hphi : ∀ q, (f.withoutPhi p).phi q = if q = p then (f.phi q).gone else f.phi q := by
      intro q
      simp [phi_withoutPhi, hplt]
    have hsame : ∀ q ∈ rest, (f.withoutPhi p).phi q = f.phi q := by
      intro q hq
      have hqp : q ≠ p := fun hc => hp (hc ▸ hq)
      rw [hphi, if_neg hqp]
    obtain ⟨g, hrun, hdrops⟩ := ih (h.withoutPhi hplive hpu) hrest
      (fun q hq => by rw [hsame q hq]; exact hlive q (mem_cons_of_mem _ hq))
      (fun q hq s hr => by
        rw [hsame q hq] at hr
        refine hunread q (mem_cons_of_mem _ hq) s ?_
        cases s with
        | insn i => simpa [Reads] using hr
        | phi r =>
          rw [Reads, hphi] at hr
          split at hr
          · simp [Phi.gone] at hr
          · exact hr)
    refine ⟨g, ?_, hdrops.exact, ?_, ?_, ?_, ?_, ?_⟩
    · exact (Edit.run_bind_ok (removePhi_run hplive hpu)).trans hrun
    · rw [hdrops.insns, insns_withoutPhi]
    · intro q
      rw [hdrops.phi, hphi]
      by_cases hqp : q = p
      · subst hqp
        simp [hp]
      · simp [hqp]
    · intro b
      rw [hdrops.block, h.block_withoutPhi, filter_filter]
      simp only [mem_cons, not_or, ne_eq, decide_not, Bool.decide_and, Bool.and_comm]
    · intro v
      rw [hdrops.definition, h.definition_withoutPhi hplive]
      by_cases hv : ∃ q ∈ rest, (f.phi q).value = v
      · obtain ⟨q, hq, hqv⟩ := hv
        rw [if_pos ⟨q, hq, by rw [hsame q hq, hqv]⟩, if_pos ⟨q, mem_cons_of_mem _ hq, hqv⟩]
      · rw [if_neg]
        · by_cases hpv : (f.phi p).value = v
          · rw [if_pos hpv, if_pos ⟨p, mem_cons_self, hpv⟩]
          · rw [if_neg hpv, if_neg]
            rintro ⟨q, hq, hqv⟩
            rcases mem_cons.1 hq with rfl | hq
            · exact hpv hqv
            · exact hv ⟨q, hq, hqv⟩
        · rintro ⟨q, hq, hqv⟩
          exact hv ⟨q, hq, by rw [← hsame q hq, hqv]⟩
    · intro v
      rw [hdrops.ty, Exact.ty_withoutPhi]

lemma WellFormed.removeDeadPhis_run (h : f.WellFormed) :
    ∃ g, removeDeadPhis.run f = .ok f.deadPhis.length g ∧ f.Drops g f.deadPhis := by
  have hdead := h.deadPhis_unneeded
  have hphi := f.phi_emptyPhis f.deadPhis
  obtain ⟨hinsns, hblock, hvalue⟩ := f.emptyPhis_frame f.deadPhis
  have hvalue_eq : ∀ q, ((f.emptyPhis f.deadPhis).phi q).value = (f.phi q).value := by
    intro q
    rw [hphi]
    split <;> rfl
  obtain ⟨g, hrun, hdrops⟩ := (h.exact.emptyPhis f.deadPhis).removePhis_run hdead.nodup
    (fun p hp => by rw [hphi, if_pos hp]; exact hdead.live p hp)
    (fun p hp s hr => by
      rw [hvalue_eq] at hr
      cases s with
      | insn i =>
        have hr' : f.Reads (f.phi p).value (.insn i) := by
          simpa [Reads, Function.insn, hinsns] using hr
        obtain ⟨q, -, hq⟩ := hdead.readers p hp _ hr'
        simp at hq
      | phi q =>
        rw [Reads, hphi] at hr
        split at hr
        · simp at hr
        · rename_i hq
          obtain ⟨r, hr', hrq⟩ := hdead.readers p hp (.phi q) hr
          exact hq (Site.phi.inj hrq ▸ hr'))
  refine ⟨g, ?_, hdrops.exact, ?_, ?_, ?_, ?_, ?_⟩
  · rw [removeDeadPhis, Edit.run_bind_ok (run_get f),
      Edit.run_bind_ok (run_modify _ f)]
    exact Edit.run_bind_ok hrun
  · rw [hdrops.insns, hinsns]
  · intro q
    rw [hdrops.phi, hphi]
    by_cases hq : q ∈ f.deadPhis
    · simp [hq, Phi.gone]
    · simp [hq]
  · intro b
    rw [hdrops.block, hblock]
  · intro v
    simp only [hdrops.definition, hvalue_eq, (hvalue v).1]
  · intro v
    rw [hdrops.ty, (hvalue v).2]

namespace Drops

section

variable (h : f.Drops g dead)
include h

lemma value_kept (hdead : f.Unneeded dead)
    {s : Site} (hr : g.Reads v s) : ¬∃ p ∈ dead, (f.phi p).value = v := by
  rintro ⟨p, hp, rfl⟩
  cases s with
  | insn i =>
    have hr' : f.Reads (f.phi p).value (.insn i) := by simpa [Reads, h.insn] using hr
    obtain ⟨q, -, hq⟩ := hdead.readers p hp _ hr'
    simp at hq
  | phi q =>
    rw [Reads, h.phi] at hr
    split at hr
    · simp [Phi.gone] at hr
    · rename_i hq
      obtain ⟨r, hr', hrq⟩ := hdead.readers p hp (.phi q) hr
      exact hq (Site.phi.inj hrq ▸ hr')

lemma preds_eq (b : BlockId) : g.predecessors b = f.predecessors b := by
  rw [predecessors, h.block]
  rfl

lemma siteBlock_eq (s : Site) : g.siteBlock s = f.siteBlock s := by
  cases s with
  | insn i => rw [siteBlock, siteBlock, h.insn]
  | phi p =>
    rw [siteBlock, siteBlock, h.phi]
    split <;> rfl

section

variable (hv : ¬∃ p ∈ dead, (f.phi p).value = v)
include hv

lemma definition_kept : (g.value v).definition = (f.value v).definition := by
  rw [h.definition, if_neg hv]

lemma definingBlock?_kept : g.definingBlock? v = f.definingBlock? v := by
  rw [definingBlock?_eq, definingBlock?_eq, h.definition_kept hv]
  exact congrArg (Option.map · _) (funext h.siteBlock_eq)

lemma availEnd (hav : f.AvailEnd v b) : g.AvailEnd v b := by
  intro t ht
  rw [h.definingBlock?_kept hv]
  exact hav t (ht.congr fun b => (h.preds_eq b).symm)

lemma availStart (hav : f.AvailStart v b) : g.AvailStart v b := by
  intro t ht
  rw [h.definingBlock?_kept hv]
  refine (hav t (ht.congr fun b => (h.preds_eq b).symm)).imp_right ?_
  rintro ⟨p, hp, hb⟩
  exact ⟨p, (h.definition_kept hv).trans hp, (h.siteBlock_eq (.phi p)).trans hb⟩

end

lemma flow (hf : f.Flow fun _ => False) (hdead : f.Unneeded dead) : g.Flow fun _ => False := by
  refine ⟨h.exact, ?_, fun _ hc => hc.elim, ?_, ?_, ?_, ?_⟩
  · exact (h.preds_eq _).trans hf.entry_preds
  · intro q hq hnot
    rw [h.phi] at hq ⊢
    rw [h.preds_eq]
    split at hq
    · simp [Phi.gone] at hq
    · rename_i hmem
      rw [if_neg hmem]
      exact hf.arity q hq hnot
  · intro q j v p hv hp
    have hkept := h.value_kept hdead (s := .phi q) (mem_of_getElem? hv)
    rw [h.phi] at hv hp
    rw [h.preds_eq] at hp
    split at hv
    · simp [Phi.gone] at hv
    · rename_i hmem
      rw [if_neg hmem] at hp
      exact h.availEnd hkept (hf.phi_avail q j v p hv hp)
  · intro b before i after hlist v hv
    have hkept := h.value_kept hdead (s := .insn i) hv
    rw [h.insn] at hv
    rw [h.block] at hlist
    rcases hf.insn_avail b before i after hlist v hv with ⟨j, hj, hd⟩ | hstart
    · exact .inl ⟨j, hj, by rw [h.insn, hd]⟩
    · exact .inr (h.availStart hkept hstart)
  · intro v s hr
    rw [h.definition_kept (h.value_kept hdead hr)]
    cases s with
    | insn i => exact hf.defined v (.insn i) (by simpa [Reads, h.insn] using hr)
    | phi q =>
      rw [Reads, h.phi] at hr
      split at hr
      · simp [Phi.gone] at hr
      · exact hf.defined v (.phi q) hr

lemma wellFormed (hf : f.WellFormed) (hdead : f.Unneeded dead) : g.WellFormed := by
  refine hf.of_flow (h.flow hf.flow hdead) ?_ ?_ ?_ ?_
  · intro b
    simp [h.block]
  · intro b hb
    simp [h.block, hb]
  · intro i
    rw [h.insn]
  · intro i
    rw [h.insn]

end

end Drops

lemma WellFormed.cleanUpPhis_run (h : f.WellFormed) :
    ∃ n g k, cleanUpPhis.run f = .ok n k ∧ Collapsed f g ∧ g.Drops k g.deadPhis ∧ k.WellFormed := by
  obtain ⟨m, g, hrun, hcollapsed, -⟩ := h.eliminateTrivialPhis_run
  have hg := hcollapsed.wellFormed h
  obtain ⟨k, hrun', hdrops⟩ := hg.removeDeadPhis_run
  refine ⟨m + g.deadPhis.length, g, k, ?_, hcollapsed, hdrops, ?_⟩
  · rw [cleanUpPhis, Edit.run_bind_ok hrun, Edit.run_bind_ok hrun', run_pure]
  · exact hdrops.wellFormed hg hg.deadPhis_unneeded

end Function

end Dissolve.Ssa
