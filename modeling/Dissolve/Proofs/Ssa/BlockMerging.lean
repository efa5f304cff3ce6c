import Dissolve.Proofs.Ssa.Bypassing
import Dissolve.Proofs.Ssa.History

/-!
# Proofs.Ssa.BlockMerging — merging and bypassing until nothing changes

`Function.MergeStep` says once what block merging can do to a function: collapse a phi, join two blocks
or leave one out. Everything about a whole run is derived from that: every step keeps a function well
formed, keeps how a live block begins (`Function.Keeps`) and takes away as many blocks as it counts.

Two conditions make the edits of `mergeBlocks` such steps (`Function.Mergeable`): jumps define nothing,
and no handler leads to a block that only jumps. The edge of a handler cannot be sent elsewhere, so a
block with such an edge must stay.
-/

namespace Dissolve.Ssa

open List

variable {t : BlockId} {i jump : InsnId} {q : PhiId} {slot : Nat} {added : List BlockId}
  {front : List InsnId}

namespace Function

variable {f g : Function} {b c succ : BlockId} {n m : Nat}

/-! ## What one change does -/

/-- One change of block merging, with the number of blocks it takes away. -/
inductive MergeStep (f : Function) : Nat → Function → Prop
  | collapse {q : PhiId} {same : ValueId} (live : (f.phi q).removed = false)
      (trivial : (f.phi q).trivialOperand? = some same) : MergeStep f 0 (f.collapsePhi q same)
  | join {b succ : BlockId} {jump : InsnId} {front : List InsnId}
      (chained : f.Chained b succ jump front) : MergeStep f 1 (f.joined b succ jump)
  | bypass {b succ : BlockId} {jump : InsnId} {slot : Nat} {added : List BlockId} {g : Function}
      (trampoline : f.Trampoline b succ jump) (edge : (f.predecessors succ)[slot]? = some b)
      (bypassed : f.Bypassed b succ jump slot added g) : MergeStep f 1 g

/-- What every change leaves as it was: the handlers of a block, its first instruction unless that is a
jump, and operations up to what they read and where they go. -/
structure Keeps (f g : Function) : Prop where
  live : ∀ c, (g.block c).removed = false → (f.block c).removed = false
  handlers : ∀ c, (g.block c).removed = false → (g.block c).handlers = (f.block c).handlers
  begins : ∀ c i rest, (g.block c).removed = false → (f.block c).insns = i :: rest →
    (∀ t, (f.insn i).op ≠ .goto t) → ∃ rest', (g.block c).insns = i :: rest'
  dest : ∀ i, (g.insn i).removed = false → (g.insn i).dest = (f.insn i).dest
  op : ∀ i, (g.insn i).removed = false → ∃ swap turn,
    (g.insn i).op = ((f.insn i).op.mapOperands swap).mapTargets turn

lemma keeps_collapsePhi (hf : f.WellFormed) {same : ValueId}
    (htriv : (f.phi q).trivialOperand? = some same) : f.Keeps (f.collapsePhi q same) := by
  have hblock := hf.exact.block_collapsePhi (p := q) (hf.flow.same_lt htriv)
  have hinsn : ∀ i, (f.collapsePhi q same).insn i = _ := fun i => hf.exact.insn_collapsePhi i
  refine ⟨fun c hc => ?_, fun c _ => ?_, fun c i rest _ hlist _ => ⟨rest, ?_⟩, fun i _ => ?_,
    fun i _ => ⟨redirect (f.phi q).value same, id, ?_⟩⟩
  · simpa [hblock] using hc
  · rw [hblock]
  · rw [hblock, hlist]
  · rw [hinsn, redirectInsn]
  · rw [hinsn, redirectInsn, Op.mapTargets_id]

lemma Chained.keeps (h : f.Chained b succ jump front)
    (hf : f.WellFormed) : f.Keeps (f.joined b succ jump) := by
  have hstays : ∀ c, (f.joined b succ jump).LiveBlock c → c ≠ succ := by
    rintro c hc rfl
    rw [LiveBlock, block_joined_gone] at hc
    cases hc
  have hne : ∀ i, (f.joined b succ jump).LiveInsn i → i ≠ jump := by
    rintro i hi rfl
    rw [LiveInsn, h.removed_joined_jump hf] at hi
    cases hi
  refine ⟨fun c hc => ?_, fun c hc => ?_, fun c i rest hc hlist hop => ?_, fun i hi => ?_,
    fun i hi => ⟨id, id, ?_⟩⟩
  · rw [h.block_joined hf (hstays c hc)] at hc
    exact hc
  · rw [h.block_joined hf (hstays c hc)]
  · rw [h.block_joined hf (hstays c hc)]
    by_cases hcb : c = b
    · subst hcb
      rw [h.insns] at hlist
      cases front with
      | nil =>
        obtain ⟨rfl, -⟩ := cons.inj hlist
        exact absurd h.op (hop succ)
      | cons j front =>
        obtain ⟨rfl, -⟩ := cons.inj hlist
        exact ⟨front ++ (f.block succ).insns, by simp⟩
    · exact ⟨rest, by simp [hcb, hlist]⟩
  · rw [h.insn_joined hf (hne i hi)]
  · rw [h.insn_joined hf (hne i hi), Op.mapTargets_id, Op.mapOperands_id]

lemma Bypassed.keeps (hb : f.Bypassed b succ jump slot added g) : f.Keeps g := by
  have hstays : ∀ c, g.LiveBlock c → c ≠ b := by
    rintro c hc rfl
    rw [LiveBlock, hb.gone] at hc
    cases hc
  have hne : ∀ i, g.LiveInsn i → i ≠ jump := by
    rintro i hi rfl
    rw [LiveInsn, hb.jump_gone] at hi
    cases hi
  refine ⟨fun c hc => ?_, fun c hc => ?_, fun c i rest hc hlist _ => ⟨rest, ?_⟩, fun i hi => ?_,
    fun i hi => ⟨id, fun t => if t = b then succ else t, ?_⟩⟩
  · rw [hb.block c (hstays c hc)] at hc
    exact hc
  · rw [hb.block c (hstays c hc)]
  · rw [hb.block c (hstays c hc), hlist]
  · rw [hb.insn i (hne i hi)]
  · rw [hb.insn i (hne i hi), Op.mapOperands_id]
    rfl

namespace MergeStep

lemma wellFormed (h : f.MergeStep n g) (hf : f.WellFormed) : g.WellFormed := by
  cases h with
  | collapse live trivial => exact hf.collapsePhi live trivial
  | join chained => exact chained.wellFormed hf
  | bypass trampoline edge bypassed => exact bypassed.wellFormed trampoline hf edge

lemma keeps (h : f.MergeStep n g) (hf : f.WellFormed) : f.Keeps g := by
  cases h with
  | collapse live trivial => exact keeps_collapsePhi hf trivial
  | join chained => exact chained.keeps hf
  | bypass trampoline edge bypassed => exact bypassed.keeps

end MergeStep

lemma blockCount_of_gone (hb : f.LiveBlock b) (hgone : (g.block b).removed)
    (hother : ∀ c, c ≠ b → (g.block c).removed = (f.block c).removed) :
    g.blockCount + 1 = f.blockCount := by
  have hperm : (b :: g.blockIds).Perm f.blockIds := by
    refine (perm_ext_iff_of_nodup ?_ f.nodup_blockIds).2 fun c => ?_
    · refine nodup_cons.2 ⟨fun hmem => ?_, g.nodup_blockIds⟩
      rw [mem_blockIds, LiveBlock, hgone] at hmem
      cases hmem
    · rw [mem_cons, mem_blockIds, mem_blockIds]
      by_cases hc : c = b
      · simpa [hc] using hb
      · simp [hc, LiveBlock, hother c hc]
  exact hperm.length_eq

lemma MergeStep.blockCount (h : f.MergeStep n g) (hf : f.WellFormed) :
    g.blockCount + n = f.blockCount := by
  cases h with
  | @collapse q same live trivial =>
    have hids : (f.collapsePhi q same).blockIds = f.blockIds := by
      simp only [blockIds, size_blocks_collapsePhi,
        hf.exact.block_collapsePhi (hf.flow.same_lt trivial)]
    rw [Function.blockCount, hids]
    rfl
  | join chained =>
    refine blockCount_of_gone (chained.live_succ hf) (by rw [Chained.block_joined_gone]; rfl) fun c hc => ?_
    rw [chained.block_joined hf hc]
  | bypass trampoline edge bypassed =>
    refine blockCount_of_gone (trampoline.live_block hf) (by rw [bypassed.gone]; rfl) fun c hc => ?_
    rw [bypassed.block c hc]

/-! ## Reaching every block -/

/-- There is a way to every live block. -/
def Connected (f : Function) : Prop :=
  ∀ c, (f.block c).removed = false → ∃ t, f.Trail (c :: t)

lemma Chained.connected (h : f.Chained b succ jump front)
    (hf : f.WellFormed) (hreach : f.Connected) : (f.joined b succ jump).Connected := by
  -- where a way goes on to the second block, it has been in the first one
  have htrail : ∀ l, f.Trail l → ∀ c t, l = c :: t →
      ∃ t', (f.joined b succ jump).Trail (joinedHome b succ c :: t') := by
    intro l hl
    induction hl with
    | start =>
      rintro c t ⟨⟩
      rw [joinedHome_of_ne h.entry.symm]
      exact ⟨[], .start⟩
    | @step p c t walked edge ih =>
      rintro _ _ ⟨⟩
      obtain ⟨t', ht'⟩ := ih p t rfl
      by_cases hc : c = succ
      · subst hc
        obtain rfl := h.eq_of_edge edge
        rw [joinedHome_of_ne h.ne.symm] at ht'
        rw [joinedHome_succ]
        exact ⟨t', ht'⟩
      · rw [joinedHome_of_ne hc]
        refine ⟨_, .step ht' ?_⟩
        rw [h.predecessors_joined hf hc]
        exact mem_map_of_mem edge
  intro c hc
  have hne : c ≠ succ := by
    rintro rfl
    rw [Chained.block_joined_gone] at hc
    cases hc
  rw [h.block_joined hf hne] at hc
  obtain ⟨t, ht⟩ := hreach c hc
  obtain ⟨t', ht'⟩ := htrail _ ht c t rfl
  rw [joinedHome_of_ne hne] at ht'
  exact ⟨t', ht'⟩

lemma Bypassed.connected
    (hb : f.Bypassed b succ jump slot added g) (h : f.Trampoline b succ jump) (hf : f.WellFormed)
    (hslot : (f.predecessors succ)[slot]? = some b) (hreach : f.Connected) : g.Connected := by
  have hg := hb.wellFormed h hf hslot
  have hstays : ∀ p c, p ≠ b → c ≠ b → p ∈ f.predecessors c → p ∈ g.predecessors c := by
    intro p c hp hc hedge
    rw [← hf.mem_successors_iff, ← count_pos_iff] at hedge
    rw [← hg.mem_successors_iff, ← count_pos_iff, hb.count_successors h hf hp, if_neg hc]
    omega
  have hturned : ∀ p, p ≠ b → p ∈ f.predecessors b → p ∈ g.predecessors succ := by
    intro p hp hedge
    rw [← hf.mem_successors_iff, ← count_pos_iff, h.count_successors] at hedge
    rw [← hg.mem_successors_iff, ← count_pos_iff, hb.count_successors h hf hp, if_neg h.ne,
      if_pos rfl]
    omega
  -- a way to the block itself is kept up to its last edge
  have htrail : ∀ l, f.Trail l → ∀ c t, l = c :: t →
      ∃ p t', g.Trail (p :: t') ∧ (p = c ∨ c = b ∧ p ≠ b ∧ p ∈ f.predecessors b) := by
    intro l hl
    induction hl with
    | start =>
      rintro c t ⟨⟩
      exact ⟨_, [], .start, .inl rfl⟩
    | @step p c t walked edge ih =>
      rintro _ _ ⟨⟩
      obtain ⟨p', t', ht', hp'⟩ := ih p t rfl
      have hlive := hg.live_of_trail ht'
      have hp'b : p' ≠ b := by
        rintro rfl
        rw [LiveBlock, hb.gone] at hlive
        cases hlive
      rcases hp' with rfl | ⟨rfl, -, hpred⟩
      · by_cases hc : c = b
        · exact ⟨p', t', ht', .inr ⟨hc, hp'b, hc ▸ edge⟩⟩
        · exact ⟨c, _, .step ht' (hstays p' c hp'b hc edge), .inl rfl⟩
      · have hc : c = succ := by
          rw [← hf.mem_successors_iff, h.successors_eq, mem_singleton] at edge
          exact edge
        subst hc
        exact ⟨c, _, .step ht' (hturned p' hp'b hpred), .inl rfl⟩
  intro c hc
  have hne : c ≠ b := by
    rintro rfl
    rw [hb.gone] at hc
    cases hc
  rw [hb.block c hne] at hc
  obtain ⟨t, ht⟩ := hreach c hc
  obtain ⟨p, t', ht', rfl | ⟨rfl, -, -⟩⟩ := htrail _ ht c t rfl
  · exact ⟨t', ht'⟩
  · exact absurd rfl hne

lemma MergeStep.connected (h : f.MergeStep n g) (hf : f.WellFormed) (hreach : f.Connected) :
    g.Connected := by
  cases h with
  | @collapse q same live trivial =>
    have hblock := hf.exact.block_collapsePhi (p := q) (hf.flow.same_lt trivial)
    intro c hc
    rw [hblock] at hc
    obtain ⟨t, ht⟩ := hreach c hc
    exact ⟨t, ht.congr fun x => by rw [predecessors, predecessors, hblock]⟩
  | join chained => exact chained.connected hf hreach
  | bypass trampoline edge bypassed => exact bypassed.connected trampoline hf edge hreach

/-! ## What makes the changes possible -/

/-- A well-formed function whose jumps define nothing and in which no handler leads to a block that only
jumps. -/
structure Mergeable (f : Function) : Prop where
  wellFormed : f.WellFormed
  void : ∀ i target, (f.insn i).op = .goto target → (f.insn i).dest = none
  caught : ∀ p, ∀ handler ∈ (f.block p).handlers, ∀ jump target,
    (f.block handler.target).insns = [jump] → (f.insn jump).op ≠ .goto target

lemma goto_of_mapped {op : Op} {swap : ValueId → ValueId} {turn : BlockId → BlockId}
    (h : (op.mapOperands swap).mapTargets turn = .goto t) : ∃ t', op = .goto t' := by
  cases op <;> simp_all [Op.mapOperands, Op.mapTargets]

lemma Keeps.goto (h : f.Keeps g) (hg : g.Exact)
    (hop : (g.insn i).op = .goto t) : g.LiveInsn i ∧ ∃ t', (f.insn i).op = .goto t' := by
  have hlive := hg.live_of_op (i := i) (by simp [hop])
  obtain ⟨swap, turn, hmapped⟩ := h.op i hlive
  exact ⟨hlive, goto_of_mapped (hmapped.symm.trans hop)⟩

lemma Mergeable.step (hf : f.Mergeable) (h : f.MergeStep n g) : g.Mergeable := by
  have hg := h.wellFormed hf.wellFormed
  have hkeeps := h.keeps hf.wellFormed
  refine ⟨hg, fun i target hop => ?_, fun p handler hmem jump target hlist hop => ?_⟩
  · obtain ⟨hlive, t', hop'⟩ := hkeeps.goto hg.exact hop
    rw [hkeeps.dest i hlive]
    exact hf.void i t' hop'
  · -- the target is live, and begins as it did
    have hp : g.LiveBlock p := hg.orderly.live_of_handler hmem
    have htarget : g.LiveBlock handler.target := by
      refine hg.live_of_mem_successors (p := p) ?_
      exact mem_append_right _ (mem_map_of_mem hmem)
    rw [hkeeps.handlers p hp] at hmem
    obtain ⟨front, last, hlist', hlast, hfront⟩ := hf.wellFormed.terminated handler.target
      (hkeeps.live _ htarget)
    obtain ⟨i, rest, hfirst⟩ : ∃ i rest, (f.block handler.target).insns = i :: rest := by
      cases front with
      | nil => exact ⟨last, [], hlist'⟩
      | cons i front => exact ⟨i, front ++ [last], hlist'⟩
    have hplain : ∀ t, (f.insn i).op ≠ .goto t := by
      intro t hgoto
      -- a jump at the beginning is all there is
      cases front with
      | nil =>
        rw [hlist'] at hfirst
        obtain ⟨rfl, -⟩ := cons.inj hfirst
        exact hf.caught p handler hmem last t hlist' hgoto
      | cons j front =>
        rw [hlist'] at hfirst
        obtain ⟨rfl, -⟩ := cons.inj hfirst
        have hplain := hfront j mem_cons_self
        rw [hgoto] at hplain
        cases hplain
    obtain ⟨rest', hbegins⟩ := hkeeps.begins _ i rest htarget hfirst hplain
    rw [hlist] at hbegins
    obtain ⟨rfl, -⟩ := cons.inj hbegins
    obtain ⟨-, t', hgoto⟩ := hkeeps.goto hg.exact hop
    exact hplain t' hgoto

/-- Changes one after another, with the number of blocks they take away together. -/
inductive Merges : Function → Nat → Function → Prop
  | refl (f : Function) : Merges f 0 f
  | step {f g h : Function} {n m : Nat} (first : f.MergeStep n g) (rest : Merges g m h) :
      Merges f (n + m) h

namespace Merges

lemma single (h : f.MergeStep n g) : f.Merges n g := .step h (.refl g)

lemma trans {h : Function} (hfg : f.Merges n g) (hgh : g.Merges m h) : f.Merges (n + m) h := by
  induction hfg with
  | refl f => rwa [Nat.zero_add]
  | step first rest ih =>
    rw [Nat.add_assoc]
    exact .step first (ih hgh)

lemma mergeable (h : f.Merges n g) (hf : f.Mergeable) : g.Mergeable := by
  induction h with
  | refl f => exact hf
  | step first rest ih => exact ih (hf.step first)

lemma blockCount (h : f.Merges n g) (hf : f.WellFormed) : g.blockCount + n = f.blockCount := by
  induction h with
  | refl f => rfl
  | step first rest ih =>
    rw [← first.blockCount hf, ← ih (first.wellFormed hf)]
    omega

end Merges

/-! ## Phis with one operand -/

lemma Collapsed.merges (h : f.Collapsed g) : f.Merges 0 g := by
  induction h with
  | refl f => exact .refl f
  | step live trivial rest ih => exact .step (.collapse live trivial) ih

lemma Collapsed.frame (h : f.Collapsed g) (hf : f.WellFormed) :
    (∀ c, (g.block c).insns = (f.block c).insns ∧ (g.block c).preds = (f.block c).preds ∧
      (g.block c).handlers = (f.block c).handlers) ∧
    ∀ i t, (f.insn i).op = .goto t → (g.insn i).op = .goto t := by
  induction h with
  | refl f => exact ⟨fun c => ⟨rfl, rfl, rfl⟩, fun i t hop => hop⟩
  | @step f g q same live trivial rest ih =>
    obtain ⟨hblock, hop⟩ := ih (hf.collapsePhi live trivial)
    have hblock' := hf.exact.block_collapsePhi (p := q) (hf.flow.same_lt trivial)
    refine ⟨fun c => ?_, fun i t hgoto => hop i t ?_⟩
    · obtain ⟨hinsns, hpreds, hhandlers⟩ := hblock c
      rw [hblock'] at hinsns hpreds hhandlers
      exact ⟨hinsns, hpreds, hhandlers⟩
    · rw [hf.exact.insn_collapsePhi, redirectInsn, hgoto]
      rfl

lemma WellFormed.operands_ne_self (hf : f.WellFormed) (hq : f.LivePhi q) {t : List BlockId}
    (ht : f.Trail ((f.phi q).block :: t)) : (f.phi q).operands ≠ [(f.phi q).value] := by
  intro hself
  have harity := hf.flow.arity q hq not_false
  obtain ⟨t, ht, honce⟩ := ht.once
  generalize hb : (f.phi q).block = b at ht honce harity
  cases ht with
  | start =>
    rw [hf.flow.entry_preds, hself] at harity
    cases harity
  | @step p _ t walked edge =>
    rw [hself, length_singleton, eq_comm, length_eq_one_iff] at harity
    obtain ⟨p', hp'⟩ := harity
    have hedge : (f.predecessors (f.phi q).block)[0]? = some p := by
      rw [hp', mem_singleton] at edge
      rw [hb, hp', edge]
      rfl
    obtain ⟨c, hc, hdef⟩ := hf.flow.phi_avail q 0 _ p (by rw [hself]; rfl) hedge t walked
    rw [(hf.exact.isPhiOf_phi hq).definingBlock?, hb] at hdef
    obtain rfl := Option.some.inj hdef
    exact honce hc

lemma WellFormed.resolveSinglePhis_run (hf : f.WellFormed) (hpreds : f.predecessors succ = [b])
    {ps : List PhiId} (hnodup : ps.Nodup)
    (hps : ∀ q ∈ ps, (f.phi q).removed = false ∧ (f.phi q).block = succ) :
    ∃ done g, (resolveSinglePhis ps).run f = .ok done g ∧ f.Collapsed g ∧
      (done → (g.block succ).phis = (f.block succ).phis.filter (· ∉ ps)) ∧
      ((∃ t, f.Trail (succ :: t)) → done) := by
  induction ps generalizing f with
  | nil => exact ⟨true, f, rfl, .refl f, by simp, fun _ => rfl⟩
  | cons q ps ih =>
    obtain ⟨hq, hnodup⟩ := nodup_cons.1 hnodup
    obtain ⟨hlive, hblock⟩ := hps q mem_cons_self
    have harity := hf.flow.arity q hlive not_false
    rw [hblock, hpreds, length_singleton, length_eq_one_iff] at harity
    obtain ⟨operand, hops⟩ := harity
    rw [resolveSinglePhis, Edit.run_bind_ok (EStateM.run_get f)]
    simp only [hops]
    by_cases hself : operand = (f.phi q).value
    · rw [if_pos hself]
      refine ⟨false, f, rfl, .refl f, fun h => absurd h Bool.false_ne_true, ?_⟩
      rintro ⟨t, ht⟩
      exact absurd (by rw [hops, hself]) (hf.operands_ne_self hlive (hblock ▸ ht))
    · rw [if_neg hself]
      have htriv : (f.phi q).trivialOperand? = some operand := by
        rw [Phi.trivialOperand?_eq_some_iff, hops]
        exact ⟨hself, mem_singleton_self _, fun v hv => .inr (mem_singleton.1 hv)⟩
      have hlt := hf.flow.same_lt htriv
      have hg := hf.collapsePhi hlive htriv
      have hpreds' := funext fun c => hf.flow.preds_collapsePhi htriv c
      obtain ⟨done, g, hrun, hcollapsed, hdone, hreach⟩ := ih hg (by rw [hpreds', hpreds]) hnodup
        fun p hp => by
          rw [hf.exact.phi_collapsePhi hlive, if_neg (fun h : p = q => hq (h ▸ hp))]
          exact hps p (mem_cons_of_mem q hp)
      refine ⟨done, g, ?_, .step hlive htriv hcollapsed, fun h => ?_, fun ⟨t, ht⟩ => ?_⟩
      · have hreplace := hf.exact.replaceTrivial_run hlive (Ne.symm hself) hlt
        obtain ⟨u, f', hmodify, hremove⟩ := Edit.ok_of_bind hreplace
        rw [Edit.run_bind_ok hmodify, Edit.run_bind_ok hremove, hrun]
      · rw [hdone h, hf.exact.block_collapsePhi hlt, filter_filter]
        refine filter_congr fun p _ => ?_
        simp [Bool.and_comm]
      · exact hreach ⟨t, ht.congr fun c => congrFun hpreds' c⟩

/-! ## Joining -/

lemma terminator?_of_last {last : InsnId} (hlist : (f.block b).insns = front ++ [last])
    (hlast : (f.insn last).op.isTerminator) : f.terminator? b = some last := by
  simp [terminator?, hlist, Option.filter, hlast]

lemma jumpTarget?_eq_some (h : f.jumpTarget? b = some succ) :
    ∃ front jump, (f.block b).insns = front ++ [jump] ∧ (f.insn jump).op = .goto succ := by
  unfold jumpTarget? at h
  split at h
  · rename_i jump hterm
    split at h
    · rename_i target hop
      obtain rfl := Option.some.inj h
      rw [terminator?, Option.filter_eq_some_iff, getLast?_eq_some_iff] at hterm
      obtain ⟨⟨front, hlist⟩, -⟩ := hterm
      exact ⟨front, jump, hlist, hop⟩
    · cases h
  · cases h

lemma removeTerminator_run (hlist : (f.block b).insns = front ++ [jump])
    (hop : (f.insn jump).op = .goto succ) (hvoid : (f.insn jump).dest = none)
    (hlive : f.LiveInsn jump) : (removeTerminator b).run f = .ok true (f.withoutInsn jump) := by
  have hrun : (removeInsn jump).run f = .ok () (f.withoutInsn jump) := by
    unfold removeInsn
    rw [Edit.run_bind_ok (EStateM.run_get f)]
    simp only [hlive, hvoid, Bool.false_eq_true, if_false]
    rw [withoutInsn, hvoid]
    rfl
  rw [removeTerminator, Edit.run_bind_ok (EStateM.run_get f),
    terminator?_of_last hlist (by rw [hop]; rfl)]
  rw [Edit.run_bind_ok hrun]
  rfl

lemma Mergeable.tryMerge_run (hf : f.Mergeable) (b : BlockId) :
    ∃ merged g, (tryMerge b).run f = .ok merged g ∧ f.Merges merged.toNat g ∧
      (f.Connected → merged = false → g = f) := by
  have hstays : ∃ merged g, EStateM.Result.ok (ε := Error) false f = .ok merged g ∧
      f.Merges merged.toNat g ∧ (f.Connected → merged = false → g = f) :=
    ⟨false, f, rfl, .refl f, fun _ _ => rfl⟩
  rw [tryMerge, Edit.run_bind_ok (EStateM.run_get f)]
  cases htarget : f.jumpTarget? b with
  | none => exact hstays
  | some succ =>
    dsimp only
    by_cases hcan : f.canMerge b succ = true
    · rw [if_neg (by simp [hcan])]
      obtain ⟨front, jump, hlist, hop⟩ := jumpTarget?_eq_some htarget
      simp only [canMerge, Bool.and_eq_true, decide_eq_true_eq, List.isEmpty_iff] at hcan
      obtain ⟨⟨⟨⟨hne, hentry⟩, hpreds⟩, hcovered⟩, hcovered'⟩ := hcan
      obtain ⟨done, g, hrun, hcollapsed, hdone, hreach⟩ := hf.wellFormed.resolveSinglePhis_run hpreds
        (hf.wellFormed.flow.exact.phis_nodup succ) fun q hq =>
          (hf.wellFormed.flow.exact.phis_iff succ q).1 hq
      have hg := hcollapsed.merges.mergeable hf
      rw [Edit.run_bind_ok hrun]
      cases done with
      | false =>
        refine ⟨false, g, rfl, hcollapsed.merges, fun hconn _ => ?_⟩
        have hlive := hf.wellFormed.live_of_pred (b := succ) (p := b) (by simp [hpreds])
        exact absurd (hreach (hconn succ hlive)) Bool.false_ne_true
      | true =>
        obtain ⟨hblock, hgoto⟩ := hcollapsed.frame hf.wellFormed
        have hop' := hgoto jump succ hop
        have hchained : g.Chained b succ jump front := by
          refine ⟨by rw [(hblock b).1, hlist], hop', hg.void jump succ hop', hne, hentry, ?_, ?_,
            ?_, ?_⟩
          · rw [predecessors, (hblock succ).2.1]
            exact hpreds
          · rw [(hblock b).2.2, hcovered]
          · rw [(hblock succ).2.2, hcovered']
          · rw [hdone rfl, filter_eq_nil_iff]
            intro q hq
            simpa using hq
        have hlive := (hchained.live_jump hg.wellFormed).1
        have hphis : ((g.withoutInsn jump).block succ).phis = [] := by
          rw [hchained.block_withoutJump hg.wellFormed]
          exact hchained.phis
        refine ⟨true, g.joined b succ jump, ?_,
          hcollapsed.merges.trans (.single (.join hchained)), fun _ h => by cases h⟩
        rw [if_neg (by simp), Edit.run_bind_ok (removeTerminator_run hchained.insns hop'
          hchained.void hlive), if_neg (by simp), Edit.run_bind_ok (absorbBlock_run hphis)]
        rfl
    · rw [if_pos (by simpa using hcan)]
      exact hstays

/-! ## Leaving out -/

lemma removeBlock_run (hinsns : (f.block b).insns = []) (hphis : (f.block b).phis = [])
    (hpreds : (f.block b).preds = []) :
    (removeBlock b).run f = .ok () (f.modifyBlock b fun _ => .gone) := by
  rw [removeBlock, Edit.run_bind_ok (EStateM.run_get f)]
  simp only [hinsns, hphis, hpreds, isEmpty_nil, Bool.and_self, if_true]
  rfl

lemma WellFormed.reroute_eq_self (hf : f.WellFormed)
    (hi : (f.insn i).block ∉ f.predecessors b) : reroute b succ (f.insn i).op = (f.insn i).op := by
  apply reroute_of_not_mem
  intro hmem
  have hterm : (f.insn i).op.isTerminator := by
    by_contra hplain
    rw [targets_of_plain (by simpa using hplain)] at hmem
    cases hmem
  have hin := (hf.exact.insns_iff _ i).2 ⟨hf.exact.live_of_terminator hterm, rfl⟩
  obtain ⟨front, last, hlist, hlast, hfront⟩ := hf.terminated _ (hf.orderly.live_block_of_mem hin)
  rw [hlist] at hin
  rcases mem_append.1 hin with hin | hin
  · rw [hfront i hin] at hterm
    cases hterm
  · obtain rfl := mem_singleton.1 hin
    refine hi (hf.mem_successors_iff.1 ?_)
    rw [successors, normalSuccessors_of_last hlist hlast]
    exact mem_append_left _ hmem

section Cutting

variable {done : List BlockId} (h : Rerouting f b succ slot done added g) (hf : f.WellFormed)
  (ht : f.Trampoline b succ jump)

/-- The function without the edge from one block to another and without the edges to the first one. -/
def unlinked (g : Function) (b succ : BlockId) (slot : Nat) : Function :=
  (g.dropPredecessor succ slot).modifyBlock b fun block => { block with preds := [] }

/-- The function in which the edges to a block were sent elsewhere, without the block. -/
def cutOff (g : Function) (b succ : BlockId) (slot : Nat) (jump : InsnId) : Function :=
  ((g.unlinked b succ slot).withoutInsn jump).modifyBlock b fun _ => .gone

include h ht

lemma Rerouting.insn_jump : g.insn jump = f.insn jump := by
  have hstays : reroute b succ (f.insn jump).op = (f.insn jump).op := by
    rw [ht.op]
    exact reroute_of_not_mem fun hmem => ht.ne (mem_singleton.1 hmem).symm
  rw [h.insn, hstays]
  exact ite_self _

include hf

lemma Rerouting.unlinked : (g.unlinked b succ slot).Orderly ∧
    (∀ i, (g.unlinked b succ slot).insn i = g.insn i) ∧
    (∀ c, (g.unlinked b succ slot).block c = if c = b then { f.block b with preds := [] } else
      { f.block c with preds :=
        if c = succ then ((f.block c).preds ++ added).eraseIdx slot else (f.block c).preds }) ∧
    ∀ q, (g.unlinked b succ slot).phi q = if (f.phi q).block = succ then { f.phi q with
      operands := (repeated slot added.length (f.phi q).operands).eraseIdx slot } else f.phi q := by
  obtain ⟨hblock, hinsns, hphi⟩ := h.orderly.exact.dropPredecessor_spec succ slot
  have hb : (g.dropPredecessor succ slot).block b = f.block b := by
    rw [hblock, if_neg ht.ne.symm, h.block, if_neg ht.ne.symm]
  have hlive := ht.live_block hf
  refine ⟨?_, fun i => ?_, fun c => ?_, fun q => ?_⟩
  · exact (h.orderly.dropPredecessor succ slot).modifyBlock (fun _ => rfl) (fun _ => rfl)
      (fun _ => rfl) (.inl (by rw [LiveBlock, hb, hlive]))
  · rw [Function.unlinked, insn_modifyBlock, Function.insn, hinsns, ← Function.insn]
  · rw [Function.unlinked, block_modifyBlock]
    by_cases hc : b = c
    · subst hc
      have hlt := lt_blocks_of_live (f := g.dropPredecessor succ slot) (b := b) (by rw [LiveBlock, hb, hlive])
      rw [if_pos ⟨rfl, hlt⟩, if_pos rfl, hb]
    · rw [if_neg fun hand => hc hand.1, if_neg (Ne.symm hc), hblock, h.block]
      by_cases hcs : c = succ <;> simp [hcs]
  · rw [Function.unlinked, phi_modifyBlock, hphi, h.phi]
    by_cases hq : (f.phi q).block = succ <;> simp [hq]

lemma Rerouting.live_jump : (g.unlinked b succ slot).LiveInsn jump := by
  rw [LiveInsn, (h.unlinked hf ht).2.1, h.insn_jump ht]
  exact (ht.live_jump hf).1

lemma Rerouting.block_empty : ((g.unlinked b succ slot).withoutInsn jump).block b =
    { f.block b with insns := [], preds := [] } := by
  obtain ⟨horderly, -, hblock, -⟩ := h.unlinked hf ht
  rw [horderly.exact.block_withoutInsn (h.live_jump hf ht), hblock, if_pos rfl]
  simp [ht.insns]

lemma Rerouting.removeBlock_run : (removeBlock b).run ((g.unlinked b succ slot).withoutInsn jump) =
    .ok () (g.cutOff b succ slot jump) := by
  apply Function.removeBlock_run <;> rw [h.block_empty hf ht]
  exact ht.phis

lemma Rerouting.cut_run (hlt : slot < (f.predecessors succ).length) : (do
      removePredecessorAt succ slot
      modify fun f => f.modifyBlock b fun block => { block with preds := [] }
      if !(← removeTerminator b) then return false
      removeBlock b return true : Edit Bool).run g = .ok true (g.cutOff b succ slot jump) := by
  obtain ⟨-, hinsn, hblock, -⟩ := h.unlinked hf ht
  have hdrop : (removePredecessorAt succ slot).run g = .ok () (g.dropPredecessor succ slot) := by
    rw [removePredecessorAt, Edit.run_bind_ok (EStateM.run_get g), if_pos]
    · rfl
    · rw [predecessors, h.block, if_pos rfl, length_append]
      exact Nat.lt_add_right _ hlt
  have hremove : (removeTerminator b).run (g.unlinked b succ slot) =
      .ok true ((g.unlinked b succ slot).withoutInsn jump) := by
    have hlist : ((g.unlinked b succ slot).block b).insns = [] ++ [jump] := by
      rw [hblock, if_pos rfl]
      exact ht.insns
    have hop : ((g.unlinked b succ slot).insn jump).op = .goto succ := by
      rw [hinsn, h.insn_jump ht, ht.op]
    refine removeTerminator_run hlist hop ?_ (h.live_jump hf ht)
    rw [hinsn, h.insn_jump ht, ht.void]
  have hclear : (modify fun f => f.modifyBlock b fun block => { block with preds := [] } :
      Edit Unit).run (g.dropPredecessor succ slot) = .ok () (g.unlinked b succ slot) := rfl
  rw [Edit.run_bind_ok hdrop, Edit.run_bind_ok hclear, Edit.run_bind_ok hremove, if_neg (by simp), Edit.run_bind_ok (h.removeBlock_run hf ht)]
  rfl

lemma Rerouting.bypassed (hdone : ∀ p, p ∈ done ↔ p ∈ f.predecessors b) :
    f.Bypassed b succ jump slot added (g.cutOff b succ slot jump) := by
  obtain ⟨horderly, hinsn, hblock, hphi⟩ := h.unlinked hf ht
  have hlive := h.live_jump hf ht
  refine ⟨?_, fun i hi => ?_, ?_, ?_, fun c hc => ?_, fun q => ?_, fun p => ?_⟩
  · have hremoved := (horderly.withoutInsn hlive).removeBlock b
    rwa [Edit.after_ok (h.removeBlock_run hf ht)] at hremoved
  · rw [cutOff, insn_modifyBlock, insn_withoutInsn hi, hinsn, h.insn]
    split
    · rfl
    · rename_i hnot
      rw [hdone] at hnot
      rw [hf.reroute_eq_self hnot]
  · rw [cutOff, insn_modifyBlock, insn_withoutInsn_self hlive, hinsn, h.insn_jump ht]
  · have hlt : b.index < ((g.unlinked b succ slot).withoutInsn jump).blocks.size := by
      apply lt_blocks_of_live
      rw [LiveBlock, h.block_empty hf ht]
      exact ht.live_block hf
    rw [cutOff, block_modifyBlock, if_pos ⟨rfl, hlt⟩]
  · have hfilter := filter_eq_self.2 fun j hj => decide_eq_true (Bypassed.ne_jump ht hf hj hc)
    rw [cutOff, block_modifyBlock, if_neg fun hand => hc hand.1.symm,
      horderly.exact.block_withoutInsn hlive, hblock, if_neg hc]
    simp only [hfilter]
  · rw [cutOff, phi_modifyBlock, phi_withoutInsn, hphi]
  · rw [h.added]
    split
    · rfl
    · rename_i hnot
      rw [hdone, ← hf.mem_successors_iff, ← count_pos_iff, ht.count_successors] at hnot
      omega

end Cutting

lemma Mergeable.tryBypass_run (hf : f.Mergeable) (b : BlockId) :
    ∃ bypassed g, (tryBypass b).run f = .ok bypassed g ∧ f.Merges bypassed.toNat g ∧
      (bypassed = false → g = f) := by
  have hstays : ∃ bypassed g, EStateM.Result.ok (ε := Error) false f = .ok bypassed g ∧
      f.Merges bypassed.toNat g ∧ (bypassed = false → g = f) := ⟨false, f, rfl, .refl f, fun _ => rfl⟩
  have hwf := hf.wellFormed
  rw [tryBypass, Edit.run_bind_ok (EStateM.run_get f)]
  cases htarget : f.jumpTarget? b with
  | none => exact hstays
  | some succ =>
    dsimp only
    by_cases hcan : f.isTrampoline b succ = true
    · rw [if_neg (by simp [hcan])]
      obtain ⟨front, jump, hlist, hop⟩ := jumpTarget?_eq_some htarget
      simp only [isTrampoline, Bool.and_eq_true, decide_eq_true_eq, List.isEmpty_iff] at hcan
      obtain ⟨⟨⟨⟨⟨hne, hentry⟩, hlen⟩, hphis⟩, hcovered⟩, -⟩ := hcan
      have hsingle : (f.block b).insns = [jump] := by
        rw [hlist, length_append, length_singleton, Nat.add_eq_right, length_eq_zero_iff] at hlen
        rw [hlist, hlen, List.nil_append]
      have ht : f.Trampoline b succ jump := by
        refine ⟨hsingle, hop, hf.void jump succ hop, hne, hentry, hphis, hcovered, ?_⟩
        rintro p handler hmem rfl
        exact hf.caught p handler hmem jump succ hsingle hop
      cases hidx : (f.predecessors succ).idxOf? b with
      | none =>
        rw [idxOf?_eq_none_iff] at hidx
        exact absurd (ht.mem_predecessors hwf) hidx
      | some slot =>
        obtain ⟨hlt, heq, -⟩ := idxOf?_eq_some_iff.1 hidx
        have hslot := getElem?_eq_some_iff.2 ⟨hlt, heq⟩
        dsimp only
        by_cases hany : ((dropRepeats (f.predecessors b)).any fun p => b ∉ f.normalSuccessors p) = true
        · rw [if_pos hany]
          exact hstays
        · rw [if_neg hany]
          have hstart : Rerouting f b succ slot [] [] f := .start hwf
          have hpreds : ∀ p ∈ dropRepeats (f.predecessors b), f.LiveBlock p :=
            fun p hp => hwf.live_pred (mem_dropRepeats.1 hp)
          obtain ⟨added, hrerouting⟩ := hstart.run hwf hne (ht.live_succ hwf) hpreds
          generalize hg : (dropRepeats (f.predecessors b)).foldl _ f = g at hrerouting
          have hbypassed := hrerouting.bypassed hwf ht fun p => mem_dropRepeats
          refine ⟨true, g.cutOff b succ slot jump, ?_, .single (.bypass ht hslot hbypassed),
            fun h => by cases h⟩
          have hreroute : (modify fun k => (dropRepeats (f.predecessors b)).foldl
              (fun k pred => k.redirectEdges b succ slot pred) k : Edit Unit).run f = .ok () g :=
            congrArg (EStateM.Result.ok ()) hg
          rw [Edit.run_bind_ok hreroute]
          exact hrerouting.cut_run hwf ht hlt
    · rw [if_pos (by simpa using hcan)]
      exact hstays

/-! ## Going over all blocks -/

lemma Mergeable.mergeAt_run (hf : f.Mergeable) (stats : MergeStats) (b : BlockId) :
    ∃ n next g, (mergeAt stats b).run f = .ok next g ∧ f.Merges n g ∧ next.total = stats.total + n ∧
      (f.Connected → n = 0 → g = f) := by
  rw [mergeAt, Edit.run_bind_ok (EStateM.run_get f)]
  by_cases hgone : (f.block b).removed = true
  · rw [if_pos hgone]
    exact ⟨0, stats, f, rfl, .refl f, rfl, fun _ _ => rfl⟩
  · rw [if_neg hgone]
    obtain ⟨merged, g, hrun, hmerges, hsame⟩ := hf.tryMerge_run b
    rw [Edit.run_bind_ok hrun]
    cases merged with
    | true =>
      refine ⟨1, _, g, rfl, hmerges, ?_, fun _ h => by cases h⟩
      simp only [MergeStats.total]
      omega
    | false =>
      obtain ⟨bypassed, k, hrun', hmerges', hsame'⟩ := (hmerges.mergeable hf).tryBypass_run b
      rw [if_neg Bool.false_ne_true, Edit.run_bind_ok hrun']
      have hboth := hmerges.trans hmerges'
      cases bypassed with
      | true =>
        exact ⟨0 + 1, _, k, rfl, hboth, by simp only [MergeStats.total]; omega, fun _ h => by cases h⟩
      | false =>
        exact ⟨0 + 0, stats, k, rfl, hboth, rfl, fun hconn _ => (hsame' rfl).trans (hsame hconn rfl)⟩

lemma Mergeable.mergeRound_run (hf : f.Mergeable) (stats : MergeStats) (bs : List BlockId) :
    ∃ n next g, (bs.foldlM mergeAt stats).run f = .ok next g ∧ f.Merges n g ∧
      next.total = stats.total + n ∧ (f.Connected → n = 0 → g = f) := by
  induction bs generalizing f stats with
  | nil => exact ⟨0, stats, f, rfl, .refl f, rfl, fun _ _ => rfl⟩
  | cons b bs ih =>
    obtain ⟨n, next, g, hrun, hmerges, htotal, hsame⟩ := hf.mergeAt_run stats b
    obtain ⟨m, last, k, hrun', hmerges', htotal', hsame'⟩ := ih (hmerges.mergeable hf) next
    refine ⟨n + m, last, k, ?_, hmerges.trans hmerges', by omega, fun hconn hzero => ?_⟩
    · rw [foldlM_cons, Edit.run_bind_ok hrun, hrun']
    · obtain rfl := hsame hconn (by omega)
      exact hsame' hconn (by omega)

lemma Mergeable.mergeRounds_run (hf : f.Mergeable) (fuel : Nat) (stats : MergeStats) :
    ∃ n next g, (mergeRounds fuel stats).run f = .ok next g ∧ f.Merges n g ∧
      next.total = stats.total + n ∧ (f.Connected → n = 0 → g = f) := by
  induction fuel generalizing f stats with
  | zero => exact ⟨0, stats, f, rfl, .refl f, rfl, fun _ _ => rfl⟩
  | succ fuel ih =>
    obtain ⟨n, next, g, hrun, hmerges, htotal, hsame⟩ := hf.mergeRound_run stats f.blockIds
    rw [mergeRounds, Edit.run_bind_ok (EStateM.run_get f), Edit.run_bind_ok hrun]
    by_cases hzero : next.total = stats.total
    · rw [if_pos hzero]
      exact ⟨n, stats, g, rfl, hmerges, by omega, hsame⟩
    · rw [if_neg hzero]
      obtain ⟨m, last, k, hrun', hmerges', htotal', -⟩ := ih (hmerges.mergeable hf) next
      exact ⟨n + m, last, k, hrun', hmerges.trans hmerges', by omega, fun _ _ => by omega⟩

/-- Block merging never fails; the changes it makes take away as many blocks as it counts, and it
counts some unless it changes nothing. -/
lemma Mergeable.mergeBlocks_run (hf : f.Mergeable) : ∃ stats g, mergeBlocks.run f = .ok stats g ∧
    f.Merges stats.total g ∧ (f.Connected → stats.total = 0 → g = f) := by
  obtain ⟨n, stats, g, hrun, hmerges, htotal, hsame⟩ := hf.mergeRounds_run (f.blocks.size + 1) {}
  obtain rfl : stats.total = n := by simpa [MergeStats.total] using htotal
  exact ⟨stats, g, by rw [mergeBlocks, Edit.run_bind_ok (EStateM.run_get f), hrun], hmerges, hsame⟩

/-- Block merging of a verified function gives a verified function with as many blocks less as it
counts, if jumps define nothing and no handler leads to a block that only jumps. -/
theorem verify_mergeBlocks (horderly : f.Orderly) (hverify : verify f = .ok ())
    (hvoid : ∀ i target, (f.insn i).op = .goto target → (f.insn i).dest = none)
    (hcaught : ∀ p, ∀ handler ∈ (f.block p).handlers, ∀ jump target,
      (f.block handler.target).insns = [jump] → (f.insn jump).op ≠ .goto target) :
    ∃ stats g, mergeBlocks.run f = .ok stats g ∧ verify g = .ok () ∧
      g.blockCount + stats.total = f.blockCount := by
  have hf : f.Mergeable := ⟨horderly.wellFormed_of_verify hverify, hvoid, hcaught⟩
  obtain ⟨stats, g, hrun, hmerges, -⟩ := hf.mergeBlocks_run
  exact ⟨stats, g, hrun, (hmerges.mergeable hf).wellFormed.verify, hmerges.blockCount hf.wellFormed⟩

/-- A branch whose one side only jumps to the other, where a phi tells them apart; the call there is
covered by a handler, which goes on to a block of its own. -/
def detour : Function where
  method := default
  isStatic := true
  values := #[{ ty := .int, definition := some (.insn ⟨0⟩), users := [.insn ⟨1⟩, .phi ⟨0⟩] },
    { ty := .int, definition := some (.phi ⟨0⟩), users := [.insn ⟨4⟩, .insn ⟨7⟩] },
    { ty := .object, definition := some (.insn ⟨5⟩) }]
  insns := #[⟨.const (.int 0), some ⟨0⟩, ⟨0⟩, .lifted 0, false⟩,
    ⟨.branch .eq ⟨0⟩ none ⟨1⟩ ⟨2⟩, none, ⟨0⟩, .lifted 1, false⟩,
    ⟨.goto ⟨2⟩, none, ⟨1⟩, .lifted 2, false⟩,
    ⟨.invoke .static default [], none, ⟨2⟩, .lifted 3, false⟩,
    ⟨.ret (some ⟨1⟩), none, ⟨2⟩, .lifted 4, false⟩,
    ⟨.moveException none, some ⟨2⟩, ⟨3⟩, .lifted 5, false⟩,
    ⟨.goto ⟨4⟩, none, ⟨3⟩, .lifted 6, false⟩,
    ⟨.ret (some ⟨1⟩), none, ⟨4⟩, .lifted 7, false⟩]
  phis := #[⟨⟨1⟩, ⟨2⟩, [⟨0⟩, ⟨0⟩], false⟩]
  blocks := #[{ insns := [⟨0⟩, ⟨1⟩] },
    { insns := [⟨2⟩], preds := [⟨0⟩] },
    { phis := [⟨0⟩], insns := [⟨3⟩, ⟨4⟩], preds := [⟨0⟩, ⟨1⟩], handlers := [⟨none, ⟨3⟩⟩] },
    { insns := [⟨5⟩, ⟨6⟩], preds := [⟨2⟩] },
    { insns := [⟨7⟩], preds := [⟨3⟩] }]

lemma detour_orderly : detour.Orderly := by
  refine ⟨by decide, ?_⟩
  rintro ⟨b⟩ hgone
  by_cases hb : b < 5
  · interval_cases b <;> cases hgone
  · exact detour.block_of_size_le (Nat.le_of_not_lt hb)

theorem verify_mergeBlocks_detour : verify detour = .ok () ∧
    ∃ stats g, mergeBlocks.run detour = .ok stats g ∧ verify g = .ok () ∧
      g.blockCount + stats.total = detour.blockCount := by
  refine ⟨rfl, verify_mergeBlocks detour_orderly rfl ?_ ?_⟩
  · rintro ⟨i⟩ target hop
    by_cases hi : i < 8
    · interval_cases i <;> cases hop <;> rfl
    · rw [detour.insn_of_size_le (Nat.le_of_not_lt hi)] at hop
      cases hop
  · rintro ⟨p⟩ handler hmem jump target hlist
    by_cases hp : p < 5
    · interval_cases p <;> simp [detour, block] at hmem
      subst hmem
      cases hlist
    · rw [detour.block_of_size_le (Nat.le_of_not_lt hp)] at hmem
      cases hmem

end Function

end Dissolve.Ssa
