import Dissolve.Proofs.Inline.Formed
import Dissolve.Proofs.Ssa.Regular

/-!
# Proofs.Inline.Regularity — replacing a call keeps a function regular

A body that is spliced in stands in front of the call and leaves the shape of the caller alone. A body
that is expanded brings new blocks: they have no handlers, their terminators define nothing because
those of the callee do not, and they are reached through the call. What follows the call is reached
through a return, or it is removed.

Main statement: `regular_inlineCall`.
-/

namespace Dissolve

open List

namespace Ssa.Function

variable {f g : Function}

lemma BeginsCaught.before {b : BlockId} {before after : List InsnId} {call : InsnId}
    (hb : f.BeginsCaught b) (hlist : (f.block b).insns = before ++ call :: after)
    (hcall : ∀ guard, (f.insn call).op ≠ .moveException guard) :
    ∃ i rest guard, before = i :: rest ∧ (f.insn i).op = .moveException guard := by
  obtain ⟨i, rest, guard, hbegin, hop⟩ := hb
  cases before with
  | nil =>
    rw [hlist, nil_append] at hbegin
    obtain ⟨rfl, -⟩ := cons.inj hbegin
    exact absurd hop (hcall guard)
  | cons j before =>
    rw [hlist, cons_append] at hbegin
    obtain ⟨rfl, -⟩ := cons.inj hbegin
    exact ⟨j, before, guard, rfl, hop⟩

lemma Trimmed.connected (h : f.Trimmed g) (hf : f.WellFormed) : g.Connected := by
  have htrail : ∀ l, f.Trail l → g.Trail l := by
    intro l hl
    induction hl with
    | start => exact .start
    | @step p b t walked edge ih =>
      refine .step ih ?_
      have hp := hf.reached_of_mem_trail walked mem_cons_self
      rw [h.predecessors (hf.reached_of_edge hp edge)]
      exact mem_filter.2 ⟨edge, hp⟩
  intro b hb
  obtain ⟨t, ht⟩ := hf.reached_iff.1 (h.reached_of_live hb)
  exact ⟨t, htrail _ ht⟩

lemma Trimmed.persists (h : f.Trimmed g) (hsize : g.insns.size = f.insns.size) : f.Persists g := by
  refine ⟨hsize.ge, fun i _ hlive => ?_⟩
  rw [h.insn] at hlive ⊢
  split at hlive
  · rename_i hreached
    rw [if_pos hreached]
    exact ⟨hlive, rfl, id, (Op.mapOperands_id _).symm⟩
  · cases hlive

lemma Trimmed.regular (h : f.Trimmed g) (hf : f.WellFormed) (hg : g.WellFormed)
    (hvoid : ∀ i, (f.insn i).op.isTerminator → (f.insn i).dest = none)
    (hcaught : ∀ b, ∀ handler ∈ (f.block b).handlers, f.BeginsCaught handler.target) :
    g.Regular := by
  refine ⟨hg, fun i hterm => ?_, fun b handler hmem => ?_, h.connected hf⟩
  · rw [h.insn] at hterm ⊢
    split
    · rename_i hreached
      rw [if_pos hreached] at hterm
      exact hvoid i hterm
    · rfl
  · have hreached : f.reached b := by
      by_contra hnot
      rw [h.gone b (by simpa using hnot)] at hmem
      cases hmem
    rw [h.block b hreached] at hmem
    have hedge := hf.mem_successors_iff.1 (mem_append_right _ (mem_map_of_mem hmem))
    have hreached' := hf.reached_of_edge hreached hedge
    obtain ⟨i, rest, guard, hbegin, hop⟩ := hcaught b handler hmem
    have hi := ((hf.exact.insns_iff handler.target i).1 (by simp [hbegin])).2
    refine ⟨i, rest, guard, by rw [h.block _ hreached', hbegin], ?_⟩
    rw [h.insn, hi, if_pos hreached', hop]

end Ssa.Function

namespace Inline

open Ssa (Edit Function Op)
open Ssa.Function
open Semantics

lemma transcribed_void {callee g : Function} {value : ValueId → ValueId}
    {block : BlockId → BlockId} {exit : Option ValueId → List InsnId → Prop} {is js : List InsnId}
    (hcopy : Transcribed callee g value block exit is js)
    (hvoid : ∀ i, (callee.insn i).op.isTerminator → (callee.insn i).dest = none)
    (hexit : ∀ returned js, exit returned js → ∀ j ∈ js, (g.insn j).dest = none) {j : InsnId}
    (hj : j ∈ js) (hterm : (g.insn j).op.isTerminator) : (g.insn j).dest = none := by
  induction hcopy with
  | nil => cases hj
  | param _ _ ih => exact ih hj
  | copy op dest _ _ _ ih =>
    rcases mem_cons.1 hj with rfl | hj
    · rw [op, Op.isTerminator_mapTargets, Op.isTerminator_mapOperands] at hterm
      rw [dest, hvoid _ hterm]
      rfl
    · exact ih hj
  | leave _ exits => exact hexit _ _ exits j hj

/-! ## An expanded body -/

namespace Opened

variable {f callee g : Function} {call jump : InsnId} {before after : List InsnId} {r : Renaming}
  {returns : List (BlockId × Option ValueId)} {merge : List PhiId} {size : Nat} {b c : BlockId}
  {i : InsnId} {t : List BlockId}
  (he : Opened f callee call before after r jump returns merge size g)

include he

lemma mem_cases (hlive : g.LiveInsn i) :
    f.LiveInsn i ∨ i = jump ∨
      ∃ c, callee.LiveBlock c ∧ i ∈ (g.block (r.block c)).insns := by
  have hmem := (he.orderly.exact.insns_iff _ i).2 ⟨hlive, rfl⟩
  have hold : ∀ b, i ∈ (f.block b).insns → f.LiveInsn i := fun b hi =>
    ((he.caller.exact.insns_iff b i).1 hi).1
  have hb := he.orderly.live_block_of_mem hmem
  generalize (g.insn i).block = b at hmem hb
  rcases he.cases_target hb with hb | rfl | ⟨c, hc, rfl⟩
  · rw [he.block b (f.lt_blocks_of_live hb)] at hmem
    by_cases hbc : b = (f.insn call).block
    · simp only [if_pos hbc] at hmem
      rcases mem_append.1 hmem with hi | hi
      · exact .inl (hold _ (by rw [he.home]; exact mem_append_left _ hi))
      · rcases mem_cons.1 hi with rfl | hi
        · exact .inl (hold _ (by rw [he.home]; simp))
        · exact .inr (.inl (mem_singleton.1 hi))
    · simp only [if_neg hbc] at hmem
      exact .inl (hold b hmem)
  · rw [he.tail] at hmem
    exact .inl (hold _ (by rw [he.home]; exact mem_append_right _ (mem_cons_of_mem _ hmem)))
  · exact .inr (.inr ⟨c, hc, hmem⟩)

lemma persists : f.Persists g := by
  refine ⟨he.insns_le, fun i hi hlive => ?_⟩
  obtain ⟨hop, hdest⟩ := he.insn i hi
  refine ⟨?_, hdest, id, by rw [hop, Op.mapOperands_id]⟩
  rcases he.mem_cases hlive with hold | rfl | ⟨c, hc, hmem⟩
  · exact hold
  · exact absurd he.jumps.1 (Nat.not_le.2 hi)
  · exact absurd ((he.copy c hc).fresh i hmem).1 (Nat.not_le.2 hi)

lemma void (hf : f.Regular)
    (hvoid : ∀ i, (callee.insn i).op.isTerminator → (callee.insn i).dest = none)
    (hterm : (g.insn i).op.isTerminator) : (g.insn i).dest = none := by
  rcases he.mem_cases (he.orderly.exact.live_of_terminator hterm) with hold | rfl | ⟨c, hc, hmem⟩
  · obtain ⟨hop, hdest⟩ := he.insn i (f.lt_insns_of_live hold)
    rw [hop] at hterm
    rw [hdest, hf.void i hterm]
  · exact he.jump_void
  · refine transcribed_void (he.copy c hc).insns hvoid ?_ hmem hterm
    rintro returned _ ⟨j, rfl, -, -, -, hdest⟩ k hk
    rwa [mem_singleton.1 hk]

lemma caught (hf : f.Regular)
    (hcall : ∀ guard, (f.insn call).op ≠ .moveException guard) {handler : Ssa.Handler}
    (hmem : handler ∈ (g.block b).handlers) : g.BeginsCaught handler.target := by
  rcases he.cases_target (he.orderly.live_of_handler hmem) with hb | rfl | ⟨c, hc, rfl⟩
  · rw [he.block b (f.lt_blocks_of_live hb)] at hmem
    have hcaught := hf.caught b handler hmem
    have hlive := hf.live_of_mem_successors (p := b) (mem_append_right _ (mem_map_of_mem hmem))
    have hblock := he.block _ (f.lt_blocks_of_live hlive)
    have hop : ∀ i guard, (f.insn i).op = .moveException guard →
        (g.insn i).op = .moveException guard := by
      intro i guard hop
      rw [(he.insn i (f.lt_insns_of_live (hf.exact.live_of_op (by simp [hop])))).1, hop]
    by_cases hhead : handler.target = (f.insn call).block
    · rw [hhead] at hcaught hblock ⊢
      obtain ⟨i, rest, guard, rfl, hi⟩ := hcaught.before he.home hcall
      exact ⟨i, rest ++ [call, jump], guard, by rw [hblock]; simp, hop i guard hi⟩
    · obtain ⟨i, rest, guard, hbegin, hi⟩ := hcaught
      exact ⟨i, rest, guard, by rw [hblock, ← hbegin]; simp [hhead], hop i guard hi⟩
  · rw [he.tail] at hmem
    cases hmem
  · rw [(he.copy c hc).handlers] at hmem
    cases hmem

/-! ### Reaching every block -/

/-- The copied blocks are reached through the call. -/
lemma trail_copy (ht : callee.Trail (c :: t))
    (hhead : ∃ t', g.Trail ((f.insn call).block :: t')) : ∃ t', g.Trail (r.block c :: t') := by
  generalize hl : c :: t = l at ht
  induction ht generalizing c t with
  | start =>
    cases hl
    obtain ⟨t', ht'⟩ := hhead
    refine ⟨_, .step ht' ?_⟩
    rw [predecessors, he.copy_preds _ he.body.entry_live, if_pos rfl]
    exact mem_singleton.2 rfl
  | @step p d t walked edge ih =>
    cases hl
    obtain ⟨t', ht'⟩ := ih rfl
    refine ⟨_, .step ht' ?_⟩
    have hne : d ≠ callee.entry := by
      rintro rfl
      rw [he.body.flow.entry_preds] at edge
      cases edge
    rw [predecessors, he.copy_preds d (he.body.live_of_pred edge), if_neg hne]
    exact mem_map_of_mem edge

/-- What follows the call is reached through a return. -/
lemma trail_tail (hc : callee.Regular) (hreturns : returns ≠ [])
    (hhead : ∃ t', g.Trail ((f.insn call).block :: t')) :
    ∃ t', g.Trail (⟨f.blocks.size⟩ :: t') := by
  obtain ⟨p, rest, rfl⟩ := exists_cons_of_ne_nil hreturns
  obtain ⟨c, hlive, hp, -⟩ := he.origin p mem_cons_self
  obtain ⟨t, ht⟩ := hc.connected c hlive
  obtain ⟨t', ht'⟩ := he.trail_copy ht hhead
  refine ⟨_, .step ht' ?_⟩
  rw [he.predecessors_tail, ← hp]
  exact mem_cons_self

/-- The blocks of the caller are reached as before, behind the call through a return. -/
lemma trail_old (hc : callee.Regular) (hreturns : returns ≠ [])
    (ht : f.Trail (b :: t)) : ∃ t', g.Trail (b :: t') := by
  generalize hl : b :: t = l at ht
  induction ht generalizing b t with
  | start =>
    cases hl
    exact ⟨[], .start⟩
  | @step p d t walked edge ih =>
    cases hl
    have hpreds := he.predecessors_old (he.caller.live_of_pred edge)
    have hmem := mem_map_of_mem
      (f := fun p => if p = (f.insn call).block then ⟨f.blocks.size⟩ else p) edge
    rw [← hpreds] at hmem
    split at hmem
    · rename_i hp
      obtain ⟨t', ht'⟩ := he.trail_tail hc hreturns (hp ▸ ih rfl)
      exact ⟨_, .step ht' hmem⟩
    · obtain ⟨t', ht'⟩ := ih rfl
      exact ⟨_, .step ht' hmem⟩

lemma connected (hf : f.Regular) (hc : callee.Regular) (hreturns : returns ≠ []) :
    g.Connected := by
  have hold : ∀ b, f.LiveBlock b → ∃ t', g.Trail (b :: t') := fun b hb => by
    obtain ⟨t, ht⟩ := hf.connected b hb
    exact he.trail_old hc hreturns ht
  have hhead := hold _ he.home_live
  intro b hb
  rcases he.cases_target hb with hb | rfl | ⟨c, hlive, rfl⟩
  · exact hold b hb
  · exact he.trail_tail hc hreturns hhead
  · obtain ⟨t, ht⟩ := hc.connected c hlive
    exact he.trail_copy ht hhead

end Opened

/-! ## Calls -/

section Calls

variable {f callee g h g' : Function} {call : InsnId} {answer : InlinedCall}

lemma retains_bind {result : Option ValueId} (hg : g.WellFormed)
    (hcall : ∀ guard, (g.insn call).op ≠ .moveException guard)
    (hsub : ∀ d v, (g.insn call).dest = some d → result = some v → g.Substitutes d v)
    (hbind : (bindResult call result).run g = .ok () g')
    (hremove : (Ssa.removeInsn call).run g' = .ok () h) : g.Retains h := by
  have hexact := hg.exact
  rcases bindResult_ok hbind with ⟨d, v, hdest, hresult, rfl⟩ | ⟨rfl, -⟩
  · refine (Retains.replaceAllUses hexact d v).trans
      (.removeInsn (hg.replaceAllUses (hsub d v hdest hresult)).exact (fun guard => ?_) hremove)
    rw [hexact.insn_replaceAllUses]
    cases hop : (g.insn call).op with
    | moveException guard' => exact absurd hop (hcall guard')
    | _ => simp [redirectInsn, hop, Op.mapOperands]
  · exact .removeInsn hexact hcall hremove

lemma invoke_of_inlineCall (hrun : (inlineCall call callee).run f = .ok (some answer) h) :
    ∃ kind method args, (f.insn call).op = .invoke kind method args := by
  obtain ⟨f', f'', ⟨⟩, hrun⟩ := Edit.ok_of_bind hrun
  split at hrun
  · rename_i kind method args hop
    exact ⟨kind, method, args, hop⟩
  · cases hrun

lemma Splicing.retains {before after copies : List InsnId} {s : Splice}
    (hs : Splicing f callee call (f.insn call).op.operands before after
      (callee.block callee.entry).insns copies s g) (hf : f.WellFormed)
    (hplain : ∀ j ∈ copies, (g.insn j).op.isTerminator = false)
    (hhome : (f.block (f.insn call).block).insns = before ++ call :: after)
    (hcall : ∀ guard, (f.insn call).op ≠ .moveException guard) : f.Retains g where
  size := hs.size
  insn i hi hlive := by
    rw [hs.insn i hi] at hlive ⊢
    exact ⟨hlive, rfl, id, (Op.mapOperands_id _).symm⟩
  fresh i hi hlive := hplain i (hs.mem_copies hf hhome hlive hi).2
  preds := (hs.extended hf hhome).preds
  handlers b := by
    rw [hs.block]
    split <;> rfl
  removed b := by
    rw [hs.block]
    split <;> rfl
  begins b hb := by
    by_cases hhead : (f.insn call).block = b
    · subst hhead
      obtain ⟨i, rest, guard, rfl, hi⟩ := hb.before hhome hcall
      have hlt : f.HasInsn i := f.lt_insns_of_live
        ((hf.exact.insns_iff _ i).1 (by rw [hhome]; simp)).1
      refine ⟨i, rest ++ copies ++ call :: after, guard, ?_, by rw [hs.insn i hlt, hi]⟩
      rw [hs.block, if_pos rfl]
      simp
    · obtain ⟨i, rest, guard, hbegin, hi⟩ := hb
      have hlt : f.HasInsn i := f.lt_insns_of_live
        ((hf.exact.insns_iff _ i).1 (by rw [hbegin]; exact mem_cons_self)).1
      refine ⟨i, rest, guard, ?_, by rw [hs.insn i hlt, hi]⟩
      rw [hs.block, if_neg hhead, hbegin]

lemma regular_splice (hf : f.Regular) (hc : Copyable callee) (hs : Straight callee)
    (hlive : f.LiveInsn call) (hop : (f.insn call).op.isTerminator = false)
    (hcall : ∀ guard, (f.insn call).op ≠ .moveException guard)
    (hrun : (splice call callee (f.insn call).op.operands).run f = .ok answer h) :
    h.Regular ∧ f.Persists h := by
  have hwf := hf.toWellFormed
  obtain ⟨before, after, copies, s, g, g', hhome, hsplice, hcopy, hbind, hremove⟩ :=
    splice_ok hwf hc.toWellFormed hs hc.entry_phis hlive hrun
  have hkept : g.insn call = f.insn call := hsplice.insn call (f.lt_insns_of_live hlive)
  have hg : g.WellFormed := hsplice.wellFormed hwf hc hhome hcopy hs fun _ _ h => h.1
  have hsub := fun d v => hsplice.substitutes_result (d := d) (v := v) hwf hc hs hg hhome hcopy
  have hretains := (hsplice.retains hwf (Splicing.plain hcopy hs fun _ _ h => h.1) hhome hcall).trans
    (retains_bind hg (by rwa [hkept]) hsub hbind hremove)
  exact ⟨hf.retains (wellFormed_bind hg (by rw [hkept, hop]) hsub hbind hremove) hretains,
    hretains.toPersists⟩

lemma regular_expand (hf : f.Regular) (hc : callee.Regular) (hcopy : Copyable callee)
    (hu : Unguarded f callee call) (hlive : f.LiveInsn call)
    (hcall : ∀ guard, (f.insn call).op ≠ .moveException guard)
    (hrun : (expand call callee (f.insn call).op.operands).run f = .ok answer h) :
    h.Regular ∧ f.Persists h := by
  obtain ⟨before, after, r, jump, returns, merge, size, result, g, he, hmerge, hend⟩ :=
    expand_ok hf.toWellFormed hc.toWellFormed hu hlive hrun
  have hg : g.WellFormed := he.wellFormed hmerge hcopy.carried hcopy.entry_phis
  have hvoid := fun i => he.void (i := i) hf hc.void
  have hcaught : ∀ b (handler : Ssa.Handler), handler ∈ (g.block b).handlers →
      g.BeginsCaught handler.target := fun _ _ => he.caught hf hcall
  have hpersists := he.persists
  have hgop : (g.insn call).op.isTerminator = false := by rw [he.kept, hu.op]
  rcases hend with ⟨-, hremove⟩ | ⟨hreturns, g', hbind, hremove⟩
  · -- no return: what is behind the call is removed, and the call with it or after it
    have htrim := hg.trimmed
    have hg' := htrim.regular hg hg.removeUnreachableBlocks hvoid hcaught
    have hkept : (g.removeUnreachableBlocks.2.insn call).op.isTerminator = false ∧
        ∀ guard, (g.removeUnreachableBlocks.2.insn call).op ≠ .moveException guard := by
      rw [htrim.insn]
      split
      · rw [he.kept]
        exact ⟨hu.op, hcall⟩
      · exact ⟨rfl, nofun⟩
    have hretains := Retains.removeInsn hg'.exact hkept.2 hremove
    refine ⟨hg'.retains (hg'.toWellFormed.removeInsn hkept.1 hremove) hretains, ?_⟩
    exact (hpersists.trans (htrim.persists hg.orderly.size_insns_removeUnreachableBlocks)).trans hretains.toPersists
  · have hsub : ∀ d v, (g.insn call).dest = some d → result = some v → g.Substitutes d v := by
      intro d v hdest hresult
      rw [he.kept] at hdest
      exact he.substitutes_result hcopy hmerge hresult hdest
    have hg' : g.Regular := ⟨hg, hvoid, hcaught, he.connected hf hc hreturns⟩
    have hretains := retains_bind hg (by rwa [he.kept]) hsub hbind hremove
    exact ⟨hg'.retains (wellFormed_bind hg hgop hsub hbind hremove) hretains,
      hpersists.trans hretains.toPersists⟩

theorem regular_inlineCall (hf : f.Regular) (hc : callee.Regular) (hcopy : Copyable callee)
    (hrun : (inlineCall call callee).run f = .ok (some answer) h) : h.Regular ∧ f.Persists h := by
  obtain ⟨kind, method, args, hinvoke⟩ := invoke_of_inlineCall hrun
  have hcall : ∀ guard, (f.insn call).op ≠ .moveException guard := by
    intro guard hop
    rw [hinvoke] at hop
    cases hop
  have hlive := hf.exact.live_of_op (i := call) (by simp [hinvoke])
  obtain ⟨hu, hcases⟩ := inlineCall_cases hc.toWellFormed hrun
  rcases hcases with ⟨hstraight, hrun⟩ | hrun
  · exact regular_splice hf hcopy hstraight hlive hu.op hcall hrun
  · exact regular_expand hf hc hcopy hu hlive hcall hrun

end Calls

end Inline

end Dissolve
