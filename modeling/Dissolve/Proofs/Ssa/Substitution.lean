import Dissolve.Proofs.Ssa.BlockEdits

/-!
# Proofs.Ssa.Substitution — a value in the place of another

Reading one value instead of another moves no definition, so a function stays in SSA form if the new
value is available at every use of the old one (`WellFormed.replaceAllUses`). The case that matters: the
new value is available right before the instruction that defines the old one. Then it is available
wherever the old one is (`Exact.availBefore_through`), and the instruction can be taken out
(`WellFormed.forward`).
-/

namespace Dissolve.Ssa.Function

open List

variable {f g : Function} {pending : PhiId → Prop} {old new v : ValueId} {i j : InsnId}
  {b c : BlockId} {s : Site} {front rest before : List InsnId}

/-! ## Uses of another value -/

lemma Exact.carries_replaceAllUses (h : f.Exact) (old new : ValueId) :
    f.Carries (f.replaceAllUses old new).2 id := by
  apply Carries.of_extends
  · intro b
    simp [predecessors]
  · intro v s hs
    refine ⟨by simpa using hs, ?_⟩
    cases s with
    | insn i => rw [siteBlock, siteBlock, h.insn_replaceAllUses, redirectInsn]
    | phi p => rw [siteBlock, siteBlock, h.phi_replaceAllUses, redirectPhi]
  · intro i v hd
    rw [h.insn_replaceAllUses]
    exact hd

/-- Every use of the old value may read the new one. -/
structure Substitutes (f : Function) (old new : ValueId) : Prop where
  defined : ((f.value new).definition).isSome
  phi : ∀ (q : PhiId) (j : Nat) (p : BlockId), (f.phi q).operands[j]? = some old →
    (f.predecessors (f.phi q).block)[j]? = some p → f.AvailEnd new p
  insn : ∀ b before i after, (f.block b).insns = before ++ i :: after →
    old ∈ (f.insn i).op.operands → f.AvailBefore new b before

theorem Flow.replaceAllUses (h : f.Flow pending) (hsub : f.Substitutes old new) :
    (f.replaceAllUses old new).2.Flow pending := by
  have hf := h.exact
  obtain ⟨site, hsite⟩ := Option.isSome_iff_exists.1 hsub.defined
  have hcarries := hf.carries_replaceAllUses old new
  have hpreds : ∀ b, (f.replaceAllUses old new).2.predecessors b = f.predecessors b := by
    intro b
    simp [predecessors]
  refine ⟨hf.replaceAllUses old (f.lt_values_of_definition hsite), ?_, ?_, ?_, ?_, ?_, ?_⟩
  · exact (hpreds _).trans h.entry_preds
  · intro q hq
    obtain ⟨hlive, hnil⟩ := h.waits q hq
    rw [hf.phi_replaceAllUses, redirectPhi, hnil]
    exact ⟨hlive, rfl⟩
  · intro q hq hwait
    rw [hf.phi_replaceAllUses] at hq ⊢
    rw [hpreds, redirectPhi, length_map]
    exact h.arity q hq hwait
  · intro q j v p hv hp
    rw [hf.phi_replaceAllUses] at hv hp
    rw [redirectPhi, getElem?_map, Option.map_eq_some_iff] at hv
    rw [hpreds] at hp
    obtain ⟨w, hw, rfl⟩ := hv
    refine hcarries.avail_end (redirect old new w) p ?_
    by_cases hold : w = old
    · subst hold
      rw [redirect_old]
      exact hsub.phi q j p hw hp
    · rw [redirect_of_ne hold]
      exact h.phi_avail q j w p hw hp
  · intro b before i after hlist v hv
    rw [block_replaceAllUses] at hlist
    rw [hf.insn_replaceAllUses, redirectInsn, Op.operands_mapOperands, mem_map] at hv
    obtain ⟨w, hw, rfl⟩ := hv
    refine hcarries.avail_before (v := redirect old new w) ?_
    by_cases hold : w = old
    · subst hold
      rw [redirect_old]
      exact hsub.insn b before i after hlist hw
    · rw [redirect_of_ne hold]
      exact h.insn_avail b before i after hlist w hw
  · intro v s hr
    obtain ⟨w, hw, rfl⟩ := (hf.reads_replaceAllUses old new v s).1 hr
    rw [definition_replaceAllUses]
    by_cases hold : w = old
    · rw [hold, redirect_old]
      exact hsub.defined
    · rw [redirect_of_ne hold]
      exact h.defined w s hw

theorem WellFormed.replaceAllUses (h : f.WellFormed) (hsub : f.Substitutes old new) :
    (f.replaceAllUses old new).2.WellFormed := by
  have hf := h.exact
  apply h.of_flow (h.flow.replaceAllUses hsub)
  · simp
  · intro b hb
    simpa using hb
  · intro i
    rw [hf.insn_replaceAllUses, redirectInsn, Op.isTerminator_mapOperands]
  · intro i
    rw [hf.insn_replaceAllUses, redirectInsn, Op.targets_mapOperands]

/-! ## Values that were there before another -/

section Through

variable {before after : List InsnId}

section

variable (h : f.Exact) (hlist : (f.block b).insns = before ++ i :: after)
  (hdest : (f.insn i).dest = some old) (hnew : f.AvailBefore new b before)
include h hlist hdest hnew

lemma Exact.availEnd_through (hold : f.AvailEnd old c) : f.AvailEnd new c := by
  have hblock : (f.insn i).block = b := (h.of_split hlist).2
  intro t ht
  obtain ⟨d, hd, hdef⟩ := hold t ht
  rw [h.definingBlock?_of_dest hdest, hblock, Option.some.injEq] at hdef
  subst hdef
  obtain ⟨t', ht', hsuffix⟩ := ht.until hd
  obtain ⟨e, he, hedef⟩ := hnew.toEnd h (fun j hj => by simp [hlist, hj]) t' ht'
  exact ⟨e, hsuffix.subset he, hedef⟩

lemma Exact.availStart_through (hold : f.AvailStart old c) : f.AvailStart new c := by
  have hnophi : ¬f.IsPhiOf old c := by
    rintro ⟨q, hq, -⟩
    rw [(h.definition_iff old (.insn i)).2 hdest] at hq
    cases hq
  intro t ht
  cases ht with
  | start =>
    obtain ⟨d, hd, -⟩ := (hold [] .start).resolve_right hnophi
    cases hd
  | step walked edge =>
    have hend : f.AvailEnd old _ := hold.at_pred hnophi edge
    exact .inl (h.availEnd_through hlist hdest hnew hend _ walked)

end

theorem Exact.availBefore_through (h : f.Exact) (hlist : (f.block b).insns = before ++ i :: after)
    (hdest : (f.insn i).dest = some old) (hnew : f.AvailBefore new b before)
    (hfront : (f.block c).insns = front ++ rest) (hold : f.AvailBefore old c front) :
    f.AvailBefore new c front := by
  rcases hold with ⟨j, hj, hjdest⟩ | hstart
  · obtain rfl : j = i := h.insn_unique hjdest hdest
    have hhome : ∀ c, j ∈ (f.block c).insns → (f.insn j).block = c := fun c hc =>
      ((h.insns_iff c j).1 hc).2
    obtain rfl : b = c := (hhome b (by simp [hlist])).symm.trans (hhome c (by simp [hfront, hj]))
    -- the instruction stands in one place only
    obtain ⟨front', mid, rfl⟩ := append_of_mem hj
    rw [hlist, append_assoc, cons_append] at hfront
    obtain ⟨hbefore, hafter⟩ := h.not_mem_of_split hlist
    obtain rfl : before = front' := ((append_cons_inj_of_notMem hbefore hafter).1 hfront).1
    exact hnew.mono fun k hk => mem_append_left _ hk
  · exact .inr (h.availStart_through hlist hdest hnew hstart)

end Through

/-! ## Taking out an instruction -/

section Remove

variable (hf : f.Exact) (hlive : f.LiveInsn i)

include hf hlive

lemma Exact.definition_withoutInsn (hv : (f.insn i).dest ≠ some v) :
    ((f.withoutInsn i).value v).definition = (f.value v).definition := by
  have hdefines : ∀ s, (f.withoutInsn i).Defines v s ↔ f.Defines v s := by
    rintro (j | p)
    · by_cases hj : j = i
      · subst hj
        simp [Defines, insn_withoutInsn_self hlive, Instruction.gone, hv]
      · rw [Defines, Defines, insn_withoutInsn hj]
    · rw [Defines, Defines, phi_withoutInsn]
  apply Option.ext
  intro s
  rw [(hf.withoutInsn hlive).definition_iff, hf.definition_iff, hdefines]

omit hlive in
lemma Exact.definition_withoutInsn_dest (hv : (f.insn i).dest = some v) :
    ((f.withoutInsn i).value v).definition = none := by
  have hlive := hf.live_of_dest hv
  by_contra hsome
  obtain ⟨s, hs⟩ := Option.ne_none_iff_exists'.1 hsome
  have hdefines := ((hf.withoutInsn hlive).definition_iff v s).1 hs
  -- the only place that defined it is gone
  have hs' : s = .insn i := by
    refine hf.defines_unique (v := v) ?_ hv
    cases s with
    | phi q => rwa [Defines, phi_withoutInsn] at hdefines
    | insn j =>
      by_cases hj : j = i
      · rwa [hj]
      · rwa [Defines, insn_withoutInsn hj] at hdefines
  rw [hs', Defines, insn_withoutInsn_self hlive] at hdefines
  cases hdefines

omit hf in
lemma siteBlock_withoutInsn (s : Site) : (f.withoutInsn i).siteBlock s = f.siteBlock s := by
  cases s with
  | insn j =>
    by_cases hj : j = i
    · rw [hj, siteBlock, siteBlock, insn_withoutInsn_self hlive, Instruction.gone]
    · rw [siteBlock, siteBlock, insn_withoutInsn hj]
  | phi p => rw [siteBlock, siteBlock, phi_withoutInsn]

lemma Exact.predecessors_withoutInsn (b : BlockId) :
    (f.withoutInsn i).predecessors b = f.predecessors b := by
  rw [predecessors, hf.block_withoutInsn hlive]
  rfl

lemma Exact.availEnd_withoutInsn (hv : (f.insn i).dest ≠ some v) (hend : f.AvailEnd v b) :
    (f.withoutInsn i).AvailEnd v b := by
  intro t ht
  have ht : f.Trail (b :: t) := ht.congr fun b => (hf.predecessors_withoutInsn hlive b).symm
  obtain ⟨c, hc, hdef⟩ := hend t ht
  refine ⟨c, hc, ?_⟩
  rw [definingBlock?_eq] at hdef ⊢
  rwa [hf.definition_withoutInsn hlive hv, funext (siteBlock_withoutInsn hlive)]

lemma Exact.availBefore_withoutInsn (hv : (f.insn i).dest ≠ some v)
    (hbefore : f.AvailBefore v b before) :
    (f.withoutInsn i).AvailBefore v b (before.filter fun j => j ≠ i) := by
  rcases hbefore with ⟨j, hj, hd⟩ | hstart
  · have hne : j ≠ i := fun heq => hv (heq ▸ hd)
    refine .inl ⟨j, mem_filter.2 ⟨hj, by simpa using hne⟩, ?_⟩
    rwa [insn_withoutInsn hne]
  · right
    intro t ht
    have ht : f.Trail (b :: t) := ht.congr fun b => (hf.predecessors_withoutInsn hlive b).symm
    rcases hstart t ht with ⟨c, hc, hdef⟩ | ⟨q, hq, hblock⟩
    · refine .inl ⟨c, hc, ?_⟩
      rw [definingBlock?_eq] at hdef ⊢
      rwa [hf.definition_withoutInsn hlive hv, funext (siteBlock_withoutInsn hlive)]
    · refine .inr ⟨q, ?_, by rwa [phi_withoutInsn]⟩
      rwa [hf.definition_withoutInsn hlive hv]

omit hf in
lemma reads_withoutInsn (hr : (f.withoutInsn i).Reads v s) : f.Reads v s := by
  cases s with
  | insn j =>
    by_cases hj : j = i
    · subst hj
      simp [Reads, insn_withoutInsn_self hlive, Instruction.gone, Op.operands] at hr
    · rwa [Reads, insn_withoutInsn hj] at hr
  | phi p => rwa [Reads, phi_withoutInsn] at hr

end Remove

lemma reads_of_removeInsn (hrun : (Ssa.removeInsn i).run f = .ok () g) (hr : g.Reads v s) :
    f.Reads v s := by
  cases hlive : (f.insn i).removed with
  | false => exact reads_withoutInsn hlive ((removeInsn_ok hlive hrun).1 ▸ hr)
  | true =>
    rw [removeInsn_removed hlive] at hrun
    cases hrun
    exact hr

lemma in_part_of_append {xs ys : List InsnId} (h : xs ++ ys = front ++ i :: rest) :
    (∃ rest', xs = front ++ i :: rest') ∨
      ∃ front', front = xs ++ front' ∧ ys = front' ++ i :: rest := by
  rcases append_eq_append_iff.1 h with ⟨front', hfront, hys⟩ | ⟨rest', hxs, hrest⟩
  · exact .inr ⟨front', hfront, hys⟩
  · cases rest' with
    | nil => exact .inr ⟨[], by simpa using hxs.symm, hrest.symm⟩
    | cons j rest' =>
      obtain ⟨rfl, -⟩ := cons.inj hrest
      exact .inl ⟨rest', hxs⟩

lemma filter_eq_append_cons {p : InsnId → Bool} {l after : List InsnId}
    (h : l.filter p = before ++ j :: after) :
    ∃ front rest, l = front ++ j :: rest ∧ front.filter p = before := by
  obtain ⟨front, tail, rfl, rfl, htail⟩ := filter_eq_append_iff.1 h
  obtain ⟨skipped, rest, rfl, hskipped, -, -⟩ := filter_eq_cons_iff.1 htail
  refine ⟨front ++ skipped, rest, by simp, ?_⟩
  rw [filter_append, filter_eq_nil_iff.2 hskipped, append_nil]

lemma Flow.withoutInsn (h : f.Flow pending) (hlive : f.LiveInsn i)
    (hunread : ∀ d s, (f.insn i).dest = some d → ¬f.Reads d s) :
    (f.withoutInsn i).Flow pending := by
  have hf := h.exact
  have hpreds := hf.predecessors_withoutInsn hlive
  have hne : ∀ {v s}, f.Reads v s → (f.insn i).dest ≠ some v := fun hr hd => hunread _ _ hd hr
  refine ⟨hf.withoutInsn hlive, ?_, ?_, ?_, ?_, ?_, ?_⟩
  · exact (hpreds _).trans h.entry_preds
  · intro q hq
    rw [phi_withoutInsn]
    exact h.waits q hq
  · intro q hq hwait
    rw [phi_withoutInsn] at hq ⊢
    rw [hpreds]
    exact h.arity q hq hwait
  · intro q j v p hv hp
    rw [phi_withoutInsn] at hv hp
    rw [hpreds] at hp
    have hread : f.Reads v (.phi q) := mem_of_getElem? hv
    exact hf.availEnd_withoutInsn hlive (hne hread) (h.phi_avail q j v p hv hp)
  · intro b before j after hlist v hv
    rw [hf.block_withoutInsn hlive] at hlist
    obtain ⟨front, rest, hfront, rfl⟩ := filter_eq_append_cons hlist
    have hread : f.Reads v (.insn j) := reads_withoutInsn hlive (s := .insn j) hv
    exact hf.availBefore_withoutInsn hlive (hne hread) (h.insn_avail b front j rest hfront v hread)
  · intro v s hr
    have hread := reads_withoutInsn hlive hr
    rw [hf.definition_withoutInsn hlive (hne hread)]
    exact h.defined v s hread

lemma WellFormed.withoutInsn (h : f.WellFormed) (hlive : f.LiveInsn i)
    (hop : (f.insn i).op.isTerminator = false)
    (hunread : ∀ d s, (f.insn i).dest = some d → ¬f.Reads d s) : (f.withoutInsn i).WellFormed := by
  have hf := h.exact
  have hblock := hf.block_withoutInsn hlive
  have hends : ∀ b, f.LiveBlock b → ∃ front last,
      (f.block b).insns = front ++ [last] ∧ last ≠ i ∧ (f.insn last).op.isTerminator ∧
        ((f.withoutInsn i).block b).insns = front.filter (fun j => j ≠ i) ++ [last] ∧
          ∀ j ∈ front, (f.insn j).op.isTerminator = false := by
    intro b hb
    obtain ⟨front, last, hlist, hlast, hfront⟩ := h.terminated b hb
    have hne : last ≠ i := by
      rintro rfl
      rw [hlast] at hop
      cases hop
    refine ⟨front, last, hlist, hne, hlast, ?_, hfront⟩
    rw [hblock, hlist, filter_append, filter_cons_of_pos (by simpa using hne)]
    rfl
  have hsucc : ∀ b, (f.withoutInsn i).successors b = f.successors b := by
    intro b
    by_cases hb : f.LiveBlock b
    · obtain ⟨front, last, hlist, hne, hlast, hlist', -⟩ := hends b hb
      have hlast' : ((f.withoutInsn i).insn last).op.isTerminator := by
        rwa [insn_withoutInsn hne]
      rw [successors, successors, normalSuccessors_of_last hlist hlast,
        normalSuccessors_of_last hlist' hlast', insn_withoutInsn hne, hblock]
    · have hgone := h.gone b (by simpa using hb)
      rw [successors_of_gone hgone, successors_of_gone]
      rw [hblock, hgone]
      rfl
  refine ⟨h.flow.withoutInsn hlive hunread, ?_, ?_, ?_, ?_⟩
  · rw [hblock]
    exact h.entry_live
  · exact (h.orderly.withoutInsn hlive).gone
  · intro b hb
    rw [hblock] at hb
    obtain ⟨front, last, -, hne, hlast, hlist', hfront⟩ := hends b hb
    refine ⟨_, last, hlist', by rwa [insn_withoutInsn hne], ?_⟩
    intro j hj
    obtain ⟨hj, hji⟩ := mem_filter.1 hj
    rw [insn_withoutInsn (by simpa using hji)]
    exact hfront j hj
  · intro b p
    rw [hf.predecessors_withoutInsn hlive, hsucc]
    exact h.edges b p

lemma WellFormed.removeInsn (h : f.WellFormed) (hop : (f.insn i).op.isTerminator = false)
    (hrun : (Ssa.removeInsn i).run f = .ok () g) : g.WellFormed := by
  by_cases hlive : f.LiveInsn i
  · obtain ⟨rfl, hunused⟩ := removeInsn_ok hlive hrun
    refine h.withoutInsn hlive hop ?_
    intro d s hd hr
    have hmem := (h.exact.users_iff d s).2 hr
    rw [hunused d hd] at hmem
    cases hmem
  · rw [removeInsn_removed (by simpa using hlive)] at hrun
    cases hrun
    exact h

/-! ## Reading what an instruction would give -/

section Forward

variable {before after : List InsnId} (hlist : (f.block b).insns = before ++ i :: after)
  (hdest : (f.insn i).dest = some old) (hnew : f.AvailBefore new b before)

include hlist hdest hnew

lemma Flow.substitutes (h : f.Flow pending) (hdef : ((f.value new).definition).isSome) :
    f.Substitutes old new where
  defined := hdef
  phi q j p hold hp := h.exact.availEnd_through hlist hdest hnew (h.phi_avail q j old p hold hp)
  insn c front k rest hfront hold :=
    h.exact.availBefore_through hlist hdest hnew hfront (h.insn_avail c front k rest hfront old hold)

theorem WellFormed.forward (h : f.WellFormed) (hop : (f.insn i).op.isTerminator = false)
    (hne : old ≠ new) (hdef : ((f.value new).definition).isSome) :
    ((f.replaceAllUses old new).2.withoutInsn i).WellFormed := by
  have hf := h.exact
  have hlive : f.LiveInsn i := hf.live_of_dest hdest
  have hg := h.replaceAllUses (h.flow.substitutes hlist hdest hnew hdef)
  apply hg.withoutInsn
  · rw [LiveInsn, hf.insn_replaceAllUses]
    exact hlive
  · rw [hf.insn_replaceAllUses, redirectInsn, Op.isTerminator_mapOperands]
    exact hop
  · intro d s hd hr
    rw [hf.insn_replaceAllUses, redirectInsn] at hd
    obtain rfl := Option.some.inj (hdest.symm.trans hd)
    obtain ⟨w, -, hw⟩ := (hf.reads_replaceAllUses old new old s).1 hr
    exact redirect_ne_old hne w hw

lemma Exact.availBefore_forward (h : f.Exact) (hne : old ≠ new)
    (hdef : ((f.value new).definition).isSome) (hfront : (f.block c).insns = front ++ rest)
    (hv : f.AvailBefore v c front) :
    ((f.replaceAllUses old new).2.withoutInsn i).AvailBefore (redirect old new v) c
      (front.filter fun j => j ≠ i) := by
  have hread : f.AvailBefore (redirect old new v) c front := by
    by_cases hold : v = old
    · subst hold
      rw [redirect_old]
      exact h.availBefore_through hlist hdest hnew hfront hv
    · rwa [redirect_of_ne hold]
  obtain ⟨site, hsite⟩ := Option.isSome_iff_exists.1 hdef
  apply (h.replaceAllUses old (f.lt_values_of_definition hsite)).availBefore_withoutInsn
  · rw [LiveInsn, h.insn_replaceAllUses]
    exact h.live_of_dest hdest
  · rw [h.insn_replaceAllUses, redirectInsn]
    intro hd
    exact redirect_ne_old hne v (Option.some.inj (hdest.symm.trans hd)).symm
  · exact (h.carries_replaceAllUses old new).avail_before hread

end Forward

end Dissolve.Ssa.Function
