import Dissolve.Proofs.Inline.Behaviour
import Dissolve.Proofs.Inline.Trails
import Dissolve.Proofs.Ssa.Growth
import Dissolve.Proofs.Ssa.Trimmed

/-!
# Proofs.Inline.Formed — replacing a call keeps a function in SSA form

Whichever way the body of the callee comes into the caller, the caller with the call still in it is well
formed, and what the returns give is available wherever the value of the call is read. So the value of
the call can be read from the copy and the call taken out (`wellFormed_inlineCall`). The callee has to
read values only that an operation other than a return defines, and its entry has to be without phis:
the copy of the entry has an edge that the entry has not.
-/

namespace Dissolve.Inline

open List
open Ssa (Edit Function Op Position)
open Ssa.Function
open Semantics

variable {callee f g h g' : Function} {call : InsnId} {after before front copies : List InsnId}
  {answer : InlinedCall}

/-- A body that can be copied into a caller. -/
structure Copyable (callee : Function) : Prop extends callee.WellFormed where
  entry_phis : (callee.block callee.entry).phis = []
  carried : ∀ w s, callee.Reads w s → Carried callee w

lemma wellFormed_bind {result : Option ValueId} (hg : g.WellFormed)
    (hop : (g.insn call).op.isTerminator = false)
    (hsub : ∀ d v, (g.insn call).dest = some d → result = some v → g.Substitutes d v)
    (hbind : (bindResult call result).run g = .ok () g')
    (hremove : (Ssa.removeInsn call).run g' = .ok () h) : h.WellFormed := by
  rcases bindResult_ok hbind with ⟨d, v, hdest, hresult, rfl⟩ | ⟨rfl, -⟩
  · apply (hg.replaceAllUses (hsub d v hdest hresult)).removeInsn _ hremove
    rw [hg.exact.insn_replaceAllUses, redirectInsn, Op.isTerminator_mapOperands, hop]
  · exact hg.removeInsn hop hremove

/-! ## A body between the parts of a split block -/

namespace Opened

variable {jump : InsnId} {r : Renaming} {returns : List (BlockId × Option ValueId)}
  {merge : List PhiId} {size : Nat} {b c : BlockId} {result : Option ValueId} {d v w : ValueId}
  {t : List BlockId}

section Result

variable (he : Opened f callee call before after r jump returns merge size g)
include he

lemma availStart_result (hc : Copyable callee) (hmerge : Merge f call size g returns result merge)
    (hresult : result = some v) :
    g.AvailStart v ⟨f.blocks.size⟩ ∧ ((g.value v).definition).isSome := by
  cases hmerge with
  | never | unread => cases hresult
  | one p u =>
    subst hresult
    obtain ⟨hend, hdef⟩ := he.supplied_return hc.carried (p := p) (v := v) mem_cons_self
    refine ⟨availStart_of_preds ?_ ?_, hdef⟩
    · intro heq
      have hlt := f.lt_blocks_of_live he.caller.entry_live
      have hindex : f.blocks.size = 0 := congrArg BlockId.index heq
      omega
    · intro q hq
      rw [he.predecessors_tail] at hq
      rwa [mem_singleton.1 hq]
  | @phi _ q several operands fresh =>
    cases hresult
    obtain ⟨hlive, hblock⟩ := (he.orderly.exact.phis_iff ⟨f.blocks.size⟩ q).1 (by simp [he.tail])
    have hdef := (he.orderly.exact.definition_iff (g.phi q).value (.phi q)).2 ⟨hlive, rfl⟩
    exact ⟨availStart_of_isPhiOf ⟨q, hdef, hblock⟩, by rw [hdef]; rfl⟩

lemma result_on_trail (hv : g.AvailStart v ⟨f.blocks.size⟩) (hdest : (f.insn call).dest = some d)
    {l : List BlockId} (hl : g.Trail l) {t' : List BlockId} (hpass : Passes f call t' l)
    (hdef : ∃ e ∈ t', f.definingBlock? d = some e) : ∃ e ∈ l, g.definingBlock? v = some e := by
  obtain ⟨e, he', hdef⟩ := hdef
  rw [he.caller.exact.definingBlock?_of_dest hdest, Option.some.injEq] at hdef
  subst hdef
  obtain ⟨t, ht, hsuffix⟩ := hl.until ((hpass _ he').2 rfl)
  obtain ⟨e, hmem, hdef⟩ := hv.toEnd t ht
  exact ⟨e, hsuffix.subset hmem, hdef⟩

section

variable (hv : g.AvailStart v ⟨f.blocks.size⟩) (hdest : (f.insn call).dest = some d)
  (hb : f.LiveBlock b)
include hv hdest hb

lemma availStart_of_dest (hstart : f.AvailStart d b) : g.AvailStart v b := by
  intro t ht
  left
  obtain ⟨t', ht', hpass⟩ := (he.projects ht).old (f.lt_blocks_of_live hb)
  have hdef : ∃ e ∈ t', f.definingBlock? d = some e := by
    refine (hstart t' ht').resolve_right ?_
    rintro ⟨q, hq, -⟩
    rw [(he.caller.exact.definition_iff d (.insn call)).2 hdest] at hq
    cases hq
  cases ht with
  | start =>
    obtain ⟨e, hmem, -⟩ := hdef
    exact absurd (hpass e hmem).1 not_mem_nil
  | step walked _ => exact he.result_on_trail hv hdest walked hpass hdef

lemma availEnd_of_dest (hend : f.AvailEnd d b) :
    g.AvailEnd v (if b = (f.insn call).block then ⟨f.blocks.size⟩ else b) := by
  split
  · exact hv.toEnd
  · rename_i hbh
    intro t ht
    obtain ⟨t', ht', hpass⟩ := (he.projects ht).old (f.lt_blocks_of_live hb)
    refine he.result_on_trail hv hdest ht (hpass.cons b) ?_
    obtain ⟨e, hmem, hdef⟩ := hend t' ht'
    refine ⟨e, (mem_cons.1 hmem).resolve_left fun heq => hbh ?_, hdef⟩
    rw [he.caller.exact.definingBlock?_of_dest hdest, Option.some.injEq] at hdef
    rw [← heq, ← hdef]

end

lemma no_trail_of_dest (hdest : (f.insn call).dest = some (r.value w)) {s : Site}
    (hw : callee.Reads w s) (hb : f.blocks.size ≤ b.index) : ¬g.Trail (b :: t) := by
  intro ht
  obtain ⟨t', ht', -⟩ := (he.projects ht).new hb
  obtain ⟨site, hsite⟩ := Option.isSome_iff_exists.1 (he.body.flow.defined w s hw)
  have hnamed := he.named w site ((he.body.exact.definition_iff w site).1 hsite)
  exact he.bindings.ne_dest he.caller he.home ⟨t', ht'⟩ hnamed hdest

lemma substitutes_result (hc : Copyable callee) (hmerge : Merge f call size g returns result merge)
    (hresult : result = some v) (hdest : (f.insn call).dest = some d) : g.Substitutes d v := by
  obtain ⟨hv, hdef⟩ := he.availStart_result hc hmerge hresult
  refine ⟨hdef, ?_, ?_⟩
  · intro q j p hold hp
    have hq := he.orderly.exact.live_of_reads_phi (mem_of_getElem? hold)
    have hmem := (he.orderly.exact.phis_iff _ q).2 ⟨hq, rfl⟩
    have hlive := he.orderly.live_block_of_phi hq
    generalize (g.phi q).block = b at hmem hlive hp
    rcases he.cases_target hlive with hb | rfl | ⟨c, hlivec, rfl⟩
    · rw [he.block b (f.lt_blocks_of_live hb)] at hmem
      obtain ⟨hliveq, hblock⟩ := (he.caller.exact.phis_iff b q).1 hmem
      rw [he.phi q (f.lt_phis_of_live hliveq)] at hold
      rw [he.predecessors_old hb, getElem?_map, Option.map_eq_some_iff] at hp
      obtain ⟨p', hp', rfl⟩ := hp
      exact he.availEnd_of_dest hv hdest (he.caller.live_pred (mem_of_getElem? hp'))
        (he.caller.flow.phi_avail q j d p' hold (hblock ▸ hp'))
    · -- a phi behind the returns reads from the copy
      rw [he.tail] at hmem
      rw [he.predecessors_tail, getElem?_map, Option.map_eq_some_iff] at hp
      obtain ⟨⟨p', returned⟩, hret, rfl⟩ := hp
      cases hmerge with
      | never | one | unread => cases hmem
      | phi several operands fresh =>
        obtain rfl := mem_singleton.1 hmem
        have hsome : returned = some d := by
          have hget := congrArg (fun l => l[j]?) operands
          simp only [getElem?_map, hret, hold, Option.map_some, Option.some.injEq] at hget
          exact hget
        obtain ⟨c, hlivec, hblock, k, hk, u, hop, hu⟩ := he.origin _ (mem_of_getElem? hret)
        rw [hsome] at hu
        obtain ⟨w, rfl, rfl⟩ := Option.map_eq_some_iff.1 hu.symm
        have hread : callee.Reads w (.insn k) := by
          rw [Reads, hop]
          exact mem_singleton_self w
        intro t ht
        rw [hblock] at ht
        exact (he.no_trail_of_dest hdest hread (he.block_new c hlivec).1.le ht).elim
    · obtain ⟨phi, hlist, hphis⟩ := (he.copy c hlivec).phis
      rw [hlist, mem_map] at hmem
      obtain ⟨q', hq', rfl⟩ := hmem
      rw [(hphis q' hq').2.2, getElem?_map, Option.map_eq_some_iff] at hold
      obtain ⟨w, hw, rfl⟩ := hold
      have hread : callee.Reads w (.phi q') := mem_of_getElem? hw
      intro t ht
      have hnew := (he.block_new c hlivec).1.le
      exact (he.no_trail_of_dest hdest hread hnew (.step ht (mem_of_getElem? hp))).elim
  · intro b front i rest hlist hold
    have hlive := he.orderly.live_of_split hlist
    rcases he.cases_target hlive with hb | rfl | ⟨c, hlivec, rfl⟩
    · obtain ⟨rest', hlist', hnot⟩ := he.list_old hb hlist hold
      rw [he.operands_old (b := b) (by simp [hlist'])] at hold
      rcases he.caller.flow.insn_avail b front i rest' hlist' d hold with ⟨j, hj, hd⟩ | hstart
      · obtain rfl : j = call := he.caller.exact.insn_unique hd hdest
        exact absurd hj hnot
      · exact .inr (he.availStart_of_dest hv hdest hb hstart)
    · exact .inr hv
    · rcases transcribed_at (he.copy c hlivec).insns hlist with
        ⟨front', k, rest', -, hop, -⟩ | ⟨returned, out, ⟨j, rfl, -, hgoto, -⟩, hi⟩
      · rw [hop, Op.operands_mapTargets, Op.operands_mapOperands, mem_map] at hold
        obtain ⟨w, hw, rfl⟩ := hold
        have hread : callee.Reads w (.insn k) := hw
        right
        intro t ht
        exact (he.no_trail_of_dest hdest hread (he.block_new c hlivec).1.le ht).elim
      · rw [mem_singleton.1 hi, hgoto] at hold
        cases hold

end Result

end Opened

namespace Splicing

variable {s : Splice} {b : BlockId} {v w : ValueId} {exit : Option ValueId → List InsnId → Prop}

section Flow

variable (hs : Splicing f callee call (f.insn call).op.operands before after
    (callee.block callee.entry).insns copies s g)
  (hf : f.WellFormed)

include hs hf

section

variable (hhome : (f.block (f.insn call).block).insns = before ++ call :: after)
include hhome

lemma extended : f.Extends g where
  entry := rfl
  preds b := by
    rw [predecessors, hs.block]
    split <;> rfl
  definition v site hsite := by
    have hdef := (hf.exact.definition_iff v site).1 hsite
    rw [hs.exact.definition_iff]
    cases site with
    | insn i =>
      have hlive := hf.exact.live_of_dest (show (f.insn i).dest = some v from hdef)
      rw [Defines, siteBlock, siteBlock, hs.insn i (f.lt_insns_of_live hlive)]
      exact ⟨hdef, rfl⟩
    | phi q =>
      rw [Defines, siteBlock, siteBlock, hs.phi]
      exact ⟨hdef, rfl⟩
  insn := hs.insn
  insns b := by
    rw [hs.block]
    split
    · rename_i hb
      have hnil : (copies.filter fun j => f.HasInsn j) = [] :=
        filter_eq_nil_iff.2 fun j hj => by simpa using hs.copies_new j hj
      rw [filter_append, filter_append, hnil, append_nil, ← filter_append, ← hhome, hb,
        hf.exact.filter_insns]
    · exact hf.exact.filter_insns b
  size := hs.size

lemma mem_copies {i : InsnId} (hlive : g.LiveInsn i) (hnew : f.insns.size ≤ i.index) :
    (g.insn i).block = (f.insn call).block ∧ i ∈ copies := by
  have hmem := (hs.exact.insns_iff _ i).2 ⟨hlive, rfl⟩
  have hold : ∀ b, i ∉ (f.block b).insns := fun b hi =>
    absurd (f.lt_insns_of_live ((hf.exact.insns_iff b i).1 hi).1) (Nat.not_lt.2 hnew)
  rw [hs.block] at hmem
  split at hmem
  · rename_i hb
    have hhead := hold (f.insn call).block
    rw [hhome] at hhead
    simp only [mem_append] at hmem hhead
    exact ⟨hb.symm, by tauto⟩
  · exact absurd hmem (hold _)

end

variable (hc : Copyable callee)
  (hhome : (f.block (f.insn call).block).insns = before ++ call :: after)
  (hcopy : Transcribed callee g s.names.value (fun _ => (f.insn call).block) exit
    (callee.block callee.entry).insns copies)

include hc hhome

lemma availBefore_copy {front' rest' : List InsnId} {k : InsnId}
    (hsplit : (callee.block callee.entry).insns = front' ++ k :: rest')
    (hcopies : ∀ m ∈ front', (∃ index, (callee.insn m).op = .argument index) ∨
      ∃ j ∈ front, (g.insn j).dest = (callee.insn m).dest.map s.names.value)
    (hw : w ∈ (callee.insn k).op.operands) :
    g.AvailBefore (s.names.value w) (f.insn call).block (before ++ front) ∧
      ((g.value (s.names.value w)).definition).isSome := by
  rcases hc.flow.insn_avail _ front' k rest' hsplit w hw with ⟨m, hm, hd⟩ | hstart
  · rcases hcopies m hm with ⟨index, harg⟩ | ⟨j, hj, hjd⟩
    · -- a parameter: what is passed for it is available at the call
      obtain ⟨x, hx⟩ := hs.bound m (by simp [hsplit, hm]) (fun u hop => by
        rw [harg] at hop
        cases hop) w hd
      have hpassed : s.names.value w ∈ (f.insn call).op.operands := by
        rw [Renaming.value, hx]
        exact mem_of_getElem? (hs.bindings.passed hc.exact harg hd hx)
      have he := hs.extended hf hhome
      have hav := he.carries.avail_before (hf.flow.insn_avail _ before call after hhome _ hpassed)
      exact ⟨hav.mono fun i hi => mem_append_left _ hi,
        he.defined (hf.flow.defined _ (.insn call) hpassed)⟩
    · rw [hd, Option.map_some] at hjd
      refine ⟨.inl ⟨j, mem_append_right _ hj, hjd⟩, ?_⟩
      rw [(hs.exact.definition_iff _ (.insn j)).2 hjd]
      rfl
  · exact absurd hstart (hc.exact.not_availStart_entry hc.entry_phis)

include hcopy

omit hs hf hc hhome in
/-- A copy ends nothing. -/
lemma plain (hstraight : Straight callee) (hexit : ∀ returned js, exit returned js → js = []) :
    ∀ j ∈ copies, (g.insn j).op.isTerminator = false := by
  obtain ⟨front, last, value, hinsns, hlast, hfront⟩ := hstraight.ends
  rw [hinsns] at hcopy
  obtain ⟨copied, out, rfl, hout, hall, -⟩ := hcopy.exits hlast hfront
  rwa [hexit _ _ hout, append_nil]

lemma supplied_insn (hexit : ∀ returned js, exit returned js → js = []) {i : InsnId}
    (hv : v ∈ (g.insn i).op.operands) : v ∈ (f.insn i).op.operands ∨
      g.AvailAt v i ∧ ((g.value v).definition).isSome := by
  rcases Nat.lt_or_ge i.index f.insns.size with hold | hnew
  · rw [hs.insn i hold] at hv
    exact .inl hv
  · obtain ⟨hb, hi⟩ := hs.mem_copies hf hhome (hs.exact.live_of_reads_insn hv) hnew
    obtain ⟨front, rest, hcopies⟩ := append_of_mem hi
    have hlist : (g.block (f.insn call).block).insns =
        (before ++ front) ++ i :: (rest ++ call :: after) := by
      rw [hs.block, if_pos rfl, hcopies]
      simp
    rw [AvailAt, hb, hs.exact.front_eq hlist]
    rcases transcribed_at hcopy hcopies with
      ⟨front', k, rest', hsplit, hop, hfront⟩ | ⟨returned, out, hout, hi⟩
    · rw [hop, Op.operands_mapTargets, Op.operands_mapOperands, mem_map] at hv
      obtain ⟨w, hw, rfl⟩ := hv
      exact .inr (hs.availBefore_copy hf hc hhome hsplit hfront hw)
    · rw [hexit returned out hout] at hi
      cases hi

lemma wellFormed (hstraight : Straight callee) (hexit : ∀ returned js, exit returned js → js = []) :
    g.WellFormed := by
  have he := hs.extended hf hhome
  refine he.wellFormed hf (he.flow hf.flow hs.exact (fun q => .inr (.inr ⟨hs.phi q, Iff.rfl⟩))
    fun _ _ => hs.supplied_insn hf hc hhome hcopy hexit) (fun b => ?_) (fun b => ?_) (fun b hb => ?_)
    (fun b => ?_) fun i hnew hlive =>
      plain hcopy hstraight hexit i (hs.mem_copies hf hhome hlive hnew).2
  · rw [hs.block]
    split <;> rfl
  · rw [hs.block]
    split <;> rfl
  · rw [hs.block, if_neg, hb]
    rintro rfl
    rw [hb] at hhome
    simp [Ssa.Block.gone] at hhome
  · rw [hs.block]
    split
    · rename_i hb
      rw [← hb, hhome, getLast?_append_of_ne_nil _ (cons_ne_nil _ _),
        getLast?_append_of_ne_nil _ (cons_ne_nil _ _)]
    · rfl

end Flow

end Splicing

/-- What is returned is available behind the copies, so it can stand for the result of the call. -/
lemma Splicing.substitutes_result {s : Splice} {d v : ValueId}
    (hsplice : Splicing f callee call (f.insn call).op.operands before after
      (callee.block callee.entry).insns copies s g) (hf : f.WellFormed) (hc : Copyable callee)
    (hs : Straight callee) (hg : g.WellFormed)
    (hhome : (f.block (f.insn call).block).insns = before ++ call :: after)
    (hcopy : Transcribed callee g s.names.value (fun _ => (f.insn call).block)
      (fun returned js => js = [] ∧ s.returned = returned.map s.names.value)
      (callee.block callee.entry).insns copies) (hdest : (g.insn call).dest = some d)
    (hresult : s.returned = some v) : g.Substitutes d v := by
  obtain ⟨front, last, value, hinsns, hlast, hfront⟩ := hs.ends
  have hcopy' := hcopy
  rw [hinsns] at hcopy'
  obtain ⟨copied, out, rfl, ⟨rfl, hreturned⟩, -, hcopied⟩ := hcopy'.exits hlast hfront
  rw [hresult] at hreturned
  obtain ⟨w, rfl, rfl⟩ := Option.map_eq_some_iff.1 hreturned.symm
  obtain ⟨hav, hdef⟩ := hsplice.availBefore_copy hf hc hhome hinsns hcopied
    (w := w) (by simp [hlast, Op.operands])
  have hlist : (g.block (f.insn call).block).insns = (before ++ copied) ++ call :: after := by
    rw [hsplice.block, if_pos rfl, append_nil]
  exact hg.flow.substitutes hlist hdest hav hdef

end Dissolve.Inline
