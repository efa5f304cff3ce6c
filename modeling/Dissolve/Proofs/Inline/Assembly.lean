import Dissolve.Proofs.Inline.Connection

/-!
# Proofs.Inline.Assembly — what expanding a call builds

The stages of `expand` one after another: the copied phis get their operands (`PhisFilled`), after which
the caller holds a copy of the callee (`placed_of_stages`); the edges are drawn (`Placed.connected`),
and the returns are merged (`mergeReturns_ok`). `expand_ok` puts the stages together.
-/

namespace Dissolve.Inline

open List Ssa.Edit
open Ssa (Edit Function Op Position)
open Ssa.Function
open Semantics

variable {f g : Function} {c b : BlockId} {bound : Nat} {args operands : List ValueId}
  {copies : List (PhiId × PhiId)}

/-! ## Phis by block -/

lemma filter_phiIds (h : f.WellFormed) (hb : f.LiveBlock b) :
    f.phiIds.filter (fun q => decide ((f.phi q).block = b)) = (f.block b).phis := by
  have hown : ∀ c, (f.block c).phis.filter (fun q => decide ((f.phi q).block = b)) =
      if c = b then (f.block b).phis else [] := by
    intro c
    split
    · rename_i hc
      subst hc
      exact filter_eq_self.2 fun q hq =>
        decide_eq_true ((h.exact.phis_iff c q).1 hq).2
    · rename_i hc
      exact filter_eq_nil_iff.2 fun q hq hblock =>
        hc (((h.exact.phis_iff c q).1 hq).2.symm.trans (of_decide_eq_true hblock))
  have hlist : ∀ bs : List BlockId, bs.Nodup → b ∈ bs →
      (bs.flatMap fun c => (f.block c).phis).filter (fun q => decide ((f.phi q).block = b)) =
        (f.block b).phis := by
    intro bs hnodup hmem
    induction bs with
    | nil => cases hmem
    | cons c bs ih =>
      obtain ⟨hc, hnodup⟩ := nodup_cons.1 hnodup
      rw [flatMap_cons, filter_append, hown]
      by_cases hcb : c = b
      · subst hcb
        have hnone : (bs.flatMap fun d => (f.block d).phis).filter
            (fun q => decide ((f.phi q).block = c)) = [] := by
          rw [filter_flatMap, flatMap_eq_nil_iff]
          intro d hd
          rw [hown, if_neg]
          rintro rfl
          exact hc hd
        rw [if_pos rfl, hnone, append_nil]
      · rw [if_neg hcb, nil_append]
        exact ih hnodup ((mem_cons.1 hmem).resolve_left (Ne.symm hcb))
  exact hlist f.blockIds f.nodup_blockIds ((f.mem_blockIds b).2 hb)

/-! ## The operands of the copied phis -/

structure PhisFilled (g : Function) (copies : List (PhiId × PhiId)) (operands : PhiId → List ValueId)
    (g' : Function) : Prop where
  block : ∀ b, g'.block b = g.block b
  insns : g'.insns = g.insns
  blocks : g'.blocks.size = g.blocks.size
  phis : g'.phis.size = g.phis.size
  values : g'.values.size = g.values.size
  orderly : g'.Orderly
  other : ∀ q, q ∉ copies.map Prod.fst → g'.phi q = g.phi q
  filled : ∀ c ∈ copies, g'.phi c.1 = { g.phi c.1 with operands := operands c.2 }

lemma phisFilled_foldl (operands : PhiId → List ValueId) (horderly : g.Orderly)
    (hlive : ∀ c ∈ copies, g.LivePhi c.1)
    (hoperands : ∀ c ∈ copies, ∀ v ∈ operands c.2, g.HasValue v)
    (hnodup : (copies.map Prod.fst).Nodup) : PhisFilled g copies operands
      (copies.foldl (fun f c => f.setPhiOperands c.1 (operands c.2)) g) := by
  induction copies generalizing g with
  | nil =>
    exact ⟨fun _ => rfl, rfl, rfl, rfl, rfl, horderly, fun _ _ => rfl, nofun⟩
  | cons c copies ih =>
    rw [map_cons, nodup_cons] at hnodup
    have hphi := fun q => phi_setPhiOperands g c.1 (operands c.2) q
    have hlt := g.lt_phis_of_live (hlive c mem_cons_self)
    have hstep : (g.setPhiOperands c.1 (operands c.2)).Orderly :=
      ⟨horderly.exact.setPhiOperands (hoperands c mem_cons_self)
        (.inr (hlive c mem_cons_self)), by simpa using horderly.gone⟩
    have hrest := ih hstep
      (fun d hd => by
        rw [LivePhi, hphi]
        split <;> exact hlive d (mem_cons_of_mem _ hd))
      (fun d hd => by simpa using hoperands d (mem_cons_of_mem _ hd)) hnodup.2
    rw [foldl_cons]
    refine ⟨fun b => (hrest.block b).trans (by simp), hrest.insns.trans (by simp),
      hrest.blocks.trans (by simp), hrest.phis.trans (by simp), hrest.values.trans (by simp),
      hrest.orderly, fun q hq => ?_, fun d hd => ?_⟩
    · rw [map_cons, mem_cons, not_or] at hq
      rw [hrest.other q hq.2, hphi, if_neg fun hand => hq.1 hand.1.symm]
    · rcases mem_cons.1 hd with rfl | hd
      · rw [hrest.other d.1 hnodup.1, hphi, if_pos ⟨rfl, hlt⟩]
      · have hne : c.1 ≠ d.1 := fun heq => hnodup.1 (heq ▸ mem_map_of_mem hd)
        rw [hrest.filled d hd, hphi, if_neg fun hand => hne hand.1]

lemma exists_copy (hnodup : (copies.map Prod.snd).Nodup) :
    ∃ phi : PhiId → PhiId, ∀ c ∈ copies, phi c.2 = c.1 := by
  induction copies with
  | nil => exact ⟨id, nofun⟩
  | cons c copies ih =>
    rw [map_cons, nodup_cons] at hnodup
    obtain ⟨phi, hphi⟩ := ih hnodup.2
    refine ⟨Function.update phi c.2 c.1, fun d hd => ?_⟩
    rcases mem_cons.1 hd with rfl | hd
    · simp
    · have hne : d.2 ≠ c.2 := fun heq => hnodup.1 (heq ▸ mem_map_of_mem hd)
      rw [Function.update_of_ne hne, hphi d hd]

/-! ## The copy before it is connected -/

/-- The callee has been copied, and the block of the call split; nothing leads to the copy yet. -/
structure Placed (f callee : Function) (call : InsnId) (before after : List InsnId) (r : Renaming)
    (returns : List (BlockId × Option ValueId)) (size : Nat) (g : Function) : Prop
    extends Stocked f callee call r returns size g where
  block : ∀ b : BlockId, b.index < f.blocks.size → g.block b = { f.block b with
    insns := if b = (f.insn call).block then before ++ [call] else (f.block b).insns
    preds := (f.block b).preds.map fun p =>
      if p = (f.insn call).block then ⟨f.blocks.size⟩ else p }
  tail : g.block ⟨f.blocks.size⟩ = { insns := after }
  copy_preds : ∀ c, (callee.block c).removed = false →
    (g.block (r.block c)).preds = (callee.predecessors c).map r.block

section Stages

variable {callee g1 g2 g3 g4 g5 g6 : Function} {call : InsnId} {before after : List InsnId}
  {r r2 r3 : Renaming} {returns : List (BlockId × Option ValueId)}

lemma Naming.get?_value {size : Nat} (hc : callee.WellFormed)
    (hnaming : Naming callee args bound size
      ((copies.map fun c => .phi c.2) ++ callee.insnIds.map .insn) r.values)
    (hsnd : copies.map Prod.snd = callee.phiIds) {w : ValueId} {site : Site}
    (hw : callee.Defines w site) : r.values.get? w = some (r.value w) := by
  have hmem : site ∈ (copies.map fun c => Site.phi c.2) ++ callee.insnIds.map .insn := by
    cases site with
    | insn i =>
      exact mem_append_right _ (mem_map_of_mem (hc.mem_insnIds.2 (hc.exact.live_of_dest hw)))
    | phi q =>
      have hq := hc.mem_phiIds.2 hw.1
      rw [← hsnd] at hq
      obtain ⟨c, hmem, rfl⟩ := mem_map.1 hq
      exact mem_append_left _ (mem_map_of_mem (f := fun c => Site.phi c.2) hmem)
  obtain ⟨v, hv⟩ := hnaming.named site hmem w hw
  rw [Renaming.value, hv, Option.getD_some]

lemma pending_of_naming (hc : callee.WellFormed) (hargs : ∀ v ∈ args, v.index < bound)
    (hbound : bound ≤ g3.values.size) (hnaming : Naming callee args bound g4.values.size
      ((copies.map fun c => .phi c.2) ++ callee.insnIds.map .insn) r.values)
    (hsnd : copies.map Prod.snd = callee.phiIds) (hvalued : Valued g3 r3 g4 r)
    (hfresh : ∀ i ∈ callee.insnIds, (∀ index, (callee.insn i).op ≠ .argument index) → ∀ w v,
      (callee.insn i).dest = some w → r.values.get? w = some v → g3.values.size ≤ v.index) :
    Pending callee r g4 callee.insnIds := by
  have hname := fun (w : ValueId) (site : Site) (hw : callee.Defines w site) =>
    hnaming.get?_value hc hsnd hw
  have hlt := fun (w : ValueId) (site : Site) (hw : callee.Defines w site) =>
    hnaming.toBindings.lt hargs (hbound.trans hvalued.size) (hname w site hw)
  refine ⟨fun i _ v hv => ?_, fun i hi hparam w hw => ⟨hlt w (.insn i) hw, ?_⟩,
    fun i hi j hj hparam _ w w' hw hw' heq => ?_⟩
  · obtain ⟨site, hsite⟩ := Option.isSome_iff_exists.1 (hc.flow.defined v (.insn i) hv)
    exact hlt v site ((hc.exact.definition_iff v site).1 hsite)
  · have hle := hfresh i hi hparam w _ hw (hname w (.insn i) hw)
    rw [hvalued.definition, g3.value_of_size_le hle]
    rfl
  · have hget := hname w (.insn i) hw
    have hle := hfresh i hi hparam w _ hw hget
    have hsame := hnaming.inj w w' _ hget (heq ▸ hname w' (.insn j) hw') (hbound.trans hle)
    subst hsame
    exact hc.exact.insn_unique hw hw'

lemma room_of_stages (hroomed : Roomed g1 callee.blockIds r2 g2)
    (hphied : Phied g1 callee args r2.block copies r3 g3) (hkept : r3.blocks = r2.blocks)
    (hsize : g3.blocks.size = g2.blocks.size) (hvalued : Valued g3 r3 g4 r)
    (hlive : callee.LiveBlock c) :
    (g1.blocks.size ≤ (r.block c).index ∧ (r.block c).index < g3.blocks.size) ∧
      g4.block (r.block c) = { phis := (copies.filter fun x =>
        decide (r2.block (callee.phi x.2).block = r.block c)).map Prod.fst } := by
  obtain ⟨b, hb⟩ := hroomed.names.get c ((callee.mem_blockIds c).2 hlive)
  have hname : r.block c = b := by rw [Renaming.block, hvalued.blocks, hkept, hb, Option.getD_some]
  obtain ⟨hle, hlt⟩ := hroomed.names.range c b hb
  rw [← hsize] at hlt
  rw [hname]
  refine ⟨⟨hle, hlt⟩, ?_⟩
  rw [Ssa.Function.block, hvalued.same.1, ← Ssa.Function.block, hphied.room b hle hlt]

lemma inj_of_stages {d : BlockId} (hroomed : Roomed g1 callee.blockIds r2 g2)
    (hkept : r3.blocks = r2.blocks) (hvalued : Valued g3 r3 g4 r) (hc : callee.LiveBlock c)
    (hd : callee.LiveBlock d) (heq : r.block c = r.block d) : c = d := by
  obtain ⟨b, hb⟩ := hroomed.names.get c ((callee.mem_blockIds c).2 hc)
  obtain ⟨b', hb'⟩ := hroomed.names.get d ((callee.mem_blockIds d).2 hd)
  rw [Renaming.block, Renaming.block, hvalued.blocks, hkept, hb, hb'] at heq
  obtain rfl : b = b' := heq
  exact hroomed.names.inj c d b hb hb'

lemma placed_of_stages (hf : f.WellFormed) (hc : callee.WellFormed)
    (hhome : (f.block (f.insn call).block).insns = before ++ call :: after)
    (hsplit : Split f call before after g1) (hroomed : Roomed g1 callee.blockIds r2 g2)
    (hphied : Phied g1 callee (f.insn call).op.operands r2.block copies r3 g3)
    (hsnd : copies.map Prod.snd = callee.phiIds) (hkept : r3.blocks = r2.blocks)
    (hsize : g3.blocks.size = g2.blocks.size)
    (hnaming : Naming callee (f.insn call).op.operands f.values.size g4.values.size
      ((copies.map fun c => .phi c.2) ++ callee.insnIds.map .insn) r.values)
    (hvalued : Valued g3 r3 g4 r)
    (hfilled : Filled g4 callee r ⟨f.blocks.size⟩ callee.blockIds returns g5)
    (hphis : PhisFilled g5 copies (fun q => (callee.phi q).operands.map r.value) g6) :
    Placed f callee call before after r returns g4.values.size g6 := by
  obtain ⟨hblocks4, hinsns4, hphis4⟩ := hvalued.same
  have hrename : r.block = r2.block := by
    funext b
    rw [Renaming.block, Renaming.block, hvalued.blocks, hkept]
  have hnew := fun c hlive => (room_of_stages hroomed hphied hkept hsize hvalued (c := c) hlive).1
  have hbase := fun c hlive => (room_of_stages hroomed hphied hkept hsize hvalued (c := c) hlive).2
  have hinj := fun c d => inj_of_stages (c := c) (d := d) hroomed hkept hvalued
  -- what was there before
  have hcall : call ∉ after := (hf.exact.not_mem_of_split hhome).2
  have hcall_lt : f.HasInsn call := f.lt_insns_of_live (hf.exact.of_split hhome).1
  have hinsns : g4.insns.size = f.insns.size := by rw [hinsns4, hphied.insns, hsplit.insns]
  have hinsn6 : ∀ i, g6.insn i = g5.insn i := fun i => by
    rw [Ssa.Function.insn, hphis.insns, ← Ssa.Function.insn]
  have hinsn : ∀ i : InsnId, i.index < f.insns.size → g6.insn i = g1.insn i := by
    intro i hi
    rw [hinsn6, hfilled.insn i (by rwa [hinsns]), Ssa.Function.insn, hinsns4, hphied.insns,
      ← Ssa.Function.insn]
  have hphi3 : ∀ q, g5.phi q = g3.phi q := fun q => by
    rw [Ssa.Function.phi, hfilled.phis, hphis4, ← Ssa.Function.phi]
  have hphis_size : g6.phis.size = g3.phis.size := by rw [hphis.phis, hfilled.phis, hphis4]
  have hold : ∀ c ∈ copies, f.phis.size ≤ c.1.index := fun c hmem => by
    have := (hphied.copies c hmem).1
    rwa [hsplit.phis] at this
  -- blocks
  have hother : ∀ b : BlockId, b.index < g1.blocks.size → g6.block b = g1.block b := by
    intro b hb
    rw [hphis.block, hfilled.other b ?_, Ssa.Function.block, hblocks4, ← Ssa.Function.block,
      hphied.ahead.block b hb]
    intro c hmem heq
    have := (hnew c ((callee.mem_blockIds c).1 hmem)).1
    rw [heq] at this
    omega
  have hnodup : (copies.map Prod.snd).Nodup := by
    rw [hsnd]
    exact hc.nodup_phiIds
  obtain ⟨phi, hphi⟩ := exists_copy hnodup
  have hlist : ∀ c, callee.LiveBlock c → (copies.filter fun x =>
      decide (r2.block (callee.phi x.2).block = r.block c)).map Prod.fst =
        (callee.block c).phis.map phi := by
    intro c hlive
    have hsame : copies.filter (fun x => decide (r2.block (callee.phi x.2).block = r.block c)) =
        copies.filter fun x => decide ((callee.phi x.2).block = c) := by
      refine filter_congr fun x hx => decide_eq_decide.2 ⟨fun heq => ?_, fun heq => ?_⟩
      · have hq : x.2 ∈ callee.phiIds := by
          rw [← hsnd]
          exact mem_map_of_mem hx
        rw [← hrename] at heq
        exact hinj _ _ (hc.orderly.live_block_of_phi (hc.mem_phiIds.1 hq)) hlive heq
      · rw [heq, hrename]
    have hmap : ∀ xs : List (PhiId × PhiId), (∀ x ∈ xs, phi x.2 = x.1) →
        (xs.filter fun x => decide ((callee.phi x.2).block = c)).map Prod.fst =
          ((xs.map Prod.snd).filter fun q => decide ((callee.phi q).block = c)).map phi := by
      intro xs hxs
      rw [filter_map, map_map]
      exact map_congr_left fun x hx => (hxs x (mem_of_mem_filter hx)).symm
    rw [hsame, hmap copies hphi, hsnd, filter_phiIds hc hlive]
  have hcopied : ∀ c, callee.LiveBlock c → ∃ js, g6.block (r.block c) =
      { phis := (callee.block c).phis.map phi, insns := js,
        preds := (callee.predecessors c).map r.block } ∧
      (∀ j ∈ js, f.insns.size ≤ j.index ∧ j.index < g5.insns.size) ∧
      Transcribed callee g5 r.value r.block (Jumps g5 r.value ⟨f.blocks.size⟩ (r.block c) returns)
        (callee.block c).insns js := by
    intro c hlive
    obtain ⟨js, hjs, hfresh, htranscribed⟩ := hfilled.copy c ((callee.mem_blockIds c).2 hlive)
    refine ⟨js, ?_, hinsns ▸ hfresh, htranscribed⟩
    rw [hphis.block, hjs, hbase c hlive, hlist c hlive]
    rfl
  have hsize6 : g6.blocks.size = g3.blocks.size := by rw [hphis.blocks, hfilled.blocks, hblocks4]
  have hvalues : f.values.size ≤ g3.values.size := by
    have := hphied.ahead.values
    rwa [hsplit.values] at this
  exact
    { orderly := hphis.orderly
      kept := by rw [hinsn call hcall_lt, hsplit.insn, if_neg hcall]
      insn := fun i hi => by
        rw [hinsn i hi, hsplit.insn]
        split <;> exact ⟨rfl, rfl⟩
      phi := fun q hq => by
        rw [hphis.other q fun hmem => ?_, hphi3, hphied.ahead.phi q (by rwa [hsplit.phis]),
          Ssa.Function.phi, hsplit.phis, ← Ssa.Function.phi]
        obtain ⟨c, hc, rfl⟩ := mem_map.1 hmem
        exact absurd hq (Nat.not_lt.2 (hold c hc))
      insns_le := by
        rw [hphis.insns, ← hinsns]
        exact hfilled.insns
      phis_le := by
        rw [hphis_size, ← hsplit.phis]
        exact hphied.ahead.phis
      bindings := hnaming.toBindings
      room := ⟨hvalues.trans hvalued.size, by rw [hphis.values, hfilled.values]⟩
      named := fun w site hw => hnaming.get?_value hc hsnd hw
      block_new := fun c hlive => by
        have := hnew c hlive
        rw [hsplit.blocks] at this
        omega
      block_inj := hinj
      block_onto := fun b hle hlt => by
        rw [hsize6, hsize] at hlt
        obtain ⟨c, hmem, hget⟩ := hroomed.names.onto b (by rw [hsplit.blocks]; omega) hlt
        exact ⟨c, (callee.mem_blockIds c).1 hmem, by rw [hrename, Renaming.block, hget, Option.getD_some]⟩
      copy := fun c hlive => by
        obtain ⟨js, hjs, hfresh, htranscribed⟩ := hcopied c hlive
        rw [← hphis.insns] at hfresh
        refine ⟨by rw [hjs], by rw [hjs], by rw [hjs]; exact hfresh, ?_, phi, by rw [hjs], fun q hq => ?_⟩
        · rw [hjs]
          exact transcribed_mono (fun i _ => hinsn6 i) (by rw [hphis.insns]) (List.Subset.refl _)
            (fun j hj => by rw [← hphis.insns]; exact (hfresh j hj).2) htranscribed
        · have hmem : q ∈ copies.map Prod.snd := by
            rw [hsnd]
            exact hc.mem_phiIds.2 ((hc.exact.phis_iff c q).1 hq).1
          obtain ⟨x, hx, rfl⟩ := mem_map.1 hmem
          obtain ⟨-, hlt, hget⟩ := hphied.copies x hx
          rw [hphi x hx, hphis.filled x hx, hphis_size]
          refine ⟨hlt, ?_, rfl⟩
          rw [hphi3, Renaming.value, hvalued.kept _ _ hget, Option.getD_some]
      origin := fun p hp => by
        obtain ⟨c, hmem, hrest⟩ := hfilled.origin p hp
        exact ⟨c, (callee.mem_blockIds c).1 hmem, hrest⟩
      distinct := hfilled.distinct
      block := fun b hb => by
        rw [hother b (by rw [hsplit.blocks]; omega), hsplit.block b hb]
      tail := by rw [hother _ (by rw [hsplit.blocks]; exact Nat.lt_succ_self _), hsplit.tail]
      copy_preds := fun c hlive => by
        obtain ⟨js, hjs, -⟩ := hcopied c hlive
        rw [hjs] }

end Stages

/-! ## Connecting the copy -/

section Connect

variable {callee g' : Function} {call jump : InsnId} {before after : List InsnId} {r : Renaming}
  {returns : List (BlockId × Option ValueId)} {size : Nat} {result : Option ValueId}

/-- A jump leads from the call to the copy, and the returns lead behind the call. -/
lemma Placed.connected (h : Placed f callee call before after r returns size g)
    (hf : f.WellFormed) (hc : callee.WellFormed)
    (hhome : (f.block (f.insn call).block).insns = before ++ call :: after) (position : Position) :
    Expanded f callee call before after r ⟨g.insns.size⟩ returns [] size
      (returns.foldl (fun f' p => f'.addPredecessor ⟨f.blocks.size⟩ p.1)
        ((g.appendInsn (f.insn call).block (.goto (r.block callee.entry)) none position).2.addPredecessor
          (r.block callee.entry) (f.insn call).block)) := by
  have hlt := f.lt_blocks_of_live (hf.orderly.live_of_split hhome)
  have hcall : f.HasInsn call := f.lt_insns_of_live (hf.exact.of_split hhome).1
  obtain ⟨hentry_gt, hentry_lt⟩ := h.block_new _ hc.entry_live
  have hhead := h.block _ hlt
  have hlive : (g.block (f.insn call).block).removed = false := by
    rw [hhead]
    exact hf.orderly.live_of_split hhome
  have hlt' := g.lt_blocks_of_live hlive
  -- the jump
  have happ := Appended.appendInsn hlt' (.goto (r.block callee.entry)) none position
  have hop : ((g.appendInsn (f.insn call).block (.goto (r.block callee.entry)) none position).2.insn
      ⟨g.insns.size⟩).op = .goto (r.block callee.entry) := by
    rw [insn_appendInsn, if_pos rfl]
  have hvoid : ((g.appendInsn (f.insn call).block (.goto (r.block callee.entry)) none
      position).2.insn ⟨g.insns.size⟩).dest = none := by
    rw [insn_appendInsn, if_pos rfl]
  have horderly : (g.appendInsn (f.insn call).block (.goto (r.block callee.entry)) none
      position).2.Orderly :=
    h.orderly.appendInsn position hlive ⟨nofun, fun d hd => by cases hd⟩
  generalize (g.appendInsn (f.insn call).block (.goto (r.block callee.entry)) none position).2 = g1
    at happ hop hvoid horderly ⊢
  -- the edge into the copy
  have hentry : ∀ b, (g1.addPredecessor (r.block callee.entry) (f.insn call).block).block b =
      if r.block callee.entry = b then
        { g1.block b with preds := (g1.block b).preds ++ [(f.insn call).block] }
      else g1.block b := fun b =>
    block_addPredecessors (k := fun _ : Unit => (f.insn call).block) (by rwa [happ.blocks]) [()] b
  have hcopy1 : ∀ c, callee.LiveBlock c →
      g1.block (r.block c) = g.block (r.block c) := by
    intro c hlive
    have := (h.block_new c hlive).1
    rw [happ.block, if_neg fun heq => absurd hlt (by rw [heq]; omega)]
  have horderly2 : (g1.addPredecessor (r.block callee.entry) (f.insn call).block).Orderly :=
    orderly_addPredecessors (k := fun _ : Unit => (f.insn call).block) horderly
      (by rw [hcopy1 _ hc.entry_live, (h.copy _ hc.entry_live).live]) [()]
  have hsize2 : (g1.addPredecessor (r.block callee.entry) (f.insn call).block).blocks.size =
      g.blocks.size := by
    rw [← happ.blocks]
    simp [addPredecessor]
  have htail : (g1.addPredecessor (r.block callee.entry) (f.insn call).block).block ⟨f.blocks.size⟩ =
      { insns := after } := by
    rw [hentry, if_neg fun heq => absurd hentry_gt (by rw [heq]; exact Nat.lt_irrefl _), happ.block,
      if_neg fun heq => absurd hlt (by rw [heq]; exact Nat.lt_irrefl _), h.tail]
  -- the edges behind the call
  have hblock := fun b => block_addPredecessors
    (g := g1.addPredecessor (r.block callee.entry) (f.insn call).block) (b := ⟨f.blocks.size⟩)
    (k := Prod.fst) (by rw [hsize2]; exact hentry_gt.trans hentry_lt) returns b
  have horderly3 := orderly_addPredecessors (k := Prod.fst) horderly2 (by rw [htail]) returns
  obtain ⟨hinsns, hphis, hvalues, hblocks⟩ := insns_addPredecessors
    (g := g1.addPredecessor (r.block callee.entry) (f.insn call).block) (b := ⟨f.blocks.size⟩)
    (k := Prod.fst) returns
  generalize returns.foldl (fun f' p => f'.addPredecessor ⟨f.blocks.size⟩ p.1)
    (g1.addPredecessor (r.block callee.entry) (f.insn call).block) = g3
    at hblock horderly3 hinsns hphis hvalues hblocks ⊢
  have hcopy : ∀ c, callee.LiveBlock c → g3.block (r.block c) =
      { g.block (r.block c) with preds := if c = callee.entry then [(f.insn call).block]
        else (callee.predecessors c).map r.block } := by
    intro c hlive
    have hgt := (h.block_new c hlive).1
    have hpreds := h.copy_preds c hlive
    rw [hblock, if_neg fun heq => absurd hgt (by rw [← heq]; exact Nat.lt_irrefl _), hentry,
      hcopy1 c hlive]
    by_cases hce : c = callee.entry
    · subst hce
      rw [if_pos rfl, if_pos rfl, hpreds, hc.flow.entry_preds]
      rfl
    · rw [if_neg fun heq => hce (h.block_inj _ _ hc.entry_live hlive heq).symm, if_neg hce, ← hpreds]
  have hinsn : ∀ i, g3.insn i = g1.insn i := fun i => by
    rw [Ssa.Function.insn, hinsns, ← Ssa.Function.insn]
    rfl
  have hold : ∀ i : InsnId, i.index < g.insns.size → g3.insn i = g.insn i := fun i hi => by
    rw [hinsn, happ.insn i hi]
  have hsize : g3.insns.size = g1.insns.size := by
    rw [hinsns]
    rfl
  have hphis3 : g3.phis = g.phis := hphis.trans happ.phis
  have hstocked := h.toStocked.congr (hcall.trans_le h.insns_le) horderly3 hold
    (fun q _ => by rw [Ssa.Function.phi, hphis3, ← Ssa.Function.phi])
    (fun c hlive => ⟨_, hcopy c hlive⟩) (happ.insns.trans_eq hsize.symm)
    (by rw [hphis3]) (by rw [hblocks, hsize2]) (by rw [hvalues, ← happ.values]; rfl)
  exact
    { toStocked := hstocked
      block := fun b hb => by
        have hne : r.block callee.entry ≠ b := fun heq => absurd hb (by rw [← heq]; omega)
        rw [hblock, if_neg fun heq => absurd hb (by rw [← heq]; exact Nat.lt_irrefl _), hentry,
          if_neg hne, happ.block, h.block b hb]
        by_cases hbc : b = (f.insn call).block
        · rw [if_pos hbc.symm, if_pos hbc, if_pos hbc]
          simp
        · rw [if_neg (Ne.symm hbc), if_neg hbc, if_neg hbc]
      jumps := ⟨h.insns_le, by rw [hsize]; exact (happ.fresh _ (mem_singleton_self _)).2,
        by rw [hinsn, hop]⟩
      jump_void := by rw [hinsn, hvoid]
      tail := by
        rw [hblock, if_pos rfl, htail]
        rfl
      copy_preds := fun c hlive => by rw [hcopy c hlive] }

lemma returnedValues_ok (hrun : (returns.mapM returnedValue).run g = .ok operands g') :
    g' = g ∧ returns.map Prod.snd = operands.map some := by
  induction returns generalizing operands g with
  | nil =>
    cases hrun
    exact ⟨rfl, rfl⟩
  | cons p returns ih =>
    rw [mapM_cons] at hrun
    obtain ⟨v, g1, hfirst, hrun⟩ := ok_of_bind hrun
    obtain ⟨vs, g2, hrest, hrun⟩ := ok_of_bind hrun
    cases hrun
    obtain ⟨b, returned⟩ := p
    cases returned with
    | none => cases hfirst
    | some v =>
      cases hfirst
      obtain ⟨rfl, hmap⟩ := ih hrest
      exact ⟨rfl, by rw [map_cons, hmap]; rfl⟩

lemma Expanded.returned_lt {merge : List PhiId}
    (he : Expanded f callee call before after r jump returns merge size g) (hf : f.WellFormed)
    (hc : callee.WellFormed) {p : BlockId × Option ValueId} (hp : p ∈ returns) {v : ValueId}
    (hv : p.2 = some v) : v.index < size := by
  obtain ⟨-, -, -, k, -, returned, hret, hreturned⟩ := he.origin p hp
  obtain ⟨u, rfl, rfl⟩ := Option.map_eq_some_iff.1 (hreturned.symm.trans hv)
  obtain ⟨site, hdef⟩ := Option.isSome_iff_exists.1 (hc.flow.defined u (.insn k)
    (by rw [Reads, hret]; exact mem_singleton_self _))
  exact he.value_lt hf ((hc.exact.definition_iff u site).1 hdef)

lemma Expanded.merged (he : Expanded f callee call before after r jump returns [] size g)
    (hf : f.WellFormed) (hc : callee.WellFormed)
    (hhome : (f.block (f.insn call).block).insns = before ++ call :: after) (ty : ValueType)
    (hoperands : returns.map Prod.snd = operands.map some) :
    Expanded f callee call before after r jump returns [⟨g.phis.size⟩] size
      ((g.insertPhi ⟨f.blocks.size⟩ ty).2.setPhiOperands ⟨g.phis.size⟩ operands) := by
  have hlive : g.LiveBlock ⟨f.blocks.size⟩ := by rw [LiveBlock, he.tail]
  have hlt := g.lt_blocks_of_live hlive
  have hphi : ∀ q, g.HasPhi q →
      ((g.insertPhi ⟨f.blocks.size⟩ ty).2.setPhiOperands ⟨g.phis.size⟩ operands).phi q = g.phi q := by
    intro q hq
    rw [phi_setPhiOperands, if_neg fun hand => absurd hq (by rw [← hand.1]; exact Nat.lt_irrefl _),
      phi_insertPhi, if_neg (Nat.ne_of_lt hq)]
  have hbound : ∀ v ∈ operands, v.index < (g.insertPhi ⟨f.blocks.size⟩ ty).2.values.size := by
    intro v hv
    have hmem : some v ∈ returns.map Prod.snd := by
      rw [hoperands]
      exact mem_map_of_mem hv
    obtain ⟨p, hp, hpv⟩ := mem_map.1 hmem
    have := he.returned_lt hf hc hp hpv
    have := he.room.2
    rw [size_values_insertPhi]
    omega
  have horderly := he.orderly.insertPhi ty hlive
  have hblock : ∀ b : BlockId, b.index ≠ f.blocks.size →
      ((g.insertPhi ⟨f.blocks.size⟩ ty).2.setPhiOperands ⟨g.phis.size⟩ operands).block b =
        g.block b := by
    intro b hb
    rw [block_setPhiOperands, block_insertPhi, if_neg fun hand => hb (by rw [← hand.1])]
  have hcopy : ∀ c, callee.LiveBlock c → _ := fun c hlive =>
    hblock (r.block c) (Nat.ne_of_gt (he.block_new c hlive).1)
  have horderly' : ((g.insertPhi ⟨f.blocks.size⟩ ty).2.setPhiOperands ⟨g.phis.size⟩ operands).Orderly :=
    ⟨horderly.exact.setPhiOperands hbound (.inr (by rw [LivePhi, phi_insertPhi, if_pos rfl])),
      by simpa using horderly.gone⟩
  have hstocked := he.toStocked.congr
    ((f.lt_insns_of_live (hf.exact.of_split hhome).1).trans_le he.insns_le) horderly'
    (fun i _ => by simp) hphi (fun c hlive => ⟨_, hcopy c hlive⟩) (by simp) (by simp) (by simp) (by simp)
  exact
    { toStocked := hstocked
      block := fun b hb => by rw [hblock b (Nat.ne_of_lt hb), he.block b hb]
      jumps := by simpa using he.jumps
      jump_void := by simpa using he.jump_void
      tail := by
        rw [block_setPhiOperands, block_insertPhi, if_pos ⟨rfl, hlt⟩, he.tail]
        rfl
      copy_preds := fun c hlive => by rw [hcopy c hlive, he.copy_preds c hlive] }

theorem mergeReturns_ok (he : Expanded f callee call before after r jump returns [] size g)
    (hf : f.WellFormed) (hc : callee.WellFormed)
    (hhome : (f.block (f.insn call).block).insns = before ++ call :: after)
    (hrun : (mergeReturns call ⟨f.blocks.size⟩ returns).run g = .ok result g') :
    ∃ merge, Expanded f callee call before after r jump returns merge size g' ∧
      Merge f call size g' returns result merge := by
  unfold mergeReturns at hrun
  split at hrun
  · cases hrun
    exact ⟨[], he, .never⟩
  · cases hrun
    exact ⟨[], he, .one _ _⟩
  · rename_i hsome _
    obtain ⟨g1, g2, ⟨⟩, hrun⟩ := ok_of_bind hrun
    rw [he.kept] at hrun
    cases hdest : (f.insn call).dest with
    | none =>
      simp only [hdest] at hrun
      cases hrun
      exact ⟨[], he, .unread hdest⟩
    | some d =>
      simp only [hdest] at hrun
      obtain ⟨operands, g1, hvalues, hphi⟩ := ok_of_bind hrun
      obtain ⟨rfl, hoperands⟩ := returnedValues_ok hvalues
      obtain ⟨rfl, rfl⟩ : g' = ((g1.insertPhi ⟨f.blocks.size⟩ (g1.value d).ty).2.setPhiOperands
          ⟨g1.phis.size⟩ operands) ∧
          result = some (((g1.insertPhi ⟨f.blocks.size⟩ (g1.value d).ty).2.setPhiOperands
            ⟨g1.phis.size⟩ operands).phi ⟨g1.phis.size⟩).value := by
        cases hphi
        exact ⟨rfl, rfl⟩
      have hphi : ((g1.insertPhi ⟨f.blocks.size⟩ (g1.value d).ty).2.setPhiOperands ⟨g1.phis.size⟩
          operands).phi ⟨g1.phis.size⟩ =
            { value := ⟨g1.values.size⟩, block := ⟨f.blocks.size⟩, operands := operands } := by
        rw [phi_setPhiOperands, if_pos ⟨rfl, by simp⟩, phi_insertPhi, if_pos rfl]
      exact ⟨_, he.merged hf hc hhome _ hoperands,
        .phi hsome (by rw [hphi]; exact hoperands) (by rw [hphi]; exact he.room.2)⟩

end Connect

/-! ## Expanding -/

section Run

lemma Roomed.phied {done : List BlockId} {r : Renaming} (h : Roomed f done r g)
    (callee : Function) (args : List ValueId) : Phied f callee args r.block [] r g where
  ahead := h.ahead
  orderly := h.orderly
  renames := rfl
  room := h.room
  copies := nofun
  distinct := nodup_nil
  naming := by
    rw [h.values]
    exact .empty
  insns := h.same.1

variable {callee h : Function} {call : InsnId} {answer : InlinedCall}

/-- What expanding a call builds, up to the removal of the call. -/
theorem expand_ok (hf : f.WellFormed) (hc : callee.WellFormed) (hu : Unguarded f callee call)
    (hlive : f.LiveInsn call)
    (hrun : (expand call callee (f.insn call).op.operands).run f = .ok answer h) :
    ∃ before after r jump returns merge size result g,
      Opened f callee call before after r jump returns merge size g ∧
      Merge f call size g returns result merge ∧
      (returns = [] ∧ (Ssa.removeInsn call).run g.removeUnreachableBlocks.2 = .ok () h ∨
        returns ≠ [] ∧ ∃ g', (bindResult call result).run g = .ok () g' ∧
          (Ssa.removeInsn call).run g' = .ok () h) := by
  have hargs : ∀ v ∈ (f.insn call).op.operands, v.index < f.values.size := fun v hv =>
    hf.exact.lt_of_reads (show f.Reads v (.insn call) from hv)
  obtain ⟨before, after, hhome⟩ := hf.exact.exists_split hlive
  obtain ⟨f', f'', ⟨⟩, hrun⟩ := ok_of_bind hrun
  simp only [hf.exact.positionInBlock?_eq hhome] at hrun
  obtain ⟨continuation, g1, hrun1, hrun⟩ := ok_of_bind hrun
  obtain ⟨rfl, hsplit⟩ := splitBlock_ok hf hhome hrun1
  -- blocks
  obtain ⟨r2, g2, hrun2, hrun⟩ := ok_of_bind hrun
  have hroomed := (Roomed.start hsplit.orderly).loop callee.nodup_blockIds hrun2
  -- phis
  obtain ⟨⟨copies, r3⟩, g3, hrun3, hrun⟩ := ok_of_bind hrun
  have hargs1 : ∀ v ∈ (f.insn call).op.operands, v.index < g1.values.size := by rwa [hsplit.values]
  have hplace : ∀ q ∈ callee.phiIds, g1.blocks.size ≤ (r2.block (callee.phi q).block).index ∧
      (r2.block (callee.phi q).block).index < g2.blocks.size := by
    intro q hq
    have hlive := hc.orderly.live_block_of_phi (hc.mem_phiIds.1 hq)
    obtain ⟨b, hb⟩ := hroomed.names.get _ ((callee.mem_blockIds _).2 hlive)
    rw [Renaming.block, hb]
    exact hroomed.names.range _ b hb
  obtain ⟨hphied, hsnd, hkept, hsize⟩ := (hroomed.phied callee (f.insn call).op.operands).loop
    hc.exact hargs1 (fun q hq => hc.mem_phiIds.1 hq) hplace hc.nodup_phiIds
    (fun _ _ c hmem => absurd hmem not_mem_nil) hrun3
  -- values
  obtain ⟨r, g4, hrun4, hrun⟩ := ok_of_bind hrun
  have hbound : f.values.size ≤ g3.values.size := by
    have := hphied.ahead.values
    rwa [hsplit.values] at this
  have hstart := hphied.naming
  rw [hsplit.values] at hstart
  obtain ⟨hnaming, horderly4, hvalued, hfresh⟩ := renameDest_loop hc.exact hargs hc.nodup_insnIds
    (fun i _ hmem => by simp at hmem) hbound hstart hphied.orderly hrun4
  -- instructions
  obtain ⟨e, g5, hrun5, hrun⟩ := ok_of_bind hrun
  have hroom := fun c hlive => room_of_stages hroomed hphied hkept hsize hvalued (c := c) hlive
  have hlive : ∀ c ∈ callee.blockIds, g4.LiveBlock (r.block c) := fun c hmem => by
    rw [LiveBlock, (hroom c ((callee.mem_blockIds c).1 hmem)).2]
  have hfilled := (Filled.start callee r ⟨f.blocks.size⟩ horderly4).loop hc hlive
    (fun c hmem d hd heq => inj_of_stages hroomed hkept hvalued ((callee.mem_blockIds d).1 hd)
      ((callee.mem_blockIds c).1 hmem) heq)
    callee.nodup_blockIds (pending_of_naming hc hargs hbound hnaming hsnd hvalued hfresh) hc.nodup_insnIds
    hrun5
  -- operands of the phis
  have hphi : ∀ q, g5.phi q = g3.phi q := fun q => by
    rw [Ssa.Function.phi, hfilled.phis, hvalued.same.2.2, ← Ssa.Function.phi]
  have hphi_live : ∀ c ∈ copies, g3.LivePhi c.1 := by
    intro c hmem
    obtain ⟨hle, hlt⟩ := hplace c.2 (hsnd ▸ mem_map_of_mem hmem)
    have hlisted : c.1 ∈ (g3.block (r2.block (callee.phi c.2).block)).phis := by
      rw [hphied.room _ hle (hsize ▸ hlt)]
      exact mem_map_of_mem (mem_filter.2 ⟨hmem, by simp⟩)
    exact ((hphied.orderly.exact.phis_iff _ _).1 hlisted).1
  have hoperands : ∀ c ∈ copies, ∀ v ∈ (callee.phi c.2).operands.map r.value,
      v.index < g5.values.size := by
    intro c hmem v hv
    obtain ⟨u, hu, rfl⟩ := mem_map.1 hv
    obtain ⟨site, hdef⟩ := Option.isSome_iff_exists.1
      (hc.flow.defined u (.phi c.2) (show callee.Reads u (.phi c.2) from hu))
    rw [hfilled.values]
    exact hnaming.toBindings.lt hargs (hbound.trans hvalued.size)
      (hnaming.get?_value hc hsnd ((hc.exact.definition_iff u site).1 hdef))
  have hphis := phisFilled_foldl (fun q => (callee.phi q).operands.map r.value) hfilled.orderly
    (fun c hmem => by rw [LivePhi, hphi, hphi_live c hmem]) hoperands hphied.distinct
  have hplaced := placed_of_stages hf hc hhome hsplit hroomed hphied hsnd hkept hsize hnaming hvalued
    hfilled hphis
  have hexpanded := hplaced.connected hf hc hhome (.derived (f.insn call).position.offset)
  obtain ⟨_, g6, ⟨⟩, hrun⟩ := ok_of_bind hrun
  obtain ⟨_, g7, ⟨⟩, hrun⟩ := ok_of_bind hrun
  obtain ⟨_, g8, ⟨⟩, hrun⟩ := ok_of_bind hrun
  obtain ⟨result, g, hmerge, hrun⟩ := ok_of_bind hrun
  obtain ⟨merge, hexpanded, hmerge⟩ := mergeReturns_ok hexpanded hf hc hhome hmerge
  refine ⟨before, after, r, _, _, merge, _, result, g, ⟨hexpanded, hu, hf, hc, hhome⟩, hmerge, ?_⟩
  split at hrun
  · rename_i hempty
    obtain ⟨_, g', ⟨⟩, hrun⟩ := ok_of_bind hrun
    obtain ⟨_, g'', hremove, ⟨⟩⟩ := ok_of_bind hrun
    exact .inl ⟨isEmpty_iff.1 hempty, hremove⟩
  · rename_i hsome
    obtain ⟨_, g', hbind, hrun⟩ := ok_of_bind hrun
    obtain ⟨_, g'', hremove, hrun⟩ := ok_of_bind hrun
    cases hrun
    exact .inr ⟨fun heq => hsome (isEmpty_iff.2 heq), g', hbind, hremove⟩

end Run

end Dissolve.Inline
