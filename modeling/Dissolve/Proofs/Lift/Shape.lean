import Dissolve.Proofs.Inline.Formed
import Dissolve.Proofs.Lift.Outcome
import Dissolve.Proofs.Ssa.Regular

/-!
# Proofs.Lift.Shape — the shape of lifted functions

A lifted function is regular (`lift_regular`): its terminators define nothing, its handlers lead to
blocks that begin with the caught exception, and control reaches every block. Its entry has no phis, so
its body can be copied into a caller (`lift_copyable`).
-/

namespace Dissolve.Lift

open List
open Ssa (Function Op)
open Progress

variable {s : Subject} {layout : Layout} {order : List Nat} {separate : Bool}
  {p1 q start p p' : Progress} {b : BlockId} {i : InsnId} {f : Function}

lemma insn_later {gaps gaps' : List Gap} (hs : p.Sound gaps) (hlater : Later p p' gaps gaps')
    (hi : i ∈ (p.func.block b).insns) :
    (p'.func.insn i).dest = (p.func.insn i).dest ∧
      (p'.func.insn i).op = (p.func.insn i).op.mapOperands p'.resolve := by
  have hlive := ((hs.flow.exact.insns_iff b i).1 hi).1
  rw [hlater.insn i (p.func.lt_insns_of_live hlive)]
  exact ⟨rfl, rfl⟩

section Lifted

variable {k : Nat} {first last : Progress}

lemma Lifted.last_dest (h : Lifted s layout k p q first last b) :
    ∃ i, (p.func.block b).insns.getLast? = some i ∧ (p.func.insn i).dest = none := by
  obtain ⟨r, q', -, hcrossed, hlater, hinsns⟩ := h.crossed
  obtain ⟨i, hlast, hdest⟩ := hcrossed.rounded.last_dest
  have hsound := hcrossed.rounded.ended.1.sound
  have hmem : i ∈ (last.func.block b).insns := mem_of_getLast? hlast
  refine ⟨i, by rw [hinsns, hcrossed.leaves.insns, hlast], ?_⟩
  rw [(insn_later hsound (hcrossed.leaves.later.trans hlater) hmem).1, hdest]

lemma Lifted.beginsCaught (h : Lifted s layout k p q first last b) (hhandler : layout.isHandler k)
    (hempty : (q.func.block b).insns = []) : p.func.BeginsCaught b := by
  obtain ⟨r, q', -, hcrossed, hlater, -⟩ := h.crossed
  obtain ⟨i, guard, hinsns, hop, -⟩ := hcrossed.entered.caught hhandler
  have hbefore : ((q.setting q.stack q.shapes b r.start).func.block b).insns = [] := hempty
  rw [hbefore, nil_append] at hinsns
  have hall : Later first p [] [] :=
    (hcrossed.rounded.ended.2.1.later.trans hcrossed.leaves.later).trans hlater
  obtain ⟨rest, hrest⟩ := hall.insns b
  refine ⟨i, rest, guard, ?_, ?_⟩
  · rw [← hrest, hinsns]
    rfl
  · rw [(insn_later hcrossed.entered.inBlock.sound hall (b := b) (by simp [hinsns])).2, hop]
    rfl

end Lifted

section Going

variable (h : Going s layout order separate start order p) (horder : Ordered layout order)

include h horder

lemma Going.last_dest (hbegun : Begun s separate p1 q start) (hlive : p.func.LiveBlock b) :
    ∃ i, (p.func.block b).insns.getLast? = some i ∧ (p.func.insn i).dest = none := by
  have hdone := h.done_all (p.func.lt_blocks_of_live hlive) horder
  rcases (h.done b).1 hdone with ⟨hsep, hentry⟩ | ⟨k, hk, hb⟩
  · obtain ⟨i, first, -, hinsns, -, hdest⟩ := hbegun.apart hsep
    have hstart : b ∈ start.done := by
      rw [hbegun.done, hsep, hentry]
      exact mem_singleton_self _
    have hmem : i ∈ (start.func.block b).insns := by
      rw [hentry]
      exact hinsns ▸ by simp
    refine ⟨i, ?_, ?_⟩
    · rw [h.kept b hstart, hentry]
      exact hinsns ▸ by simp
    · rw [(insn_later hbegun.sound h.later hmem).1, hdest]
  · obtain ⟨q', first, last, hlifted, -⟩ := h.lifted k hk b hb
    exact hlifted.last_dest

lemma Going.void (hbegun : Begun s separate p1 q start) (hterm : (p.func.insn i).op.isTerminator) :
    (p.func.insn i).dest = none := by
  have hwf := h.wellFormed horder
  have hi := hwf.exact.live_of_terminator hterm
  have hmem := (hwf.exact.insns_iff _ i).2 ⟨hi, rfl⟩
  have hlive := hwf.orderly.live_block_of_insn hi
  obtain ⟨front, last, hinsns, -, hfront⟩ := hwf.terminated _ hlive
  obtain ⟨j, hlast, hdest⟩ := h.last_dest horder hbegun hlive
  rw [hinsns] at hmem
  rcases mem_append.1 hmem with hmem | hmem
  · rw [hfront i hmem] at hterm
    cases hterm
  · rw [hinsns, getLast?_append, getLast?_singleton] at hlast
    obtain rfl := mem_singleton.1 hmem
    obtain rfl : i = j := by simpa using hlast
    exact hdest

lemma Going.handler_range (hlays : layout.Lays s.body.instructions) {handler : Ssa.Handler}
    (hmem : handler ∈ (p.func.block b).handlers) :
    ∃ k ∈ order, p.blockOf.get? k = some handler.target ∧ layout.isHandler k := by
  have hlt : p.func.HasBlock b := by
    by_contra hge
    rw [p.func.block_of_size_le (Nat.le_of_not_lt hge)] at hmem
    cases hmem
  have htarget := mem_map_of_mem (f := Ssa.Handler.target) hmem
  have hrange : ∀ k, p.blockOf.get? k = some b →
      ∃ k ∈ order, p.blockOf.get? k = some handler.target ∧ layout.isHandler k := by
    intro k hk
    obtain ⟨r, hr⟩ := horder.range k ((h.skeleton.created k).1 ⟨b, hk⟩)
    obtain ⟨-, normal, handlers, -, hhandlers, -, hcatches⟩ := h.skeleton.wired hk r hr
    rw [show (p.func.block b).handlers.map Ssa.Handler.target = handlers from hcatches] at htarget
    have hsome : some handler.target ∈ handlers.map some := mem_map_of_mem htarget
    rw [← hhandlers, mem_map] at hsome
    obtain ⟨j, hj, hblock⟩ := hsome
    obtain ⟨g, hg, rfl⟩ := mem_map.1 hj
    exact ⟨g.2, (h.skeleton.created _).1 ⟨_, hblock⟩, hblock, hlays.handlers hr g hg⟩
  rcases h.skeleton.covers b hlt with rfl | ⟨k, hk⟩
  · cases hsep : separate with
    | true =>
      obtain ⟨first, -, -, hcatches⟩ := h.skeleton.entry_wired hsep
      rw [show (p.func.block p.func.entry).handlers.map Ssa.Handler.target = [] from hcatches]
        at htarget
      cases htarget
    | false =>
      obtain ⟨c, hc⟩ := (h.skeleton.created 0).2 horder.zero
      have hentry := (h.skeleton.entry_iff hc).2 ⟨rfl, hsep⟩
      exact hrange 0 (hentry ▸ hc)
  · exact hrange k hk

lemma Going.regular (hlays : layout.Lays s.body.instructions)
    (hbegun : Begun s separate p1 q start) : p.func.Regular := by
  have hwf := h.wellFormed horder
  refine ⟨hwf, fun i hterm => h.void horder hbegun hterm, fun b handler hmem => ?_, fun b hb => ?_⟩
  · obtain ⟨k, hk, hblock, hhandler⟩ := h.handler_range horder hlays hmem
    obtain ⟨q', first, last, hlifted, -, hempty⟩ := h.lifted k hk _ hblock
    refine hlifted.beginsCaught hhandler (hempty.trans (hbegun.insns _ fun hentry => ?_))
    -- nothing leads to the entry, and the handler leads to its block
    have hedge := hwf.mem_successors_iff.1
      (mem_append_right _ (mem_map_of_mem hmem) : handler.target ∈ p.func.successors b)
    rw [hentry] at hedge
    have hnone : p.func.predecessors p1.func.entry = [] := hwf.flow.entry_preds
    rw [hnone] at hedge
    cases hedge
  · exact h.sound.reach b (p.func.lt_blocks_of_live hb)

omit horder in
lemma Going.entry_phis (hbegun : Begun s separate p1 q start)
    (hclosed : p1.closed = [p1.func.entry]) : (p.func.block p.func.entry).phis = [] := by
  have hlater : Later p1 p [] [] := (hbegun.within.later.trans hbegun.later).trans h.later
  have hpreds : p1.func.predecessors p1.func.entry = [] := by
    rw [← hlater.preds]
    exact h.sound.flow.entry_preds
  exact hlater.root_phis p1.func.entry ⟨by simp [hclosed], hpreds⟩ (hbegun.bare.block_phis _)

end Going

/-- A lifted function is regular and has no phis in its entry. -/
theorem lift_regular (h : lift s = .ok f) : f.Regular ∧ (f.block f.entry).phis = [] := by
  obtain ⟨layout, separate, p1, q, start, p, n, g, f', hbuild, hbegun, hclosed, hgoing, hclean, -,
    hcompact, -, rfl⟩ := lift_ok h
  have hlays := Layout.lays_of_build hbuild
  have hp := hgoing.regular (ordered_reversePostorder hlays) hlays hbegun
  obtain ⟨n', g', hclean', hg, -, hphis⟩ := hp.cleanUpPhis_run
  obtain ⟨rfl, rfl⟩ := EStateM.Result.ok.inj (hclean.symm.trans hclean')
  obtain ⟨f'', hcompact', hf, hphis'⟩ := hg.compact_run
  obtain ⟨-, rfl⟩ := EStateM.Result.ok.inj (hcompact.symm.trans hcompact')
  refine ⟨hf.rewords (f'.rewords_lens _), ?_⟩
  exact hphis' (hphis _ (hgoing.entry_phis hbegun hclosed))

theorem lift_copyable (h : lift s = .ok f) : Inline.Copyable f := by
  obtain ⟨hregular, hphis⟩ := lift_regular h
  refine ⟨hregular.toWellFormed, hphis, fun w site hread => ?_⟩
  obtain ⟨home, hhome⟩ := Option.isSome_iff_exists.1 (hregular.flow.defined w site hread)
  have hdefines := (hregular.exact.definition_iff w home).1 hhome
  refine ⟨home, hdefines, ?_⟩
  rintro i value rfl hop
  have hnone := hregular.void i (by rw [hop]; rfl)
  rw [show (f.insn i).dest = some w from hdefines] at hnone
  cases hnone

end Dissolve.Lift
