import Dissolve.Proofs.Ssa.BlockMerging
import Dissolve.Proofs.Ssa.Growth
import Dissolve.Proofs.Ssa.Rewording

/-!
# Proofs.Ssa.Regular — functions that every transformation accepts

A *regular* function is well formed and has the shape that all transformations of functions keep and
some of them need: terminators define nothing, every handler leads to a block that begins with the
caught exception, and every block can be reached.

A well-formed result of an edit that leaves blocks, edges and handlers alone is regular
(`Regular.retains`). Cleaning up phis and merging blocks never fail on a regular function and give a regular
one (`Regular.cleanUpPhis_run`, `Regular.mergeBlocks_run`).
-/

namespace Dissolve.Ssa

open List

namespace Function

variable {f g h : Function} {b : BlockId} {i : InsnId} {n : Nat}

/-- A block begins with the caught exception. -/
def BeginsCaught (f : Function) (b : BlockId) : Prop :=
  ∃ i rest guard, (f.block b).insns = i :: rest ∧ (f.insn i).op = .moveException guard

/-- A well-formed function whose terminators define nothing, whose handlers lead to blocks that begin
with the caught exception, and in which there is a way to every block. -/
structure Regular (f : Function) : Prop extends WellFormed f where
  void : ∀ i, (f.insn i).op.isTerminator = true → (f.insn i).dest = none
  caught : ∀ b, ∀ handler ∈ (f.block b).handlers, f.BeginsCaught handler.target
  connected : f.Connected

lemma Regular.mergeable (hf : f.Regular) : f.Mergeable where
  wellFormed := hf.toWellFormed
  void i target hop := hf.void i (by rw [hop]; rfl)
  caught p handler hmem jump target hlist hop := by
    obtain ⟨i, rest, guard, hbegin, hcaught⟩ := hf.caught p handler hmem
    rw [hlist] at hbegin
    obtain ⟨rfl, -⟩ := cons.inj hbegin
    rw [hop] at hcaught
    cases hcaught

/-! ## Edits that leave the shape alone -/

/-- The instructions that stay are what they were, up to what they read. -/
structure Persists (f g : Function) : Prop where
  size : f.insns.size ≤ g.insns.size
  insn : ∀ i : InsnId, i.index < f.insns.size → (g.insn i).removed = false →
    (f.insn i).removed = false ∧ (g.insn i).dest = (f.insn i).dest ∧
      ∃ swap, (g.insn i).op = (f.insn i).op.mapOperands swap

namespace Persists

lemma refl (f : Function) : f.Persists f :=
  ⟨le_rfl, fun _ _ hlive => ⟨hlive, rfl, id, (Op.mapOperands_id _).symm⟩⟩

lemma trans (hfg : f.Persists g) (hgh : g.Persists h) : f.Persists h := by
  refine ⟨hfg.size.trans hgh.size, fun i hi hlive => ?_⟩
  obtain ⟨hlive, hdest, swap, hop⟩ := hgh.insn i (hi.trans_le hfg.size) hlive
  obtain ⟨hlive, hdest', swap', hop'⟩ := hfg.insn i hi hlive
  exact ⟨hlive, hdest.trans hdest', swap ∘ swap', by rw [hop, hop', Op.mapOperands_mapOperands]⟩

end Persists

/-- Instructions that stay are what they were, the others end no block, and blocks keep their edges,
their handlers and the exception they begin with. -/
structure Retains (f g : Function) : Prop extends Persists f g where
  fresh : ∀ i : InsnId, f.insns.size ≤ i.index → (g.insn i).removed = false →
    (g.insn i).op.isTerminator = false
  preds : ∀ b, g.predecessors b = f.predecessors b
  handlers : ∀ b, (g.block b).handlers = (f.block b).handlers
  removed : ∀ b, (g.block b).removed = (f.block b).removed
  begins : ∀ b, f.BeginsCaught b → g.BeginsCaught b

namespace Retains

lemma refl (f : Function) : f.Retains f where
  toPersists := .refl f
  fresh _ hi hlive := absurd (f.lt_insns_of_live hlive) (Nat.not_lt.2 hi)
  preds _ := rfl
  handlers _ := rfl
  removed _ := rfl
  begins _ hb := hb

lemma trans (hfg : f.Retains g) (hgh : g.Retains h) : f.Retains h where
  toPersists := hfg.toPersists.trans hgh.toPersists
  fresh i hi hlive := by
    rcases Nat.lt_or_ge i.index g.insns.size with hlt | hge
    · obtain ⟨hlive', -, swap, hop⟩ := hgh.insn i hlt hlive
      rw [hop, Op.isTerminator_mapOperands]
      exact hfg.fresh i hi hlive'
    · exact hgh.fresh i hge hlive
  preds b := (hgh.preds b).trans (hfg.preds b)
  handlers b := (hgh.handlers b).trans (hfg.handlers b)
  removed b := (hgh.removed b).trans (hfg.removed b)
  begins b hb := hgh.begins b (hfg.begins b hb)

lemma of_insns (hsize : g.insns.size = f.insns.size)
    (hinsn : ∀ i, ∃ swap, g.insn i = { f.insn i with op := (f.insn i).op.mapOperands swap })
    (hblock : ∀ b, (g.block b).insns = (f.block b).insns ∧ (g.block b).preds = (f.block b).preds ∧
      (g.block b).handlers = (f.block b).handlers ∧ (g.block b).removed = (f.block b).removed) :
    f.Retains g where
  size := hsize.ge
  insn i _ hlive := by
    obtain ⟨swap, hi⟩ := hinsn i
    rw [hi] at hlive ⊢
    exact ⟨hlive, rfl, swap, rfl⟩
  fresh i hi hlive := absurd (g.lt_insns_of_live hlive) (Nat.not_lt.2 (hsize.trans_le hi))
  preds b := (hblock b).2.1
  handlers b := (hblock b).2.2.1
  removed b := (hblock b).2.2.2
  begins b := by
    rintro ⟨i, rest, guard, hlist, hop⟩
    obtain ⟨swap, hi⟩ := hinsn i
    refine ⟨i, rest, guard, (hblock b).1.trans hlist, ?_⟩
    rw [hi, hop]
    rfl

lemma replaceAllUses (hf : f.Exact) (old new : ValueId) : f.Retains (f.replaceAllUses old new).2 :=
  of_insns (by simp) (fun i => ⟨redirect old new, hf.insn_replaceAllUses old new i⟩) (by simp)

lemma collapsePhi {pending : PhiId → Prop} (hf : f.Flow pending) {q : PhiId} {same : ValueId}
    (htriv : (f.phi q).trivialOperand? = some same) : f.Retains (f.collapsePhi q same) := by
  refine of_insns (f.size_insns_collapsePhi q same) (fun i => ⟨_, hf.exact.insn_collapsePhi i⟩) fun b => ?_
  rw [hf.exact.block_collapsePhi (hf.same_lt htriv)]
  exact ⟨rfl, rfl, rfl, rfl⟩

lemma insertPhi (f : Function) (b : BlockId) (ty : ValueType) : f.Retains (f.insertPhi b ty).2 := by
  refine of_insns rfl (fun i => ⟨id, by rw [Op.mapOperands_id]; rfl⟩) fun c => ?_
  rw [block_insertPhi]
  split <;> exact ⟨rfl, rfl, rfl, rfl⟩

lemma setPhiOperands (f : Function) (q : PhiId) (ops : List ValueId) :
    f.Retains (f.setPhiOperands q ops) :=
  of_insns (by simp) (fun i => ⟨id, by simp [Op.mapOperands_id]⟩) (by simp)

lemma drops {dead : List PhiId} (hd : f.Drops g dead) : f.Retains g := by
  refine of_insns (by rw [hd.insns]) (fun i => ⟨id, by rw [hd.insn, Op.mapOperands_id]⟩) fun b => ?_
  rw [hd.block]
  exact ⟨rfl, rfl, rfl, rfl⟩

lemma collapsed (hc : f.Collapsed g) (hf : f.WellFormed) : f.Retains g := by
  induction hc with
  | refl f => exact .refl f
  | step live trivial rest ih =>
    exact (collapsePhi hf.flow trivial).trans (ih (hf.collapsePhi live trivial))

lemma withoutInsn (hf : f.Exact) (hlive : f.LiveInsn i)
    (hop : ∀ guard, (f.insn i).op ≠ .moveException guard) : f.Retains (f.withoutInsn i) := by
  have hsize : (f.withoutInsn i).insns.size = f.insns.size := by simp [Function.withoutInsn]
  have hgone : ((f.withoutInsn i).insn i).removed := by
    rw [insn_withoutInsn_self hlive]
    rfl
  refine ⟨⟨hsize.ge, fun j _ hj => ?_⟩, fun j hj hlive' => ?_, hf.predecessors_withoutInsn hlive,
    fun b => ?_, fun b => ?_, ?_⟩
  · have hne : j ≠ i := by
      rintro rfl
      rw [hgone] at hj
      cases hj
    rw [insn_withoutInsn hne] at hj ⊢
    exact ⟨hj, rfl, id, (Op.mapOperands_id _).symm⟩
  · exact absurd ((f.withoutInsn i).lt_insns_of_live hlive') (Nat.not_lt.2 (hsize.trans_le hj))
  · rw [hf.block_withoutInsn hlive]
  · rw [hf.block_withoutInsn hlive]
  · rintro b ⟨j, rest, guard, hlist, hcaught⟩
    have hne : j ≠ i := by
      rintro rfl
      exact hop guard hcaught
    refine ⟨j, rest.filter fun k => k ≠ i, guard, ?_, by rw [insn_withoutInsn hne, hcaught]⟩
    rw [hf.block_withoutInsn hlive, hlist, filter_cons_of_pos (by simpa using hne)]

lemma removeInsn (hf : f.Exact) (hop : ∀ guard, (f.insn i).op ≠ .moveException guard)
    (hrun : (Ssa.removeInsn i).run f = .ok () g) : f.Retains g := by
  by_cases hlive : f.LiveInsn i
  · obtain ⟨rfl, -⟩ := removeInsn_ok hlive hrun
    exact withoutInsn hf hlive hop
  · rw [removeInsn_removed (by simpa using hlive)] at hrun
    cases hrun
    exact .refl f

lemma insertInsn (f : Function) {op : Op} (dest : Option ValueId) (position : Position)
    (hop : op.isTerminator = false) (hn : f.BeginsCaught b → n ≠ 0) :
    f.Retains (f.insertInsn b n op dest position).2 := by
  have hold : ∀ j, f.HasInsn j →
      (f.insertInsn b n op dest position).2.insn j = f.insn j := fun j hj => by
    rw [insn_insertInsn, if_neg hj.ne]
  refine ⟨⟨?_, fun j hj hlive => ?_⟩, fun j hj hlive => ?_, fun c => ?_, fun c => ?_, fun c => ?_, ?_⟩
  · simp
  · rw [hold j hj] at hlive ⊢
    exact ⟨hlive, rfl, id, (Op.mapOperands_id _).symm⟩
  · rw [insn_insertInsn] at hlive ⊢
    split
    · exact hop
    · rename_i hne
      rw [if_neg hne] at hlive
      exact absurd (f.lt_insns_of_live hlive) (Nat.not_lt.2 hj)
  · rw [predecessors, block_insertInsn]
    split <;> rfl
  · rw [block_insertInsn]
    split <;> rfl
  · rw [block_insertInsn]
    split <;> rfl
  · rintro c ⟨j, rest, guard, hlist, hcaught⟩
    have hop' : ((f.insertInsn b n op dest position).2.insn j).op = .moveException guard := by
      rw [hold j (f.lt_insns_of_op (by simp [hcaught])), hcaught]
    rw [BeginsCaught, block_insertInsn]
    split
    · rename_i hbc
      obtain ⟨rfl, -⟩ := hbc
      obtain ⟨m, rfl⟩ := Nat.exists_eq_succ_of_ne_zero (hn ⟨j, rest, guard, hlist, hcaught⟩)
      exact ⟨j, _, guard, by rw [hlist]; rfl, hop'⟩
    · exact ⟨j, rest, guard, hlist, hop'⟩

end Retains

/-! ## Regular functions stay regular -/

lemma Collapsed.phis_nil (hc : f.Collapsed g) (hf : f.WellFormed) (hphis : (f.block b).phis = []) :
    (g.block b).phis = [] := by
  induction hc with
  | refl f => exact hphis
  | step live trivial rest ih =>
    refine ih (hf.collapsePhi live trivial) ?_
    rw [hf.exact.block_collapsePhi (hf.flow.same_lt trivial), hphis]
    rfl

namespace Regular

/-- What ends a block of a regular function, or what is left of it, defines nothing. -/
theorem retains (hf : f.Regular) (hg : g.WellFormed) (hr : f.Retains g) : g.Regular := by
  refine ⟨hg, fun i hterm => ?_, fun b handler hmem => ?_, fun b hb => ?_⟩
  · have hlive := hg.exact.live_of_terminator hterm
    rcases Nat.lt_or_ge i.index f.insns.size with hlt | hge
    · obtain ⟨-, hdest, swap, hop⟩ := hr.insn i hlt hlive
      rw [hop, Op.isTerminator_mapOperands] at hterm
      rw [hdest, hf.void i hterm]
    · rw [hr.fresh i hge hlive] at hterm
      cases hterm
  · rw [hr.handlers] at hmem
    exact hr.begins _ (hf.caught b handler hmem)
  · rw [hr.removed] at hb
    obtain ⟨t, ht⟩ := hf.connected b hb
    exact ⟨t, ht.congr hr.preds⟩

lemma rewords (hf : f.Regular) (hr : f.Rewords g) : g.Regular := by
  refine ⟨hr.wellFormed hf.toWellFormed, fun i hterm => ?_, fun b handler hmem => ?_, fun b hb => ?_⟩
  · rw [(hr.alike i).isTerminator] at hterm
    rw [hr.dest, hf.void i hterm]
  · rw [hr.block] at hmem
    obtain ⟨i, rest, guard, hlist, hop⟩ := hf.caught b handler hmem
    obtain ⟨guard', hop'⟩ := (hr.alike i).caught.2 ⟨guard, hop⟩
    exact ⟨i, rest, guard', by rw [hr.block, hlist], hop'⟩
  · rw [hr.block] at hb
    obtain ⟨t, ht⟩ := hf.connected b hb
    exact ⟨t, ht.congr hr.predecessors⟩

lemma renumbered {r : Renumbering} (hf : f.Regular) (hr : f.Renumbered g r) : g.Regular := by
  have hwf := hf.toWellFormed
  have hg := hr.wellFormed hwf
  refine ⟨hg, fun j hterm => ?_, fun c handler hmem => ?_, fun c hc => ?_⟩
  · obtain ⟨i, hi, rfl⟩ := hr.insn_of j (hg.exact.live_of_terminator hterm)
    rw [hr.insn i hi] at hterm ⊢
    simp only [renumberInsn, Op.isTerminator_mapTargets, Op.isTerminator_mapOperands] at hterm ⊢
    rw [hf.void i hterm]
    rfl
  · have hc : g.LiveBlock c := by
      by_contra hgone
      rw [hr.gone c (by simpa using hgone)] at hmem
      cases hmem
    obtain ⟨b, hb, rfl⟩ := hr.block_of c hc
    rw [hr.block b hb] at hmem
    obtain ⟨old, hold, rfl⟩ := mem_map.1 hmem
    have htarget := hwf.live_of_mem_successors (p := b) (mem_append_right _ (mem_map_of_mem hold))
    obtain ⟨i, rest, guard, hlist, hop⟩ := hf.caught b old hold
    have hi : f.LiveInsn i :=
      ((hwf.exact.insns_iff old.target i).1 (by simp [hlist])).1
    refine ⟨r.insn i, rest.map r.insn, guard, ?_, ?_⟩
    · rw [hr.insns_eq htarget, hlist]
      rfl
    · rw [hr.insn i hi, renumberInsn, hop]
      rfl
  · obtain ⟨b, hb, rfl⟩ := hr.block_of c hc
    obtain ⟨t, ht⟩ := hf.connected b hb
    -- a way to a block is a way to its new place
    have htrail : ∀ l, f.Trail l → ∀ b t, l = b :: t → ∃ t', g.Trail (r.block b :: t') := by
      intro l hl
      induction hl with
      | start =>
        rintro _ _ ⟨⟩
        exact ⟨[], by rw [hr.entry]; exact .start⟩
      | @step p b t walked edge ih =>
        rintro _ _ ⟨⟩
        obtain ⟨t', ht'⟩ := ih p t rfl
        refine ⟨_, .step ht' ?_⟩
        rw [hr.preds_eq (hwf.live_of_pred edge)]
        exact mem_map_of_mem edge
    exact htrail _ ht b t rfl

lemma mergeStep (hf : f.Regular) (hs : f.MergeStep n g) : g.Regular := by
  have hwf := hf.toWellFormed
  have hg := hs.wellFormed hwf
  have hkeeps := hs.keeps hwf
  refine ⟨hg, fun i hterm => ?_, fun b handler hmem => ?_, hs.connected hwf hf.connected⟩
  · have hi := hg.exact.live_of_terminator hterm
    obtain ⟨swap, turn, hop⟩ := hkeeps.op i hi
    rw [hop, Op.isTerminator_mapTargets, Op.isTerminator_mapOperands] at hterm
    rw [hkeeps.dest i hi, hf.void i hterm]
  · have hb := hg.orderly.live_of_handler hmem
    have htarget := hg.live_of_mem_successors (p := b) (mem_append_right _ (mem_map_of_mem hmem))
    rw [hkeeps.handlers b hb] at hmem
    obtain ⟨i, rest, guard, hlist, hop⟩ := hf.caught b handler hmem
    obtain ⟨rest', hlist'⟩ := hkeeps.begins _ i rest htarget hlist fun t hgoto => by
      rw [hop] at hgoto
      cases hgoto
    have hi : g.LiveInsn i :=
      ((hg.exact.insns_iff handler.target i).1 (by simp [hlist'])).1
    obtain ⟨swap, turn, hop'⟩ := hkeeps.op i hi
    refine ⟨i, rest', guard, hlist', ?_⟩
    rw [hop', hop]
    rfl

lemma merges (hf : f.Regular) (hm : f.Merges n g) : g.Regular := by
  induction hm with
  | refl f => exact hf
  | step first rest ih => exact ih (hf.mergeStep first)

theorem cleanUpPhis_run (hf : f.Regular) :
    ∃ n g, cleanUpPhis.run f = .ok n g ∧ g.Regular ∧ f.Retains g ∧
      ∀ b, (f.block b).phis = [] → (g.block b).phis = [] := by
  obtain ⟨n, g, k, hrun, hcollapsed, hdrops, hk⟩ := hf.toWellFormed.cleanUpPhis_run
  have hretains : f.Retains k :=
    (Retains.collapsed hcollapsed hf.toWellFormed).trans (Retains.drops hdrops)
  refine ⟨n, k, hrun, hf.retains hk hretains, hretains, fun b hphis => ?_⟩
  rw [hdrops.block, hcollapsed.phis_nil hf.toWellFormed hphis]
  rfl

theorem mergeBlocks_run (hf : f.Regular) : ∃ stats g, mergeBlocks.run f = .ok stats g ∧ g.Regular ∧
    (stats.total = 0 → g = f) := by
  obtain ⟨stats, g, hrun, hmerges, hsame⟩ := hf.mergeable.mergeBlocks_run
  exact ⟨stats, g, hrun, hf.merges hmerges, hsame hf.connected⟩

lemma compact_run (hf : f.Regular) : ∃ g, compact.run f = .ok () g ∧ g.Regular ∧
    ((f.block f.entry).phis = [] → (g.block g.entry).phis = []) := by
  obtain ⟨g, r, hrun, hr, -⟩ := hf.toWellFormed.compact_run
  refine ⟨g, hrun, hf.renumbered hr, fun hphis => ?_⟩
  rw [← hr.entry, hr.block _ hf.entry_live, renumberBlock, hphis]
  rfl

end Regular

end Function

end Dissolve.Ssa
