import Dissolve.Proofs.Ssa.History
import Dissolve.Proofs.Ssa.Trimmed

/-!
# Proofs.Ssa.Sweeping — what removing unreached blocks and compacting leave

Removing the unreached blocks of a verified function leaves the reached ones as they were, without the
entries of edges from removed blocks (`removeUnreachableBlocks_exact`). Compacting renames the live
entries in their order, and a function that is `Dense` it leaves alone (`compact_renames`).
-/

namespace Dissolve.Ssa.Function

open List

variable {f g : Function} {b c : BlockId}

/-! ## Unreached blocks -/

lemma zip_keepBy {α β : Type} (p : α → Bool) (xs : List α) (ys : List β) :
    (keepBy p xs ys).zip (xs.filter p) = (ys.zip xs).filter fun e => p e.2 := by
  induction xs generalizing ys with
  | nil => simp
  | cons x xs ih =>
    cases ys with
    | nil => simp
    | cons y ys => cases hp : p x <;> simp [keepBy, hp, ih]

lemma WellFormed.live_trimmed_iff (h : f.WellFormed) :
    (f.removeUnreachableBlocks.2.block b).removed = !f.reached b := by
  cases hb : f.reached b with
  | false => rw [h.trimmed.gone b hb]; rfl
  | true =>
    obtain ⟨t, ht⟩ := h.reached_iff.1 hb
    rw [h.trimmed.block b hb]
    exact h.live_of_trail ht

lemma WellFormed.blockIds_trimmed (h : f.WellFormed) :
    f.removeUnreachableBlocks.2.blockIds = f.blockIds.filter f.reached := by
  have hsize : f.removeUnreachableBlocks.2.blocks.size = f.blocks.size :=
    h.orderly.buried_unreached.size_blocks.trans (size_blocks_detached _ _ _)
  rw [blockIds, blockIds, hsize, filter_filter]
  refine filter_congr fun b _ => ?_
  rw [h.live_trimmed_iff, Bool.not_not]
  cases hb : f.reached b with
  | false => rfl
  | true =>
    obtain ⟨t, ht⟩ := h.reached_iff.1 hb
    rw [h.live_of_trail ht]
    rfl

/-- Removing the unreached blocks of a verified function leaves exactly the blocks that a path along
normal and exceptional edges reaches, and counts the others. A block that is left keeps its
instructions, its phis and its handlers. Its predecessors and the operands of its phis lose the entries
of edges from removed blocks, in step and in order. The result is verified and its bookkeeping exact. -/
theorem removeUnreachableBlocks_exact (hf : f.Orderly) (hverified : verify f = .ok ()) :
    ∃ n g, f.removeUnreachableBlocks = (n, g) ∧
      (∀ b, (g.block b).removed = false ↔ f.graph.Reaches f.entry.index b.index) ∧
      n + g.blockCount = f.blockCount ∧
      (∀ b, (g.block b).removed = false →
        g.block b = { f.block b with
          preds := (f.block b).preds.filter fun p => !(g.block p).removed } ∧
        (∀ i ∈ (f.block b).insns, g.insn i = f.insn i) ∧
        ∀ p ∈ (f.block b).phis,
          { g.phi p with operands := (f.phi p).operands } = f.phi p ∧
          (g.phi p).operands.length = (g.block b).preds.length ∧
          (g.phi p).operands.zip (g.block b).preds =
            ((f.phi p).operands.zip (f.block b).preds).filter fun e => !(g.block e.2).removed) ∧
      g.Orderly ∧ verify g = .ok () := by
  have h := hf.wellFormed_of_verify hverified
  have hg := h.removeUnreachableBlocks
  refine ⟨f.removeUnreachableBlocks.1, f.removeUnreachableBlocks.2, rfl, fun b => ?_, ?_, fun b hb => ?_,
    hg.orderly, hg.verify⟩
  · rw [h.live_trimmed_iff, Bool.not_eq_false', reached, decide_eq_true_iff,
      Graph.mem_reversePostorder_iff]
  · have hsplit := length_eq_length_filter_add (l := f.blockIds) f.reached
    rw [blockCount, h.blockIds_trimmed, blockCount, hsplit, Nat.add_comm]
    rfl
  · have hb : f.reached b = true := by simpa [h.live_trimmed_iff] using hb
    have hblock := h.trimmed.block b hb
    simp only [h.live_trimmed_iff, Bool.not_not]
    refine ⟨hblock, fun i hi => ?_, fun p hp => ?_⟩
    · rw [h.trimmed.insn, ((h.exact.insns_iff b i).1 hi).2, if_pos hb]
    · obtain ⟨hlive, hhome⟩ := (h.exact.phis_iff b p).1 hp
      rw [h.trimmed.phi, hhome, if_pos hb, hblock]
      refine ⟨rfl, length_keepBy ?_, zip_keepBy _ _ _⟩
      exact hhome ▸ h.flow.arity p hlive not_false

/-- Two blocks that only reach each other lead into a loop. -/
def stranded : Function :=
  Mutation.replay (Function.empty default true)
    [.addBlock, .addBlock, .addBlock, .addBlock,
      .appendValue ⟨0⟩ (.const (.int 7)) .int (.lifted 0),
      .appendInsn ⟨0⟩ (.goto ⟨1⟩) none (.lifted 1),
      .appendValue ⟨2⟩ (.const (.int 8)) .int (.lifted 2),
      .appendInsn ⟨2⟩ (.branch .eq ⟨1⟩ none ⟨1⟩ ⟨3⟩) none (.lifted 3),
      .appendInsn ⟨3⟩ (.branch .eq ⟨1⟩ none ⟨1⟩ ⟨2⟩) none (.lifted 4),
      .addPredecessor ⟨1⟩ ⟨2⟩, .addPredecessor ⟨1⟩ ⟨0⟩, .addPredecessor ⟨1⟩ ⟨3⟩,
      .addPredecessor ⟨1⟩ ⟨1⟩, .addPredecessor ⟨2⟩ ⟨3⟩, .addPredecessor ⟨3⟩ ⟨2⟩,
      .insertPhi ⟨1⟩ .int, .setPhiOperands ⟨0⟩ [⟨1⟩, ⟨0⟩, ⟨1⟩, ⟨2⟩],
      .appendInsn ⟨1⟩ (.goto ⟨1⟩) none (.lifted 5)]

theorem stranded_exact : stranded.removeUnreachableBlocks.1 = 2 ∧
    (stranded.removeUnreachableBlocks.2.phi ⟨0⟩).operands = [⟨0⟩, ⟨2⟩] ∧
    (∀ b, (stranded.removeUnreachableBlocks.2.block b).removed = false ↔
      stranded.graph.Reaches stranded.entry.index b.index) ∧
    verify stranded.removeUnreachableBlocks.2 = .ok () := by
  have horderly : stranded.Orderly := Mutation.orderly_replay (.empty _ _) (by decide)
  obtain ⟨n, g, hrun, hlive, -, -, -, hverified⟩ :=
    removeUnreachableBlocks_exact horderly (by decide +kernel)
  refine ⟨by decide +kernel, by decide +kernel, ?_⟩
  rw [hrun]
  exact ⟨hlive, hverified⟩

/-! ## Compacting -/

namespace Renumbering

variable {α : Type} [DecidableEq α] {live : List α} {make : Nat → α} {n : Nat}

lemma map_rank (hnodup : live.Nodup) :
    live.map (rank live make) = (range live.length).map make := by
  refine ext_getElem (by simp) fun i hi _ => ?_
  simp only [length_map] at hi
  rw [getElem_map, rank_of_mem (getElem_mem hi), hnodup.idxOf_getElem i hi]
  simp

lemma rank_range (hmake : Function.Injective make) : rank ((range n).map make) make = id := by
  funext x
  by_cases hx : x ∈ (range n).map make
  · rw [rank_of_mem hx]
    obtain ⟨m, hm, rfl⟩ := mem_map.1 hx
    have hidx := (nodup_range.map hmake).idxOf_getElem m (by simpa using hm)
    rw [getElem_map, getElem_range] at hidx
    rw [hidx]
    rfl
  · rw [rank, idxOf?_eq_none_iff.2 hx]
    rfl

lemma idxOf_lt_idxOf {index : α → Nat} (hsorted : live.Pairwise fun x y => index x < index y) {x y : α}
    (hx : x ∈ live) (hy : y ∈ live) (hlt : index x < index y) : live.idxOf x < live.idxOf y := by
  by_contra hle
  have hne : live.idxOf y ≠ live.idxOf x := by
    intro heq
    rw [(idxOf_inj hy).1 heq] at hlt
    exact Nat.lt_irrefl _ hlt
  have hgt := pairwise_iff_getElem.1 hsorted _ _ (idxOf_lt_length_of_mem hy)
    (idxOf_lt_length_of_mem hx) (Nat.lt_of_le_of_ne (Nat.le_of_not_lt hle) hne)
  rw [getElem_idxOf, getElem_idxOf] at hgt
  exact Nat.lt_asymm hlt hgt

end Renumbering

lemma renumbering_block_lt (hb : (f.block b).removed = false) (hc : (f.block c).removed = false)
    (hlt : b.index < c.index) : (f.renumbering.block b).index < (f.renumbering.block c).index := by
  have hsorted : f.blockIds.Pairwise fun b c => b.index < c.index :=
    (pairwise_lt_range.map BlockId.mk fun _ _ hlt => hlt).filter _
  have hb : b ∈ f.renumbering.blocks := (f.mem_blockIds b).2 hb
  have hc : c ∈ f.renumbering.blocks := (f.mem_blockIds c).2 hc
  rw [Renumbering.block, Renumbering.rank_of_mem hb, Renumbering.rank_of_mem hc]
  exact Renumbering.idxOf_lt_idxOf hsorted hb hc hlt

lemma renumbering_value_lt {v w : ValueId} (hv : (f.value v).definition.isSome)
    (hw : (f.value w).definition.isSome) (hlt : v.index < w.index) :
    (f.renumbering.value v).index < (f.renumbering.value w).index := by
  have hsorted : f.valueIds.Pairwise fun v w => v.index < w.index :=
    (pairwise_lt_range.map ValueId.mk fun _ _ hlt => hlt).filter _
  have hv : v ∈ f.renumbering.values := (f.mem_valueIds v).2 hv
  have hw : w ∈ f.renumbering.values := (f.mem_valueIds w).2 hw
  rw [Renumbering.value, Renumbering.rank_of_mem hv, Renumbering.rank_of_mem hw]
  exact Renumbering.idxOf_lt_idxOf hsorted hv hw hlt

/-! In a function without gaps every place of a table is in use. -/

/-- Every entry of the tables is live, and the blocks list them in order. -/
structure Dense (f : Function) : Prop where
  blocks : f.blockIds = (range f.blocks.size).map BlockId.mk
  values : f.valueIds = (range f.values.size).map ValueId.mk
  insns : f.insnIds = (range f.insns.size).map InsnId.mk
  phis : f.phiIds = (range f.phis.size).map PhiId.mk

lemma toArray_map_range {α β : Type} (xs : Array β) (make : Nat → α) (look : α → β)
    (h : ∀ n (hn : n < xs.size), look (make n) = xs[n]) :
    (((range xs.size).map make).map look).toArray = xs := by
  refine Array.ext (by simp) fun n _ hn => ?_
  simp [h n hn]

lemma Dense.renumber (h : f.Dense) : f.renumber f.renumbering = f := by
  have hblock : f.renumbering.block = id := by
    rw [Renumbering.block, renumbering, h.blocks]
    exact Renumbering.rank_range fun _ _ hmk => BlockId.mk.inj hmk
  have hvalue : f.renumbering.value = id := by
    rw [Renumbering.value, renumbering, h.values]
    exact Renumbering.rank_range fun _ _ hmk => ValueId.mk.inj hmk
  have hinsn : f.renumbering.insn = id := by
    rw [Renumbering.insn, renumbering, h.insns]
    exact Renumbering.rank_range fun _ _ hmk => InsnId.mk.inj hmk
  have hphi : f.renumbering.phi = id := by
    rw [Renumbering.phi, renumbering, h.phis]
    exact Renumbering.rank_range fun _ _ hmk => PhiId.mk.inj hmk
  have hop : ∀ op : Op, (op.mapOperands id).mapTargets id = op := by
    intro op
    rw [Op.mapOperands_id]
    cases op <;> simp [Op.mapTargets]
  rw [Function.renumber]
  congr 1
  · rw [show f.renumbering.values = _ from h.values]
    exact toArray_map_range _ _ _ fun n hn => by simp [value, hn]
  · rw [show f.renumbering.insns = _ from h.insns]
    exact toArray_map_range _ _ _ fun n hn => by simp [renumberInsn, hop, hblock, hvalue, insn, hn]
  · rw [show f.renumbering.phis = _ from h.phis]
    exact toArray_map_range _ _ _ fun n hn => by simp [renumberPhi, hblock, hvalue, phi, hn]
  · rw [show f.renumbering.blocks = _ from h.blocks]
    exact toArray_map_range _ _ _ fun n hn => by simp [renumberBlock, hblock, hinsn, hphi, block, hn]

lemma WellFormed.dense_renumber (h : f.WellFormed) :
    (f.renumber f.renumbering).rebuildDefUse.Dense := by
  have hr := h.renumbered
  have hblocks : (f.renumber f.renumbering).rebuildDefUse.blocks.size = f.blockIds.length := by
    simp [renumber, renumbering]
  have hvalues : (f.renumber f.renumbering).rebuildDefUse.values.size = f.valueIds.length := by
    simp [rebuildDefUse_eq, clearDefUse, renumber, renumbering]
  have hinsns : (f.renumber f.renumbering).rebuildDefUse.insns.size = f.insnIds.length := by
    simp [renumber, renumbering]
  have hphis : (f.renumber f.renumbering).rebuildDefUse.phis.size = f.phiIds.length := by
    simp [renumber, renumbering]
  have hranks : f.blockIds.map f.renumbering.block = (range f.blockIds.length).map BlockId.mk :=
    Renumbering.map_rank f.nodup_blockIds
  have hids : (f.renumber f.renumbering).rebuildDefUse.blockIds =
      f.blockIds.map f.renumbering.block := by
    rw [blockIds, hblocks, ← hranks, filter_eq_self]
    intro c hc
    obtain ⟨b, hb, rfl⟩ := mem_map.1 hc
    have hlive := (f.mem_blockIds b).1 hb
    rw [hr.block b hlive, renumberBlock, hlive]
    rfl
  refine ⟨by rw [hids, hblocks, hranks], ?_, ?_, ?_⟩
  · have hnodup : f.valueIds.Nodup :=
      (nodup_range.map fun _ _ hmk => ValueId.mk.inj hmk).filter _
    have hranks : f.valueIds.map f.renumbering.value = (range f.valueIds.length).map ValueId.mk :=
      Renumbering.map_rank hnodup
    rw [valueIds, hvalues, ← hranks, filter_eq_self]
    intro w hw
    obtain ⟨v, hv, rfl⟩ := mem_map.1 hw
    obtain ⟨s, hs⟩ := Option.isSome_iff_exists.1 ((f.mem_valueIds v).1 hv)
    rw [(hr.defines h hs).1]
    rfl
  · have hranks : f.insnIds.map f.renumbering.insn = (range f.insnIds.length).map InsnId.mk :=
      Renumbering.map_rank h.exact.nodup_insnIds
    rw [insnIds, hids, hinsns, ← hranks, flatMap_map]
    exact (flatMap_congr fun b hb => hr.insns_eq ((f.mem_blockIds b).1 hb)).trans map_flatMap.symm
  · have hranks : f.phiIds.map f.renumbering.phi = (range f.phiIds.length).map PhiId.mk :=
      Renumbering.map_rank h.exact.nodup_phiIds
    rw [phiIds, hids, hphis, ← hranks, flatMap_map]
    refine (flatMap_congr fun b hb => ?_).trans map_flatMap.symm
    rw [hr.block b ((f.mem_blockIds b).1 hb)]
    rfl

/-- Compacting what was compacted changes nothing. -/
lemma WellFormed.compact_again (h : f.WellFormed) (hrun : compact.run f = .ok () g) :
    compact.run g = .ok () g := by
  have h' := h.rebuildDefUse
  obtain ⟨-, rfl⟩ := EStateM.Result.ok.inj (h.run_compact.symm.trans hrun)
  rw [(h'.renumbered.wellFormed h').run_compact, rebuildDefUse_rebuildDefUse,
    h'.dense_renumber.renumber, rebuildDefUse_rebuildDefUse]

lemma Dense.live (h : f.Dense) (hf : f.Orderly) :
    (∀ n < f.blocks.size, f.LiveBlock ⟨n⟩) ∧
      (∀ n < f.values.size, (f.value ⟨n⟩).definition.isSome) ∧
      (∀ n < f.insns.size, f.LiveInsn ⟨n⟩) ∧
      ∀ n < f.phis.size, f.LivePhi ⟨n⟩ := by
  refine ⟨fun n hn => ?_, fun n hn => ?_, fun n hn => ?_, fun n hn => ?_⟩
  · rw [← mem_blockIds, h.blocks]
    exact mem_map_of_mem (mem_range.2 hn)
  · rw [← mem_valueIds, h.values]
    exact mem_map_of_mem (mem_range.2 hn)
  · rw [← hf.mem_insnIds, h.insns]
    exact mem_map_of_mem (mem_range.2 hn)
  · rw [← hf.mem_phiIds, h.phis]
    exact mem_map_of_mem (mem_range.2 hn)

lemma Renumbered.perm_users {r : Renumbering} (h : f.Renumbered g r) (hf : f.WellFormed)
    (hinsn : ∀ i j, f.LiveInsn i → f.LiveInsn j →
      r.insn i = r.insn j → i = j)
    (hphi : ∀ p q, f.LivePhi p → f.LivePhi q →
      r.phi p = r.phi q → p = q) {v : ValueId} (hv : (f.value v).definition.isSome) :
    (g.value (r.value v)).users.Perm ((f.value v).users.map r.site) := by
  refine (perm_ext_iff_of_nodup (h.exact.users_nodup _)
    (Nodup.map_on ?_ (hf.exact.users_nodup v))).2 fun t => ?_
  · intro s hs t ht heq
    rw [hf.exact.users_iff] at hs ht
    cases s with
    | insn i =>
      cases t with
      | insn j =>
        rw [hinsn i j (hf.exact.live_of_reads_insn hs) (hf.exact.live_of_reads_insn ht)
          (Site.insn.inj heq)]
      | phi q => cases heq
    | phi p =>
      cases t with
      | insn j => cases heq
      | phi q =>
        rw [hphi p q (hf.exact.live_of_reads_phi hs) (hf.exact.live_of_reads_phi ht)
          (Site.phi.inj heq)]
  · rw [h.exact.users_iff, mem_map]
    constructor
    · intro hr
      obtain ⟨w, s, hw, hwv, rfl⟩ := h.reads_of hr
      obtain rfl := h.value_inj w v (hf.flow.defined w s hw) hv hwv
      exact ⟨s, (hf.exact.users_iff w s).2 hw, rfl⟩
    · rintro ⟨s, hs, rfl⟩
      rw [hf.exact.users_iff] at hs
      cases s with
      | insn i =>
        rw [Renumbering.site, Reads, h.insn i (hf.exact.live_of_reads_insn hs)]
        simp only [renumberInsn, Op.operands_mapTargets, Op.operands_mapOperands]
        exact mem_map_of_mem hs
      | phi p =>
        rw [Renumbering.site, Reads, h.phi p (hf.exact.live_of_reads_phi hs)]
        exact mem_map_of_mem hs

/-- Compacting a verified function only renames. The renaming keeps the entry and the order of blocks
and values, the live places go over with all they hold, the users of a value in some order. The tables
of the result have no gaps, and compacting it again gives it back. -/
theorem compact_renames (hf : f.Orderly) (hverified : verify f = .ok ()) :
    ∃ g r, compact.run f = .ok () g ∧ f.Renumbered g r ∧
      (g.method = f.method ∧ g.isStatic = f.isStatic ∧ g.lens = f.lens ∧ g.entry = f.entry) ∧
      (∀ b c, (f.block b).removed = false → (f.block c).removed = false → b.index < c.index →
        (r.block b).index < (r.block c).index) ∧
      (∀ v w, (f.value v).definition.isSome → (f.value w).definition.isSome →
        v.index < w.index → (r.value v).index < (r.value w).index) ∧
      (∀ i j, (f.insn i).removed = false → (f.insn j).removed = false →
        r.insn i = r.insn j → i = j) ∧
      (∀ p q, (f.phi p).removed = false → (f.phi q).removed = false →
        r.phi p = r.phi q → p = q) ∧
      (∀ v, (f.value v).definition.isSome →
        ∃ users, users.Perm ((f.value v).users.map r.site) ∧
          g.value (r.value v) =
            { f.value v with definition := (f.value v).definition.map r.site, users }) ∧
      ((∀ n < g.blocks.size, (g.block ⟨n⟩).removed = false) ∧
        (∀ n < g.values.size, (g.value ⟨n⟩).definition.isSome) ∧
        (∀ n < g.insns.size, (g.insn ⟨n⟩).removed = false) ∧
        ∀ n < g.phis.size, (g.phi ⟨n⟩).removed = false) ∧
      g.Orderly ∧ verify g = .ok () ∧ compact.run g = .ok () g := by
  have h := hf.wellFormed_of_verify hverified
  have h' := h.rebuildDefUse
  have hg := h'.renumbered.wellFormed h'
  have hr := h.renumbered_of_rebuilt h'.renumbered
  have hinsn : ∀ i j, (f.insn i).removed = false → (f.insn j).removed = false →
      f.rebuildDefUse.renumbering.insn i = f.rebuildDefUse.renumbering.insn j → i = j :=
    fun i j hi hj => h'.orderly.renumbering_insn_inj (by simpa using hi) (by simpa using hj)
  have hphi : ∀ p q, (f.phi p).removed = false → (f.phi q).removed = false →
      f.rebuildDefUse.renumbering.phi p = f.rebuildDefUse.renumbering.phi q → p = q :=
    fun p q hp hq => h'.orderly.renumbering_phi_inj (by simpa using hp) (by simpa using hq)
  refine ⟨_, f.rebuildDefUse.renumbering, h.run_compact, hr, ?_, fun b c hb hc hlt => ?_,
    fun v w hv hw hlt => ?_, hinsn, hphi, fun v hv => ?_, h'.dense_renumber.live hg.orderly,
    hg.orderly, hg.verify, h.compact_again h.run_compact⟩
  · obtain ⟨hmethod, hstatic, hlens⟩ := header_rebuildDefUse (f.rebuildDefUse.renumber _)
    obtain ⟨hmethod', hstatic', hlens'⟩ := f.header_rebuildDefUse
    exact ⟨hmethod.trans hmethod', hstatic.trans hstatic', hlens.trans hlens', rfl⟩
  · exact renumbering_block_lt (by simpa using hb) (by simpa using hc) hlt
  · exact renumbering_value_lt (by rwa [h.definition_rebuildDefUse])
      (by rwa [h.definition_rebuildDefUse]) hlt
  · obtain ⟨s, hs⟩ := Option.isSome_iff_exists.1 hv
    have hvalue := Orderly.renumber_value (f := f.rebuildDefUse) (v := v) (by
      rwa [h.definition_rebuildDefUse])
    refine ⟨_, hr.perm_users h hinsn hphi hv, ?_⟩
    dsimp only
    rw [hs, Option.map_some, ← (hr.defines h hs).1, ← hr.ty v hv, ← debugName_rebuildDefUse f,
      ← hvalue.1, ← debugName_rebuildDefUse (f.rebuildDefUse.renumber _)]

/-- Compacting what is left of `stranded` moves the phi's value. -/
theorem stranded_compacted : ∃ g r,
    compact.run stranded.removeUnreachableBlocks.2 = .ok () g ∧
      stranded.removeUnreachableBlocks.2.Renumbered g r ∧ compact.run g = .ok () g := by
  have horderly : stranded.Orderly := Mutation.orderly_replay (.empty _ _) (by decide)
  have h := (horderly.wellFormed_of_verify (by decide +kernel)).removeUnreachableBlocks
  obtain ⟨g, r, hrun, hr, -, -, -, -, -, -, -, -, -, hagain⟩ := compact_renames h.orderly h.verify
  exact ⟨g, r, hrun, hr, hagain⟩

end Dissolve.Ssa.Function
