import Dissolve.Proofs.Ssa.Rebuild

/-!
# Proofs.Ssa.Renumber — compacting keeps a function well-formed

Compacting gives the live entries of a function new places. `Function.Renumbered` says that one
function is another one with its places renamed: every live entry has its image at its new place,
and nothing else is there. Trails, definitions and availability go over to the images, so a
well-formed function stays well-formed. Main statement: `WellFormed.compact_run`, compacting a
well-formed function succeeds and gives a well-formed renumbering of it.
-/

namespace Dissolve.Ssa.Function

open List

variable {b : BlockId} {v : ValueId} {i : InsnId} {p : PhiId} {s : Site} {n : Nat}

/-! ## Ranks -/

namespace Renumbering

variable {α : Type} [DecidableEq α] {live : List α} {make : Nat → α}

lemma rank_of_mem {x : α} (hx : x ∈ live) : rank live make x = make (live.idxOf x) := by
  have hidx : live.idxOf? x = some (live.idxOf x) := by
    rw [idxOf?_eq_some_iff]
    have hlt := idxOf_lt_length_of_mem hx
    refine ⟨hlt, getElem_idxOf hlt, fun j hj heq => ?_⟩
    have hne := not_of_lt_findIdx hj
    simp [heq] at hne
  simp [rank, hidx]

lemma rank_inj (hmake : Function.Injective make) {x y : α} (hx : x ∈ live) (hy : y ∈ live)
    (h : rank live make x = rank live make y) : x = y := by
  rw [rank_of_mem hx, rank_of_mem hy] at h
  exact (idxOf_inj hx).1 (hmake h)

def site (r : Renumbering) : Site → Site
  | .insn i => .insn (r.insn i)
  | .phi p => .phi (r.phi p)

end Renumbering

/-- `g` is `f` with its live entries at the places that `r` gives them. -/
structure Renumbered (f g : Function) (r : Renumbering) : Prop where
  exact : g.Exact
  entry : r.block f.entry = g.entry
  gone : ∀ c, (g.block c).removed = true → g.block c = Block.gone
  block : ∀ b, (f.block b).removed = false → g.block (r.block b) = renumberBlock r (f.block b)
  insn : ∀ i, (f.insn i).removed = false → g.insn (r.insn i) = renumberInsn r (f.insn i)
  phi : ∀ p, (f.phi p).removed = false → g.phi (r.phi p) = renumberPhi r (f.phi p)
  block_of : ∀ c, (g.block c).removed = false → ∃ b, (f.block b).removed = false ∧ r.block b = c
  insn_of : ∀ j, (g.insn j).removed = false → ∃ i, (f.insn i).removed = false ∧ r.insn i = j
  phi_of : ∀ q, (g.phi q).removed = false → ∃ p, (f.phi p).removed = false ∧ r.phi p = q
  block_inj : ∀ b c, (f.block b).removed = false → (f.block c).removed = false →
    r.block b = r.block c → b = c
  value_inj : ∀ v w, (f.value v).definition.isSome → (f.value w).definition.isSome →
    r.value v = r.value w → v = w
  ty : ∀ v, (f.value v).definition.isSome → (g.value (r.value v)).ty = (f.value v).ty

namespace Renumbered

variable {f g : Function} {r : Renumbering}

section

variable (h : f.Renumbered g r)
include h

section

variable (hf : f.WellFormed)
include hf

lemma defines (hs : (f.value v).definition = some s) :
    (g.value (r.value v)).definition = some (r.site s) ∧
      g.siteBlock (r.site s) = r.block (f.siteBlock s) := by
  rw [hf.exact.definition_iff] at hs
  rw [h.exact.definition_iff]
  cases s with
  | insn i =>
    have hlive := hf.exact.live_of_dest hs
    rw [Renumbering.site, Defines, siteBlock, h.insn i hlive, renumberInsn, hs]
    exact ⟨rfl, rfl⟩
  | phi p =>
    rw [Renumbering.site, Defines, siteBlock, h.phi p hs.1, renumberPhi]
    exact ⟨⟨hs.1, congrArg r.value hs.2⟩, rfl⟩

lemma definingBlock?
    (hb : f.definingBlock? v = some b) : g.definingBlock? (r.value v) = some (r.block b) := by
  rw [definingBlock?_eq, Option.map_eq_some_iff] at hb ⊢
  obtain ⟨s, hs, rfl⟩ := hb
  exact ⟨_, h.defines hf hs⟩

lemma isPhiOf (hb : f.IsPhiOf v b) : g.IsPhiOf (r.value v) (r.block b) := by
  obtain ⟨p, hp, rfl⟩ := hb
  exact ⟨_, h.defines hf hp⟩

section

variable (hb : f.LiveBlock b)
include hb

omit hf in
lemma preds_eq : g.predecessors (r.block b) = (f.predecessors b).map r.block := by
  rw [predecessors, h.block b hb]
  rfl

omit hb in
lemma trail_of {l : List BlockId} (hl : g.Trail l) : ∃ l', f.Trail l' ∧ l = l'.map r.block := by
  induction hl with
  | start => exact ⟨[f.entry], .start, by simp [h.entry]⟩
  | @step p b t _ edge ih =>
    obtain ⟨l', hl', heq⟩ := ih
    obtain ⟨p', t', rfl, hp', ht'⟩ := map_eq_cons_iff.1 heq.symm
    have hb : g.LiveBlock b := by
      by_contra hc
      rw [predecessors, h.gone b (by simpa using hc)] at edge
      simp [Block.gone] at edge
    obtain ⟨b', hb', rfl⟩ := h.block_of b hb
    rw [h.preds_eq hb', mem_map] at edge
    obtain ⟨q, hq, hqp⟩ := edge
    obtain rfl := h.block_inj q p' (hf.live_pred hq) (hf.live_of_trail hl') (hqp.trans hp'.symm)
    exact ⟨b' :: q :: t', .step hl' hq, by simp [hp', ht']⟩

lemma trail_to {t : List BlockId} (ht : g.Trail (r.block b :: t)) :
    ∃ t', f.Trail (b :: t') ∧ t = t'.map r.block := by
  obtain ⟨l, hl, heq⟩ := h.trail_of hf ht
  obtain ⟨b', t', rfl, hb', ht'⟩ := map_eq_cons_iff.1 heq.symm
  obtain rfl := h.block_inj b' b (hf.live_of_trail hl) hb hb'
  exact ⟨t', hl, ht'.symm⟩

lemma availEnd (hv : f.AvailEnd v b) : g.AvailEnd (r.value v) (r.block b) := by
  intro t ht
  obtain ⟨t', ht', rfl⟩ := h.trail_to hf hb ht
  obtain ⟨c, hc, hdef⟩ := hv t' ht'
  exact ⟨r.block c, by simpa using mem_map_of_mem (f := r.block) hc, h.definingBlock? hf hdef⟩

lemma availStart (hv : f.AvailStart v b) : g.AvailStart (r.value v) (r.block b) := by
  intro t ht
  obtain ⟨t', ht', rfl⟩ := h.trail_to hf hb ht
  rcases hv t' ht' with ⟨c, hc, hdef⟩ | hphi
  · exact .inl ⟨r.block c, mem_map_of_mem hc, h.definingBlock? hf hdef⟩
  · exact .inr (h.isPhiOf hf hphi)

omit hf in
omit hb in
lemma reads_of (hr : g.Reads v s) : ∃ w t, f.Reads w t ∧ r.value w = v ∧ r.site t = s := by
  cases s with
  | insn j =>
    obtain ⟨i, hi, rfl⟩ := h.insn_of j (h.exact.live_of_reads_insn hr)
    rw [Reads, h.insn i hi] at hr
    simp only [renumberInsn, Op.operands_mapTargets, Op.operands_mapOperands, mem_map] at hr
    obtain ⟨w, hw, hwv⟩ := hr
    exact ⟨w, .insn i, hw, hwv, rfl⟩
  | phi q =>
    obtain ⟨p, hp, rfl⟩ := h.phi_of q (h.exact.live_of_reads_phi hr)
    rw [Reads, h.phi p hp] at hr
    simp only [renumberPhi, mem_map] at hr
    obtain ⟨w, hw, hwv⟩ := hr
    exact ⟨w, .phi p, hw, hwv, rfl⟩

omit hb in
lemma flow : g.Flow fun _ => False := by
  refine ⟨h.exact, ?_, fun _ hc => hc.elim, ?_, ?_, ?_, ?_⟩
  · rw [← h.entry, h.preds_eq hf.entry_live, hf.flow.entry_preds]
    rfl
  · intro q hq _
    obtain ⟨p, hp, rfl⟩ := h.phi_of q hq
    rw [h.phi p hp, renumberPhi, length_map, h.preds_eq (hf.orderly.live_block_of_phi hp),
      length_map]
    exact hf.flow.arity p hp not_false
  · intro q j v b hv hb
    have hq : g.LivePhi q := h.exact.live_of_reads_phi (mem_of_getElem? hv)
    obtain ⟨p, hp, rfl⟩ := h.phi_of q hq
    rw [h.phi p hp, renumberPhi] at hv hb
    rw [h.preds_eq (hf.orderly.live_block_of_phi hp)] at hb
    rw [getElem?_map, Option.map_eq_some_iff] at hv hb
    obtain ⟨w, hw, rfl⟩ := hv
    obtain ⟨c, hc, rfl⟩ := hb
    exact h.availEnd hf (hf.live_pred (mem_of_getElem? hc)) (hf.flow.phi_avail p j w c hw hc)
  · intro c before j after hlist v hv
    have hlive : g.LiveBlock c := by
      by_contra hc
      rw [h.gone c (by simpa using hc)] at hlist
      simp [Block.gone] at hlist
    obtain ⟨b, hb, rfl⟩ := h.block_of c hlive
    rw [h.block b hb, renumberBlock] at hlist
    obtain ⟨before', rest, hsplit, rfl, hrest⟩ := map_eq_append_iff.1 hlist
    obtain ⟨i, after', rfl, rfl, -⟩ := map_eq_cons_iff.1 hrest
    have hi := (hf.exact.of_split hsplit).1
    rw [h.insn i hi] at hv
    simp only [renumberInsn, Op.operands_mapTargets, Op.operands_mapOperands, mem_map] at hv
    obtain ⟨w, hw, rfl⟩ := hv
    rcases hf.flow.insn_avail b before' i after' hsplit w hw with ⟨k, hk, hd⟩ | hstart
    · refine .inl ⟨r.insn k, mem_map_of_mem hk, ?_⟩
      rw [h.insn k (hf.exact.live_of_dest hd)]
      simp [renumberInsn, hd]
    · exact .inr (h.availStart hf hb hstart)
  · intro v s hr
    obtain ⟨w, t, hw, rfl, -⟩ := h.reads_of hr
    obtain ⟨u, hu⟩ := Option.isSome_iff_exists.1 (hf.flow.defined w t hw)
    rw [(h.defines hf hu).1]
    rfl

omit hf in
lemma insns_eq : (g.block (r.block b)).insns = (f.block b).insns.map r.insn := by
  rw [h.block b hb]
  rfl

lemma normalSuccessors_eq :
    g.normalSuccessors (r.block b) = (f.normalSuccessors b).map r.block := by
  obtain ⟨front, last, hinsns, hlast, -⟩ := hf.terminated b hb
  have hlive := (hf.exact.of_split hinsns).1
  have hterm : (g.insn (r.insn last)).op.isTerminator := by
    rw [h.insn last hlive]
    simp [renumberInsn, hlast]
  have hf' : f.terminator? b = some last := by simp [terminator?, hinsns, hlast, Option.filter]
  have hg' : g.terminator? (r.block b) = some (r.insn last) := by
    simp [terminator?, h.insns_eq hb, hinsns, hterm, Option.filter]
  rw [normalSuccessors, normalSuccessors, hf', hg']
  simp [h.insn last hlive, renumberInsn]

lemma successors_eq : g.successors (r.block b) = (f.successors b).map r.block := by
  rw [successors, successors, h.normalSuccessors_eq hf hb, h.block b hb, renumberBlock]
  simp

end

lemma wellFormed : g.WellFormed := by
  refine ⟨h.flow hf, ?_, h.gone, ?_, ?_⟩
  · rw [← h.entry, h.block _ hf.entry_live, renumberBlock]
    exact hf.entry_live
  · intro c hc
    obtain ⟨b, hb, rfl⟩ := h.block_of c hc
    obtain ⟨front, last, hinsns, hlast, hfront⟩ := hf.terminated b hb
    have hlive : ∀ i ∈ (f.block b).insns, f.LiveInsn i := fun i hi =>
      ((hf.exact.insns_iff b i).1 hi).1
    refine ⟨front.map r.insn, r.insn last, by rw [h.insns_eq hb, hinsns]; simp, ?_, ?_⟩
    · rw [h.insn last (hlive _ (by simp [hinsns]))]
      simp [renumberInsn, hlast]
    · intro j hj
      obtain ⟨i, hi, rfl⟩ := mem_map.1 hj
      rw [h.insn i (hlive _ (by simp [hinsns, hi]))]
      simp [renumberInsn, hfront i hi]
  · intro c q
    -- both lists hold images of live blocks only, and on these the renumbering is injective
    have hcount : ∀ (l : List BlockId) (b : BlockId), (∀ a ∈ l, f.LiveBlock a) →
        f.LiveBlock b → (l.map r.block).count (r.block b) = l.count b := by
      intro l b hl hb
      rw [count, count, countP_map]
      refine countP_congr fun a ha => ?_
      simp only [Function.comp_apply, beq_iff_eq]
      exact ⟨h.block_inj a b (hl a ha) hb, congrArg r.block⟩
    by_cases hc : g.LiveBlock c
    · obtain ⟨b, hb, rfl⟩ := h.block_of c hc
      rw [h.preds_eq hb]
      by_cases hq : g.LiveBlock q
      · obtain ⟨p, hp, rfl⟩ := h.block_of q hq
        rw [h.successors_eq hf hp, hcount _ _ (fun a ha => hf.live_pred ha) hp,
          hcount _ _ (fun a ha => hf.live_of_pred (hf.mem_successors_iff.1 ha)) hb]
        exact hf.edges b p
      · have hgone := h.gone q (by simpa using hq)
        have hnone : g.successors q = [] := by
          simp [successors, normalSuccessors, terminator?, hgone, Block.gone]
        rw [hnone, count_nil, count_eq_zero]
        intro hmem
        obtain ⟨p, hp, rfl⟩ := mem_map.1 hmem
        rw [LiveBlock, h.block p (hf.live_pred hp)] at hq
        exact hq (hf.live_pred hp)
    · have hgone := h.gone c (by simpa using hc)
      rw [predecessors, hgone, show Block.gone.preds = [] from rfl, count_nil, eq_comm,
        count_eq_zero]
      intro hmem
      by_cases hq : g.LiveBlock q
      · obtain ⟨p, hp, rfl⟩ := h.block_of q hq
        rw [h.successors_eq hf hp] at hmem
        obtain ⟨b, hb, rfl⟩ := mem_map.1 hmem
        have hlive := hf.live_of_pred (hf.mem_successors_iff.1 hb)
        rw [LiveBlock, h.block b hlive] at hc
        exact hc hlive
      · rw [successors, normalSuccessors, terminator?, h.gone q (by simpa using hq)] at hmem
        simp [Block.gone] at hmem

end

end

end Renumbered

/-! ## Compacting -/

section Tables

variable {α β : Type} [DecidableEq α] {live : List α} (image : α → β) (d : β)

lemma getD_idxOf {x : α} (hx : x ∈ live) :
    (live.map image).toArray[live.idxOf x]?.getD d = image x := by
  have hlt := idxOf_lt_length_of_mem hx
  simp [hlt]

omit [DecidableEq α] in
lemma getD_of_length_le (hn : live.length ≤ n) : (live.map image).toArray[n]?.getD d = d := by
  simp [Nat.not_lt.2 hn]

lemma exists_idxOf (hnodup : live.Nodup) (hn : n < live.length) : ∃ x ∈ live, live.idxOf x = n :=
  ⟨live[n], getElem_mem hn, hnodup.idxOf_getElem n hn⟩

end Tables

lemma mem_valueIds (f : Function) (v : ValueId) :
    v ∈ f.valueIds ↔ (f.value v).definition.isSome := by
  simp only [valueIds, mem_filter, mem_map, mem_range]
  constructor
  · exact fun h => h.2
  · intro h
    obtain ⟨s, hs⟩ := Option.isSome_iff_exists.1 h
    exact ⟨⟨v.index, f.lt_values_of_definition hs, rfl⟩, h⟩

namespace Orderly

variable {f : Function}

lemma renumber_block (b : BlockId) (hb : f.LiveBlock b) :
    (f.renumber f.renumbering).block (f.renumbering.block b) =
      renumberBlock f.renumbering (f.block b) := by
  have hmem : b ∈ f.renumbering.blocks := (f.mem_blockIds b).2 hb
  rw [Renumbering.block, Renumbering.rank_of_mem hmem]
  exact getD_idxOf _ _ hmem

section

variable (h : f.Orderly)
include h

lemma renumber_insn (hi : f.LiveInsn i) :
    (f.renumber f.renumbering).insn (f.renumbering.insn i) =
      renumberInsn f.renumbering (f.insn i) := by
  have hmem : i ∈ f.renumbering.insns := h.mem_insnIds.2 hi
  rw [Renumbering.insn, Renumbering.rank_of_mem hmem]
  exact getD_idxOf _ _ hmem

lemma renumber_phi (hp : f.LivePhi p) :
    (f.renumber f.renumbering).phi (f.renumbering.phi p) = renumberPhi f.renumbering (f.phi p) := by
  have hmem : p ∈ f.renumbering.phis := h.mem_phiIds.2 hp
  rw [Renumbering.phi, Renumbering.rank_of_mem hmem]
  exact getD_idxOf _ _ hmem

omit h in
lemma renumber_value (hv : (f.value v).definition.isSome) :
    (f.renumber f.renumbering).value (f.renumbering.value v) = f.value v ∧
      (f.renumbering.value v).index < (f.renumber f.renumbering).values.size := by
  have hmem : v ∈ f.renumbering.values := (f.mem_valueIds v).2 hv
  rw [Renumbering.value, Renumbering.rank_of_mem hmem]
  refine ⟨getD_idxOf _ _ hmem, ?_⟩
  simpa [renumber] using idxOf_lt_length_of_mem hmem

omit h in
lemma renumber_block_cases (f : Function) (c : BlockId) :
    (∃ b, f.LiveBlock b ∧ f.renumbering.block b = c) ∨
      (f.renumber f.renumbering).block c = Block.gone := by
  by_cases hc : c.index < f.blockIds.length
  · obtain ⟨b, hb, hidx⟩ := exists_idxOf f.nodup_blockIds hc
    refine .inl ⟨b, (f.mem_blockIds b).1 hb, ?_⟩
    rw [Renumbering.block, renumbering, Renumbering.rank_of_mem hb, hidx]
  · exact .inr (getD_of_length_le _ _ (Nat.le_of_not_lt hc))

lemma renumber_insn_cases (j : InsnId) :
    (∃ i, f.LiveInsn i ∧ f.renumbering.insn i = j) ∨
      (f.renumber f.renumbering).insn j = default := by
  by_cases hj : j.index < f.insnIds.length
  · obtain ⟨i, hi, hidx⟩ := exists_idxOf h.exact.nodup_insnIds hj
    refine .inl ⟨i, h.mem_insnIds.1 hi, ?_⟩
    rw [Renumbering.insn, renumbering, Renumbering.rank_of_mem hi, hidx]
  · exact .inr (getD_of_length_le _ _ (Nat.le_of_not_lt hj))

lemma renumber_phi_cases (q : PhiId) :
    (∃ p, f.LivePhi p ∧ f.renumbering.phi p = q) ∨
      (f.renumber f.renumbering).phi q = default := by
  by_cases hq : q.index < f.phiIds.length
  · obtain ⟨p, hp, hidx⟩ := exists_idxOf h.exact.nodup_phiIds hq
    refine .inl ⟨p, h.mem_phiIds.1 hp, ?_⟩
    rw [Renumbering.phi, renumbering, Renumbering.rank_of_mem hp, hidx]
  · exact .inr (getD_of_length_le _ _ (Nat.le_of_not_lt hq))

omit h in
lemma renumbering_block_inj {c : BlockId} (hb : f.LiveBlock b) (hc : f.LiveBlock c)
    (heq : f.renumbering.block b = f.renumbering.block c) : b = c :=
  Renumbering.rank_inj (fun _ _ hmk => BlockId.mk.inj hmk) ((f.mem_blockIds b).2 hb)
    ((f.mem_blockIds c).2 hc) heq

lemma renumbering_insn_inj {j : InsnId} (hi : (f.insn i).removed = false)
    (hj : (f.insn j).removed = false) (heq : f.renumbering.insn i = f.renumbering.insn j) : i = j :=
  Renumbering.rank_inj (fun _ _ hmk => InsnId.mk.inj hmk) (h.mem_insnIds.2 hi)
    (h.mem_insnIds.2 hj) heq

lemma renumbering_phi_inj {q : PhiId} (hp : (f.phi p).removed = false)
    (hq : (f.phi q).removed = false) (heq : f.renumbering.phi p = f.renumbering.phi q) : p = q :=
  Renumbering.rank_inj (fun _ _ hmk => PhiId.mk.inj hmk) (h.mem_phiIds.2 hp) (h.mem_phiIds.2 hq) heq

omit h in
lemma renumbering_value_inj {w : ValueId} (hv : (f.value v).definition.isSome)
    (hw : (f.value w).definition.isSome)
    (heq : f.renumbering.value v = f.renumbering.value w) : v = w :=
  Renumbering.rank_inj (fun _ _ hmk => ValueId.mk.inj hmk) ((f.mem_valueIds v).2 hv)
    ((f.mem_valueIds w).2 hw) heq

lemma defines_renumber (hd : (f.renumber f.renumbering).Defines v s) :
    ∃ w t, f.Defines w t ∧ f.renumbering.value w = v ∧ f.renumbering.site t = s := by
  cases s with
  | insn j =>
    rcases h.renumber_insn_cases j with ⟨i, hi, rfl⟩ | hgone
    · rw [Defines, h.renumber_insn hi, renumberInsn, Option.map_eq_some_iff] at hd
      obtain ⟨w, hw, rfl⟩ := hd
      exact ⟨w, .insn i, hw, rfl, rfl⟩
    · simp [Defines, hgone] at hd
  | phi q =>
    rcases h.renumber_phi_cases q with ⟨p, hp, rfl⟩ | hgone
    · rw [Defines, h.renumber_phi hp, renumberPhi] at hd
      exact ⟨(f.phi p).value, .phi p, ⟨hp, rfl⟩, hd.2, rfl⟩
    · simp [Defines, hgone] at hd

lemma reads_renumber (hr : (f.renumber f.renumbering).Reads v s) :
    ∃ w t, f.Reads w t ∧ f.renumbering.value w = v := by
  cases s with
  | insn j =>
    rcases h.renumber_insn_cases j with ⟨i, hi, rfl⟩ | hgone
    · rw [Reads, h.renumber_insn hi] at hr
      simp only [renumberInsn, Op.operands_mapTargets, Op.operands_mapOperands, mem_map] at hr
      obtain ⟨w, hw, hwv⟩ := hr
      exact ⟨w, .insn i, hw, hwv⟩
    · simp [Reads, hgone, Op.operands] at hr
  | phi q =>
    rcases h.renumber_phi_cases q with ⟨p, hp, rfl⟩ | hgone
    · rw [Reads, h.renumber_phi hp] at hr
      simp only [renumberPhi, mem_map] at hr
      obtain ⟨w, hw, hwv⟩ := hr
      exact ⟨w, .phi p, hw, hwv⟩
    · simp [Reads, hgone] at hr

lemma isSome_of_defines (hd : f.Defines v s) : (f.value v).definition.isSome := by
  rw [(h.exact.definition_iff v s).2 hd]
  rfl

lemma listed_renumber (hdefined : ∀ v s, f.Reads v s → (f.value v).definition.isSome) :
    (f.renumber f.renumbering).Listed := by
  have hf := h.exact
  refine ⟨?_, ?_, ?_, ?_, ?_, ?_, ?_, ?_, ?_, ?_⟩
  · intro j hj
    rcases h.renumber_insn_cases j with ⟨i, hi, rfl⟩ | hgone
    · rw [h.renumber_insn hi, renumberInsn, hi] at hj
      simp at hj
    · simp [hgone]
  · intro q hq
    rcases h.renumber_phi_cases q with ⟨p, hp, rfl⟩ | hgone
    · rw [h.renumber_phi hp, renumberPhi, hp] at hq
      simp at hq
    · simp [hgone]
  · intro c j
    constructor
    · intro hj
      rcases renumber_block_cases f c with ⟨b, hb, rfl⟩ | hgone
      · rw [renumber_block b hb, renumberBlock, mem_map] at hj
        obtain ⟨i, hi, rfl⟩ := hj
        obtain ⟨hlive, rfl⟩ := (hf.insns_iff b i).1 hi
        rw [h.renumber_insn hlive]
        exact ⟨hlive, rfl⟩
      · simp [hgone, Block.gone] at hj
    · rintro ⟨hlive, rfl⟩
      rcases h.renumber_insn_cases j with ⟨i, hi, rfl⟩ | hgone
      · have hmem := (hf.insns_iff _ i).2 ⟨hi, rfl⟩
        rw [h.renumber_insn hi]
        simp only [renumberInsn]
        rw [renumber_block _ (h.live_block_of_insn hi)]
        exact mem_map_of_mem hmem
      · simp [hgone] at hlive
  · intro c
    rcases renumber_block_cases f c with ⟨b, hb, rfl⟩ | hgone
    · rw [renumber_block b hb]
      refine List.Nodup.map_on ?_ (hf.insns_nodup b)
      intro i hi j hj heq
      exact h.renumbering_insn_inj ((hf.insns_iff b i).1 hi).1 ((hf.insns_iff b j).1 hj).1 heq
    · simp [hgone, Block.gone]
  · intro c q
    constructor
    · intro hq
      rcases renumber_block_cases f c with ⟨b, hb, rfl⟩ | hgone
      · rw [renumber_block b hb, renumberBlock, mem_map] at hq
        obtain ⟨p, hp, rfl⟩ := hq
        obtain ⟨hlive, rfl⟩ := (hf.phis_iff b p).1 hp
        rw [h.renumber_phi hlive]
        exact ⟨hlive, rfl⟩
      · simp [hgone, Block.gone] at hq
    · rintro ⟨hlive, rfl⟩
      rcases h.renumber_phi_cases q with ⟨p, hp, rfl⟩ | hgone
      · have hmem := (hf.phis_iff _ p).2 ⟨hp, rfl⟩
        rw [h.renumber_phi hp]
        simp only [renumberPhi]
        rw [renumber_block _ (h.live_block_of_phi hp)]
        exact mem_map_of_mem hmem
      · simp [hgone] at hlive
  · intro c
    rcases renumber_block_cases f c with ⟨b, hb, rfl⟩ | hgone
    · rw [renumber_block b hb]
      refine List.Nodup.map_on ?_ (hf.phis_nodup b)
      intro p hp q hq heq
      exact h.renumbering_phi_inj ((hf.phis_iff b p).1 hp).1 ((hf.phis_iff b q).1 hq).1 heq
    · simp [hgone, Block.gone]
  · intro c hc
    rcases renumber_block_cases f c with ⟨b, hb, rfl⟩ | hgone
    · rw [renumber_block b hb, renumberBlock, hb] at hc
      simp at hc
    · simp [hgone, Block.gone]
  · intro v s t hs ht
    obtain ⟨w, s', hs', hw, rfl⟩ := h.defines_renumber hs
    obtain ⟨w', t', ht', hw', rfl⟩ := h.defines_renumber ht
    obtain rfl := renumbering_value_inj (h.isSome_of_defines hs') (h.isSome_of_defines ht')
      (hw.trans hw'.symm)
    rw [hf.defines_unique hs' ht']
  · intro v s hd
    obtain ⟨w, t, ht, rfl, -⟩ := h.defines_renumber hd
    exact (renumber_value (h.isSome_of_defines ht)).2
  · intro v s hr
    obtain ⟨w, t, hw, rfl⟩ := h.reads_renumber hr
    exact (renumber_value (hdefined w t hw)).2

omit h in
lemma gone_renumber (f : Function) (c : BlockId)
    (hc : ((f.renumber f.renumbering).block c).removed) :
    (f.renumber f.renumbering).block c = Block.gone := by
  rcases renumber_block_cases f c with ⟨b, hb, rfl⟩ | hgone
  · rw [renumber_block b hb, renumberBlock, hb] at hc
    simp at hc
  · exact hgone

lemma renumber (hdefined : ∀ v s, f.Reads v s → (f.value v).definition.isSome) :
    (f.renumber f.renumbering).rebuildDefUse.Orderly :=
  ⟨(h.listed_renumber hdefined).exact_rebuildDefUse, by simpa using gone_renumber f⟩

end

end Orderly

namespace WellFormed

variable {f g : Function}

lemma renumbering_entry (h : f.WellFormed) : f.renumbering.block f.entry = f.entry := by
  have hmem := (f.mem_blockIds f.entry).2 h.entry_live
  have hlive : f.LiveBlock ⟨0⟩ := h.entry_live
  have hsize := f.lt_blocks_of_live h.entry_live
  obtain ⟨n, hn⟩ := Nat.exists_eq_succ_of_ne_zero (Nat.ne_of_gt hsize)
  rw [Renumbering.block, renumbering, Renumbering.rank_of_mem hmem, blockIds, hn,
    range_succ_eq_map, map_cons, filter_cons_of_pos (by simp [hlive])]
  exact congrArg BlockId.mk idxOf_cons_self

lemma renumbered (h : f.WellFormed) :
    f.Renumbered (f.renumber f.renumbering).rebuildDefUse f.renumbering where
  exact := (h.orderly.renumber h.flow.defined).exact
  entry := h.renumbering_entry
  gone := (h.orderly.renumber h.flow.defined).gone
  block b hb := by rw [block_rebuildDefUse, Orderly.renumber_block b hb]
  insn i hi := by rw [insn_rebuildDefUse, h.orderly.renumber_insn hi]
  phi p hp := by rw [phi_rebuildDefUse, h.orderly.renumber_phi hp]
  block_of c hc := by
    refine (Orderly.renumber_block_cases f c).resolve_right fun hgone => ?_
    simp [hgone, Block.gone] at hc
  insn_of j hj := by
    refine (h.orderly.renumber_insn_cases j).resolve_right fun hgone => ?_
    simp [hgone] at hj
  phi_of q hq := by
    refine (h.orderly.renumber_phi_cases q).resolve_right fun hgone => ?_
    simp [hgone] at hq
  block_inj _ _ hb hc heq := Orderly.renumbering_block_inj hb hc heq
  value_inj _ _ hv hw heq := Orderly.renumbering_value_inj hv hw heq
  ty v hv := by rw [ty_rebuildDefUse, (Orderly.renumber_value hv).1]

lemma usedUndefined?_eq (h : f.WellFormed) : f.usedUndefined? = none := by
  rw [usedUndefined?, List.find?_eq_none]
  intro v _
  simp only [Bool.and_eq_true, Option.isNone_iff_eq_none, Bool.not_eq_true', not_and,
    Bool.not_eq_false]
  intro hnone
  rw [Value.isUnused, List.isEmpty_iff, List.eq_nil_iff_forall_not_mem]
  intro s hs
  have hdef := h.flow.defined v s ((h.exact.users_iff v s).1 hs)
  simp [hnone] at hdef

lemma run_compact (h : f.WellFormed) : compact.run f =
    .ok () (f.rebuildDefUse.renumber f.rebuildDefUse.renumbering).rebuildDefUse := by
  have h' := h.rebuildDefUse
  have hentry : f.rebuildDefUse.entry ∈ f.rebuildDefUse.blockIds :=
    (mem_blockIds _ _).2 h'.entry_live
  rw [compact, Edit.run_bind_ok (EStateM.run_modify _ f), Edit.run_bind_ok (EStateM.run_get _),
    h'.usedUndefined?_eq, if_neg (by simpa using hentry)]
  rfl

lemma renumbered_of_rebuilt (h : f.WellFormed) {r : Renumbering}
    (hr : f.rebuildDefUse.Renumbered g r) : f.Renumbered g r := by
  obtain ⟨exact, entry, gone, block, insn, phi, block_of, insn_of, phi_of, block_inj, value_inj,
    ty⟩ := hr
  simp only [block_rebuildDefUse, insn_rebuildDefUse, phi_rebuildDefUse, ty_rebuildDefUse,
    h.definition_rebuildDefUse] at block insn phi block_of insn_of phi_of block_inj value_inj ty
  exact ⟨exact, entry, gone, block, insn, phi, block_of, insn_of, phi_of, block_inj, value_inj, ty⟩

theorem compact_run (h : f.WellFormed) :
    ∃ g r, compact.run f = .ok () g ∧ f.Renumbered g r ∧ g.WellFormed :=
  have h' := h.rebuildDefUse
  ⟨_, _, h.run_compact, h.renumbered_of_rebuilt h'.renumbered, h'.renumbered.wellFormed h'⟩

end WellFormed

end Dissolve.Ssa.Function
