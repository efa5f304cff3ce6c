import Dissolve.Proofs.Ssa.Unreachable

/-!
# Proofs.Ssa.Trimmed — a function without its unreached blocks

The reached blocks of a well-formed function are those with a trail (`WellFormed.reached_iff`). No trail
comes by an unreached block, so what is available at a reached block is defined in reached blocks, and the
function without the others is well formed (`Trimmed.wellFormed`).
-/

namespace Dissolve.Ssa.Function

open List

variable {j : Nat} {front rest : List InsnId}

lemma getElem?_keepBy {α β : Type} {p : α → Bool} {xs : List α} {ys : List β} {x : α} {y : β}
    (hlength : ys.length = xs.length) (hy : (keepBy p xs ys)[j]? = some y)
    (hx : (xs.filter p)[j]? = some x) : ∃ k : Nat, xs[k]? = some x ∧ ys[k]? = some y := by
  induction xs generalizing ys j with
  | nil => simp at hx
  | cons x' xs ih =>
    cases ys with
    | nil => simp at hlength
    | cons y' ys =>
      have hrest : ys.length = xs.length := by simpa using hlength
      rw [keepBy] at hy
      by_cases hp : p x' = true
      · rw [if_pos hp] at hy
        rw [filter_cons_of_pos hp] at hx
        cases j with
        | zero => exact ⟨0, hx, hy⟩
        | succ j =>
          obtain ⟨k, hk⟩ := ih hrest hy hx
          exact ⟨k + 1, hk⟩
      · rw [if_neg hp] at hy
        rw [filter_cons_of_neg hp] at hx
        obtain ⟨k, hk⟩ := ih hrest hy hx
        exact ⟨k + 1, hk⟩

variable {f g : Function} {b c : BlockId} {v : ValueId} {t l : List BlockId}

theorem WellFormed.reached_iff (h : f.WellFormed) : f.reached b ↔ ∃ t, f.Trail (b :: t) := by
  rw [reached, decide_eq_true_iff, Graph.mem_reversePostorder_iff, h.framed.reaches_iff]
  exact exists_congr fun t => h.route_iff_trail

lemma WellFormed.reached_of_mem_trail (h : f.WellFormed) (hl : f.Trail l) (hc : c ∈ l) :
    f.reached c := by
  obtain ⟨t, ht, -⟩ := hl.until hc
  exact h.reached_iff.2 ⟨t, ht⟩

lemma WellFormed.reached_of_edge (h : f.WellFormed) (hp : f.reached b)
    (hc : b ∈ f.predecessors c) : f.reached c := by
  obtain ⟨t, ht⟩ := h.reached_iff.1 hp
  exact h.reached_iff.2 ⟨b :: t, .step ht hc⟩

namespace Trimmed

variable {q : PhiId} (h : f.Trimmed g) (hf : f.WellFormed) (hg : g.Orderly)

include h

lemma predecessors (hb : f.reached b) : g.predecessors b = (f.predecessors b).filter f.reached := by
  rw [Function.predecessors, h.block b hb]
  rfl

lemma reached_of_live (hb : g.LiveBlock b) : f.reached b := by
  by_contra hnot
  rw [LiveBlock, h.gone b (by simpa using hnot)] at hb
  cases hb

lemma reached_of_pred (hp : c ∈ g.predecessors b) : f.reached b := by
  by_contra hb
  rw [Function.predecessors, h.gone b (by simpa using hb)] at hp
  cases hp

lemma trail (hl : g.Trail l) : f.Trail l := by
  induction hl with
  | start => exact .start
  | step _ edge ih =>
    rw [h.predecessors (h.reached_of_pred edge)] at edge
    exact .step ih (mem_filter.1 edge).1

include hf hg

lemma definition {s : Site} (hs : (f.value v).definition = some s)
    (hreached : f.reached (f.siteBlock s)) :
    (g.value v).definition = some s ∧ g.siteBlock s = f.siteBlock s := by
  have hdefines := (hf.exact.definition_iff v s).1 hs
  rw [hg.exact.definition_iff]
  cases s with
  | insn i =>
    rw [siteBlock] at hreached
    rw [Defines, siteBlock, siteBlock, h.insn, if_pos hreached]
    exact ⟨hdefines, rfl⟩
  | phi p =>
    rw [siteBlock] at hreached
    rw [Defines, siteBlock, siteBlock, h.phi, if_pos hreached]
    exact ⟨hdefines, rfl⟩

lemma definingBlock? (hc : f.reached c) (hdef : f.definingBlock? v = some c) :
    g.definingBlock? v = some c := by
  rw [definingBlock?_eq, Option.map_eq_some_iff] at hdef ⊢
  obtain ⟨s, hs, rfl⟩ := hdef
  exact ⟨s, h.definition hf hg hs hc⟩

lemma availEnd (hv : f.AvailEnd v b) : g.AvailEnd v b := by
  intro t ht
  have ht := h.trail ht
  obtain ⟨c, hc, hdef⟩ := hv t ht
  exact ⟨c, hc, h.definingBlock? hf hg (hf.reached_of_mem_trail ht hc) hdef⟩

lemma availBefore (hb : f.reached b) (hfront : (f.block b).insns = front ++ rest)
    (hv : f.AvailBefore v b front) : g.AvailBefore v b front := by
  rcases hv with ⟨j, hj, hd⟩ | hstart
  · have hblock := ((hf.exact.insns_iff b j).1 (by simp [hfront, hj])).2
    refine .inl ⟨j, hj, ?_⟩
    rw [h.insn, hblock, if_pos hb, hd]
  · right
    intro t ht
    have ht := h.trail ht
    rcases hstart t ht with ⟨c, hc, hdef⟩ | ⟨q, hq, hblock⟩
    · refine .inl ⟨c, hc, h.definingBlock? hf hg ?_ hdef⟩
      exact hf.reached_of_mem_trail ht (mem_cons_of_mem b hc)
    · obtain ⟨hdef, hsite⟩ := h.definition hf hg hq (by rw [siteBlock, hblock, hb])
      exact .inr ⟨q, hdef, hsite.trans hblock⟩

lemma defined (hb : f.reached b) (hv : f.AvailEnd v b) : ((g.value v).definition).isSome := by
  obtain ⟨t, ht⟩ := hf.reached_iff.1 hb
  obtain ⟨c, hc, hdef⟩ := hv t ht
  have hdef := h.definingBlock? hf hg (hf.reached_of_mem_trail ht hc) hdef
  rw [definingBlock?_eq, Option.map_eq_some_iff] at hdef
  obtain ⟨s, hs, -⟩ := hdef
  rw [hs]
  rfl

omit hf hg in
lemma phi_of_live (hq : g.LivePhi q) :
    f.reached (f.phi q).block ∧ f.LivePhi q ∧ g.phi q = { f.phi q with
      operands := keepBy f.reached (f.predecessors (f.phi q).block) (f.phi q).operands } := by
  have hphi := h.phi q
  split at hphi
  · rename_i hreached
    rw [LivePhi, hphi] at hq
    exact ⟨hreached, hq, hphi⟩
  · rw [LivePhi, hphi] at hq
    cases hq

lemma phi_avail {p : BlockId} (hv : (g.phi q).operands[j]? = some v)
    (hp : (g.predecessors (g.phi q).block)[j]? = some p) : f.reached p ∧ f.AvailEnd v p := by
  have hlive := hg.exact.live_of_reads_phi (mem_of_getElem? hv)
  obtain ⟨hreached, hliveq, hphi⟩ := h.phi_of_live hlive
  rw [hphi] at hv hp
  rw [h.predecessors hreached] at hp
  have harity := hf.flow.arity q hliveq not_false
  obtain ⟨k, hk, hvk⟩ := getElem?_keepBy harity hv hp
  exact ⟨(mem_filter.1 (mem_of_getElem? hp)).2, hf.flow.phi_avail q k v p hvk hk⟩

omit hg in
lemma insn_avail {i : InsnId} (hlist : (g.block b).insns = front ++ i :: rest)
    (hv : v ∈ (g.insn i).op.operands) :
    f.reached b ∧ (f.block b).insns = front ++ i :: rest ∧ f.AvailBefore v b front := by
  have hreached : f.reached b := by
    by_contra hnot
    rw [h.gone b (by simpa using hnot)] at hlist
    simp [Block.gone] at hlist
  rw [h.block b hreached] at hlist
  have hmem : i ∈ (f.block b).insns := hlist ▸ mem_append_right front mem_cons_self
  rw [h.insn, ((hf.exact.insns_iff b i).1 hmem).2, if_pos hreached] at hv
  exact ⟨hreached, hlist, hf.flow.insn_avail b front i rest hlist v hv⟩

lemma flow : g.Flow fun _ => False := by
  refine ⟨hg.exact, ?_, fun q hq => hq.elim, ?_, ?_, ?_, ?_⟩
  · rw [h.predecessors (b := g.entry) (reached_entry hf.entry_live)]
    exact (congrArg _ hf.flow.entry_preds).trans filter_nil
  · intro q hq _
    obtain ⟨hreached, hlive, hphi⟩ := h.phi_of_live hq
    rw [hphi, h.predecessors hreached]
    exact length_keepBy (hf.flow.arity q hlive not_false)
  · intro q j v p hv hp
    exact h.availEnd hf hg (h.phi_avail hf hg hv hp).2
  · intro b front i rest hlist v hv
    obtain ⟨hreached, hlist, hav⟩ := h.insn_avail hf hlist hv
    exact h.availBefore hf hg hreached hlist hav
  · rintro v (i | q) hr
    · have hi := (hg.exact.insns_iff _ i).2 ⟨hg.exact.live_of_reads_insn hr, rfl⟩
      obtain ⟨front, rest, hlist⟩ := append_of_mem hi
      obtain ⟨hreached, hlist, hav⟩ := h.insn_avail hf hlist hr
      refine h.defined hf hg hreached (hav.toEnd hf.exact ?_)
      intro j hj
      simp [hlist, hj]
    · have hlive := hg.exact.live_of_reads_phi hr
      obtain ⟨j, hj⟩ := getElem?_of_mem hr
      obtain ⟨hreached, hliveq, hphi⟩ := h.phi_of_live hlive
      have hlt := (List.getElem?_eq_some_iff.1 hj).1
      have harity : (g.phi q).operands.length = (g.predecessors (g.phi q).block).length := by
        rw [hphi, h.predecessors hreached]
        exact length_keepBy (hf.flow.arity q hliveq not_false)
      rw [harity] at hlt
      obtain ⟨hp, hav⟩ := h.phi_avail hf hg hj (getElem?_eq_getElem hlt)
      exact h.defined hf hg hp hav

omit hg in
lemma successors (hb : f.reached b) (hlive : f.LiveBlock b) : g.successors b = f.successors b := by
  obtain ⟨front, last, hlist, hlast, -⟩ := hf.terminated b hlive
  have hsame : g.insn last = f.insn last := by
    have hblock := (hf.exact.of_split hlist).2
    rw [h.insn, hblock, if_pos hb]
  have hlist' : (g.block b).insns = front ++ [last] := by rw [h.block b hb, hlist]
  rw [Function.successors, Function.successors, normalSuccessors_of_last hlist hlast,
    normalSuccessors_of_last hlist' (by rw [hsame, hlast]), hsame, h.block b hb]

theorem wellFormed : g.WellFormed := by
  refine ⟨h.flow hf hg, ?_, hg.gone, ?_, ?_⟩
  · rw [h.block g.entry (reached_entry hf.entry_live)]
    exact hf.entry_live
  · intro b hb
    have hreached := h.reached_of_live hb
    rw [h.block b hreached] at hb ⊢
    obtain ⟨front, last, hlist, hlast, hfront⟩ := hf.terminated b hb
    have hsame : ∀ i ∈ (f.block b).insns, g.insn i = f.insn i := by
      intro i hi
      rw [h.insn, ((hf.exact.insns_iff b i).1 hi).2, if_pos hreached]
    refine ⟨front, last, hlist, ?_, ?_⟩
    · rw [hsame last (by simp [hlist])]
      exact hlast
    · intro i hi
      rw [hsame i (by simp [hlist, hi])]
      exact hfront i hi
  · intro b p
    by_cases hp : f.reached p = true
    · have hsucc : g.successors p = f.successors p := by
        obtain ⟨t, ht⟩ := hf.reached_iff.1 hp
        exact h.successors hf hp (hf.live_of_trail ht)
      rw [hsucc, ← hf.edges b p]
      by_cases hb : f.reached b = true
      · rw [h.predecessors hb, count_filter hp]
      · -- no edge leads from a reached block to an unreached one
        have hnot : p ∉ f.predecessors b := fun hmem => hb (hf.reached_of_edge hp hmem)
        rw [count_eq_zero.2 hnot, Function.predecessors, h.gone b (by simpa using hb)]
        rfl
    · have hgone := h.gone p (by simpa using hp)
      rw [successors_of_gone hgone, count_nil, count_eq_zero]
      intro hmem
      rw [h.predecessors (h.reached_of_pred hmem)] at hmem
      exact hp (mem_filter.1 hmem).2

end Trimmed

lemma WellFormed.trimmed (h : f.WellFormed) : f.Trimmed f.removeUnreachableBlocks.2 :=
  h.orderly.trimmed fun _ _ hp => ⟨h.mem_successors_iff.2 hp, h.live_pred hp⟩

lemma WellFormed.removeUnreachableBlocks (h : f.WellFormed) :
    f.removeUnreachableBlocks.2.WellFormed :=
  h.trimmed.wellFormed h h.orderly.removeUnreachableBlocks

end Dissolve.Ssa.Function
