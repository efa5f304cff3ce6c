import Dissolve.Ssa.BlockMerging
import Dissolve.Proofs.Ssa.Substitution

/-!
# Proofs.Ssa.Merging — a block takes over the block it jumps to

Leaving out jumps makes the ways through a function shorter. `Function.Shortens f g home` says that the
trails of `g` are trails of `f` without some blocks, and that what a block `d` of `f` defines stands in
the block `home d` of `g`; so what is available in `f` is available in `g`.

`Function.Chained f b succ jump front` says when the block `b` may take over `succ`; the result
`Function.joined` is well formed (`Chained.wellFormed`).
-/

namespace Dissolve.Ssa.Function

open List

/-! ## Shorter ways -/

/-- The trails of `g` are trails of `f` without some blocks. -/
structure Shortens (f g : Function) (home : BlockId → BlockId) : Prop where
  exact : f.Exact
  exact' : g.Exact
  definition : ∀ v, (g.value v).definition = (f.value v).definition
  site : ∀ v s, f.Defines v s → g.siteBlock s = home (f.siteBlock s)
  trail : ∀ c t, g.Trail (c :: t) → home c = c ∧
    ∃ t', f.Trail (c :: t') ∧ ∀ d ∈ t', ∀ v, f.definingBlock? v = some d → home d ∈ t

namespace Shortens

variable {f g : Function} {home : BlockId → BlockId} {v : ValueId} {c d : BlockId}

section

variable (h : f.Shortens g home)
include h

lemma definingBlock? (hd : f.definingBlock? v = some d) : g.definingBlock? v = some (home d) := by
  rw [definingBlock?_eq, Option.map_eq_some_iff] at hd ⊢
  obtain ⟨s, hs, rfl⟩ := hd
  exact ⟨s, (h.definition v).trans hs, h.site v s ((h.exact.definition_iff v s).1 hs)⟩

lemma dest {i : InsnId} (hd : (f.insn i).dest = some v) : (g.insn i).dest = some v := by
  have hdef := (h.exact.definition_iff v (.insn i)).2 hd
  exact (h.exact'.definition_iff v (.insn i)).1 ((h.definition v).trans hdef)

lemma availStart (hv : f.AvailStart v c) : g.AvailStart v c := by
  intro t ht
  obtain ⟨hhome, t', ht', hpass⟩ := h.trail c t ht
  rcases hv t' ht' with ⟨d, hd, hdef⟩ | ⟨q, hq, hblock⟩
  · exact .inl ⟨home d, hpass d hd v hdef, h.definingBlock? hdef⟩
  · refine .inr ⟨q, (h.definition v).trans hq, ?_⟩
    have hsite := h.site v (.phi q) ((h.exact.definition_iff v (.phi q)).1 hq)
    rw [siteBlock, siteBlock, hblock, hhome] at hsite
    exact hsite

lemma availEnd (hv : f.AvailEnd v c) : g.AvailEnd v c := by
  intro t ht
  obtain ⟨hhome, t', ht', hpass⟩ := h.trail c t ht
  obtain ⟨d, hd, hdef⟩ := hv t' ht'
  refine ⟨home d, ?_, h.definingBlock? hdef⟩
  rcases mem_cons.1 hd with rfl | hd
  · rw [hhome]
    exact mem_cons_self
  · exact mem_cons_of_mem c (hpass d hd v hdef)

lemma availBefore {before more : List InsnId} (hv : f.AvailBefore v c before)
    (hsub : ∀ i ∈ before, i ∈ more) : g.AvailBefore v c more := by
  rcases hv with ⟨i, hi, hd⟩ | hstart
  · exact .inl ⟨i, hsub i hi, h.dest hd⟩
  · exact .inr (h.availStart hstart)

end

end Shortens

/-! ## Joining two blocks -/

/-- The block `b` ends with a jump to `succ` and is the only way there, and neither is covered by
handlers. -/
structure Chained (f : Function) (b succ : BlockId) (jump : InsnId) (front : List InsnId) : Prop where
  insns : (f.block b).insns = front ++ [jump]
  op : (f.insn jump).op = .goto succ
  void : (f.insn jump).dest = none
  ne : succ ≠ b
  entry : succ ≠ f.entry
  preds : f.predecessors succ = [b]
  uncovered : (f.block b).handlers = []
  uncovered_succ : (f.block succ).handlers = []
  phis : (f.block succ).phis = []

def joined (f : Function) (b succ : BlockId) (jump : InsnId) : Function :=
  (f.withoutInsn jump).absorb b succ

/-- Where the instructions of a block are when `b` has taken over `succ`. -/
def joinedHome (b succ c : BlockId) : BlockId :=
  if c = succ then b else c

@[simp] lemma joinedHome_succ (b succ : BlockId) : joinedHome b succ succ = b := if_pos rfl

lemma joinedHome_of_ne {b succ c : BlockId} (h : c ≠ succ) : joinedHome b succ c = c := if_neg h

namespace Chained

variable {f : Function} {b succ c p : BlockId} {jump i : InsnId} {front : List InsnId} {v : ValueId}
  (h : f.Chained b succ jump front) (hf : f.WellFormed)

include h hf

lemma live_jump : f.LiveInsn jump ∧ (f.insn jump).block = b :=
  (hf.exact.insns_iff b jump).1 (by simp [h.insns])

lemma live_block : f.LiveBlock b :=
  hf.orderly.live_of_split h.insns

lemma live_succ : f.LiveBlock succ :=
  hf.live_of_pred (p := b) (by simp [h.preds])

omit hf in
lemma successors_block : f.successors b = [succ] := by
  rw [successors, normalSuccessors_of_last h.insns (by rw [h.op]; rfl), h.uncovered, h.op]
  rfl

omit hf in
lemma eq_of_edge (hp : p ∈ f.predecessors succ) : p = b := by
  rw [h.preds] at hp
  exact mem_singleton.1 hp

lemma front_plain : ∀ i ∈ front, (f.insn i).op.isTerminator = false := by
  obtain ⟨front', last, hlist, -, hfront⟩ := hf.terminated b (h.live_block hf)
  rw [h.insns] at hlist
  obtain ⟨rfl, -⟩ := append_inj' hlist rfl
  exact hfront

lemma not_mem_front : jump ∉ front :=
  (hf.exact.not_mem_of_split h.insns).1

lemma not_mem_succ : jump ∉ (f.block succ).insns := fun hmem =>
  h.ne (((hf.exact.insns_iff succ jump).1 hmem).2.symm.trans (h.live_jump hf).2)

lemma filter_insns : (f.block c).insns.filter (fun j => j ≠ jump) =
    if c = b then front else (f.block c).insns := by
  split
  · rename_i hc
    rw [hc, h.insns, filter_append, filter_cons_of_neg (by simp), filter_nil,
      append_nil, filter_eq_self]
    exact fun j hj => decide_eq_true fun heq => h.not_mem_front hf (heq ▸ hj)
  · rename_i hc
    rw [filter_eq_self]
    intro j hj
    refine decide_eq_true fun heq => hc ?_
    exact (((hf.exact.insns_iff c jump).1 (heq ▸ hj)).2.symm.trans (h.live_jump hf).2)

lemma block_withoutJump : (f.withoutInsn jump).block c =
    { f.block c with insns := if c = b then front else (f.block c).insns } := by
  rw [hf.exact.block_withoutInsn (h.live_jump hf).1, h.filter_insns hf]

lemma orderly : (f.joined b succ jump).Orderly := by
  have hb := h.live_block hf
  refine (hf.orderly.withoutInsn (h.live_jump hf).1).absorb h.ne ?_ ?_
  · rw [LiveBlock, h.block_withoutJump hf]
    exact hb
  · rw [h.block_withoutJump hf]
    exact h.phis

lemma insn_joined (hi : i ≠ jump) : (f.joined b succ jump).insn i =
    { f.insn i with block := if i ∈ (f.block succ).insns then b else (f.insn i).block } := by
  rw [joined, (hf.exact.withoutInsn (h.live_jump hf).1).insn_absorb, insn_withoutInsn hi,
    h.block_withoutJump hf, if_neg h.ne]

lemma op_joined_jump : ((f.joined b succ jump).insn jump).op = .nop := by
  have hlive := (h.live_jump hf).1
  rw [joined, (hf.exact.withoutInsn hlive).insn_absorb, insn_withoutInsn_self hlive]
  rfl

lemma removed_joined_jump : ((f.joined b succ jump).insn jump).removed := by
  have hlive := (h.live_jump hf).1
  rw [joined, (hf.exact.withoutInsn hlive).insn_absorb, insn_withoutInsn_self hlive]
  rfl

omit h hf in
lemma phi_joined (q : PhiId) : (f.joined b succ jump).phi q = f.phi q := by
  rw [joined, phi, phis_absorb, ← phi, phi_withoutInsn]

omit h hf in
lemma block_joined_gone : (f.joined b succ jump).block succ = Block.gone :=
  block_absorb_source

lemma normalSuccessors_withoutJump :
    (f.withoutInsn jump).normalSuccessors succ = f.normalSuccessors succ := by
  obtain ⟨front', last, hlist, hlast, -⟩ := hf.terminated succ (h.live_succ hf)
  have hne : last ≠ jump := fun heq => h.not_mem_succ hf (by simp [hlist, heq])
  have hlist' : ((f.withoutInsn jump).block succ).insns = front' ++ [last] := by
    rw [h.block_withoutJump hf, if_neg h.ne, hlist]
  rw [normalSuccessors_of_last hlist hlast,
    normalSuccessors_of_last hlist' (by rw [insn_withoutInsn hne, hlast]), insn_withoutInsn hne]

lemma block_joined (hc : c ≠ succ) : (f.joined b succ jump).block c = { f.block c with
    insns := if c = b then front ++ (f.block succ).insns else (f.block c).insns
    preds := (f.block c).preds.map (joinedHome b succ) } := by
  have hlt := f.lt_blocks_of_live (h.live_block hf)
  have hsize : (f.withoutInsn jump).blocks.size = f.blocks.size := by
    simp [withoutInsn]
  rw [joined, block_absorb h.ne hc, h.normalSuccessors_withoutJump hf, h.block_withoutJump hf,
    h.block_withoutJump hf, if_neg h.ne, hsize]
  have hpreds : (if c ∈ f.normalSuccessors succ then
      (f.block c).preds.map fun p => if p = succ then b else p else (f.block c).preds) =
        (f.block c).preds.map (joinedHome b succ) := by
    split
    · rfl
    · rename_i hnot
      have hkept : ∀ p ∈ (f.block c).preds, joinedHome b succ p = p := by
        intro p hp
        apply joinedHome_of_ne
        rintro rfl
        have hedge := hf.mem_successors_iff.2 hp
        rw [successors, h.uncovered_succ, map_nil, append_nil] at hedge
        exact hnot hedge
      rw [map_congr_left hkept, map_id']
  rw [hpreds]
  by_cases hcb : c = b
  · simp [hcb, hlt]
  · simp [hcb]

lemma predecessors_joined (hc : c ≠ succ) : (f.joined b succ jump).predecessors c =
    (f.predecessors c).map (joinedHome b succ) := by
  rw [predecessors, h.block_joined hf hc]
  rfl

lemma definition_joined (v : ValueId) :
    ((f.joined b succ jump).value v).definition = (f.value v).definition := by
  rw [joined, value, values_absorb, ← value]
  apply hf.exact.definition_withoutInsn (h.live_jump hf).1
  rw [h.void]
  exact (Option.some_ne_none v).symm

lemma phi_block_ne {q : PhiId} (hq : f.LivePhi q) : (f.phi q).block ≠ succ := by
  intro heq
  have hmem := (hf.exact.phis_iff succ q).2 ⟨hq, heq⟩
  rw [h.phis] at hmem
  cases hmem

omit hf in
lemma ne_jump_of_dest (hd : (f.insn i).dest = some v) : i ≠ jump := by
  rintro rfl
  rw [h.void] at hd
  cases hd

lemma shortens : f.Shortens (f.joined b succ jump) (joinedHome b succ) := by
  refine ⟨hf.exact, (h.orderly hf).exact, h.definition_joined hf, ?_, ?_⟩
  · rintro v (i | q) hdef
    · have hd : (f.insn i).dest = some v := hdef
      have hlive := hf.exact.live_of_dest hd
      have hmem := hf.exact.insns_iff succ i
      rw [siteBlock, siteBlock, h.insn_joined hf (h.ne_jump_of_dest hd)]
      by_cases hblock : (f.insn i).block = succ
      · rw [hblock, joinedHome_succ, if_pos (hmem.2 ⟨hlive, hblock⟩)]
      · rw [joinedHome_of_ne hblock, if_neg fun hin => hblock (hmem.1 hin).2]
    · rw [siteBlock, siteBlock, phi_joined, joinedHome_of_ne (h.phi_block_ne hf hdef.1)]
  · -- a trail that comes by the joined block comes by both parts
    suffices htrail : ∀ l, (f.joined b succ jump).Trail l → ∀ c t, l = c :: t → c ≠ succ ∧
        ∃ t', f.Trail (c :: t') ∧ ∀ d ∈ t', joinedHome b succ d ∈ t by
      intro c t ht
      obtain ⟨hc, t', ht', hpass⟩ := htrail _ ht c t rfl
      exact ⟨if_neg hc, t', ht', fun d hd _ _ => hpass d hd⟩
    intro l hl
    induction hl with
    | start =>
      rintro c t ⟨⟩
      exact ⟨h.entry.symm, [], .start, forall_mem_nil _⟩
    | @step p c t walked edge ih =>
      rintro _ _ ⟨⟩
      have hc : c ≠ succ := by
        rintro rfl
        rw [predecessors, block_joined_gone] at edge
        cases edge
      obtain ⟨-, t', ht', hpass⟩ := ih p t rfl
      rw [h.predecessors_joined hf hc, mem_map] at edge
      obtain ⟨p', hp', rfl⟩ := edge
      refine ⟨hc, ?_⟩
      by_cases hsucc : p' = succ
      · subst hsucc
        rw [joinedHome_succ] at ht' ⊢
        have hedge : b ∈ f.predecessors p' := by simp [h.preds]
        refine ⟨p' :: b :: t', .step (.step ht' hedge) hp', ?_⟩
        rintro d (_ | ⟨_, _ | ⟨_, hd⟩⟩)
        · rw [joinedHome_succ]
          exact mem_cons_self
        · rw [joinedHome_of_ne h.ne.symm]
          exact mem_cons_self
        · exact mem_cons_of_mem _ (hpass d hd)
      · rw [joinedHome_of_ne hsucc] at ht' ⊢
        refine ⟨p' :: t', .step ht' hp', ?_⟩
        rintro d (_ | ⟨_, hd⟩)
        · rw [joinedHome_of_ne hsucc]
          exact mem_cons_self
        · exact mem_cons_of_mem _ (hpass d hd)

lemma availEnd_succ (hv : f.AvailEnd v succ) : (f.joined b succ jump).AvailEnd v b := by
  intro t ht
  have hs := h.shortens hf
  obtain ⟨-, t', ht', hpass⟩ := hs.trail b t ht
  have hedge : b ∈ f.predecessors succ := by simp [h.preds]
  obtain ⟨d, hd, hdef⟩ := hv (b :: t') (.step ht' hedge)
  refine ⟨joinedHome b succ d, ?_, hs.definingBlock? hdef⟩
  rcases mem_cons.1 hd with rfl | hd
  · rw [joinedHome_succ]
    exact mem_cons_self
  · rcases mem_cons.1 hd with rfl | hd
    · rw [joinedHome_of_ne h.ne.symm]
      exact mem_cons_self
    · exact mem_cons_of_mem b (hpass d hd v hdef)

lemma insn_avail {before after : List InsnId}
    (hlist : ((f.joined b succ jump).block c).insns = before ++ i :: after)
    (hv : v ∈ ((f.joined b succ jump).insn i).op.operands) :
    (f.joined b succ jump).AvailBefore v c before := by
  have hs := h.shortens hf
  have hc : c ≠ succ := by
    rintro rfl
    rw [block_joined_gone] at hlist
    simp [Block.gone] at hlist
  have hread : ∀ c' : BlockId, i ∈ (f.block c').insns → (c' = b → i ∈ front) →
      v ∈ (f.insn i).op.operands := by
    intro c' hmem hfront
    have hne : i ≠ jump := by
      rintro rfl
      have hblock := ((hf.exact.insns_iff c' i).1 hmem).2
      exact h.not_mem_front hf (hfront (hblock.symm.trans (h.live_jump hf).2))
    rwa [h.insn_joined hf hne] at hv
  rw [h.block_joined hf hc] at hlist
  by_cases hcb : c = b
  · subst hcb
    simp only [if_true] at hlist
    rcases in_part_of_append hlist with ⟨rest, hfront⟩ | ⟨before', rfl, hsucc⟩
    · have hsplit : (f.block c).insns = before ++ i :: (rest ++ [jump]) := by
        rw [h.insns, hfront, append_assoc, cons_append]
      have hmem : v ∈ (f.insn i).op.operands := hread c (by simp [hsplit]) fun _ => by simp [hfront]
      exact hs.availBefore (hf.flow.insn_avail c before i _ hsplit v hmem) fun _ hj => hj
    · have hmem : v ∈ (f.insn i).op.operands :=
        hread succ (by simp [hsucc]) fun heq => absurd heq h.ne
      rcases hf.flow.insn_avail succ before' i after hsucc v hmem with ⟨j, hj, hd⟩ | hstart
      · exact .inl ⟨j, mem_append_right _ hj, hs.dest hd⟩
      · -- at the start of the second block there is what was there at the end of the first
        have hphi : ¬f.IsPhiOf v succ := by
          rintro ⟨q, hq, hblock⟩
          exact h.phi_block_ne hf ((hf.exact.definition_iff v (.phi q)).1 hq).1 hblock
        have hend : f.AvailEnd v c := hstart.at_pred hphi (by simp [h.preds])
        have hbefore := hend.before hf.exact (hf.flow.defined v (.insn i) hmem)
        rcases hbefore with ⟨j, hj, hd⟩ | hstart
        · rw [h.insns] at hj
          rcases mem_append.1 hj with hj | hj
          · exact .inl ⟨j, mem_append_left _ hj, hs.dest hd⟩
          · exact absurd (mem_singleton.1 hj) (h.ne_jump_of_dest hd)
        · exact .inr (hs.availStart hstart)
  · simp only [hcb, if_false] at hlist
    have hmem : v ∈ (f.insn i).op.operands := hread c (by simp [hlist]) fun heq => absurd heq hcb
    exact hs.availBefore (hf.flow.insn_avail c before i after hlist v hmem) fun _ hj => hj

lemma flow : (f.joined b succ jump).Flow fun _ => False := by
  have hs := h.shortens hf
  have hlive : ∀ {q : PhiId} {j : Nat} {v : ValueId}, (f.phi q).operands[j]? = some v →
      f.LivePhi q := fun hv =>
    hf.exact.live_of_reads_phi (mem_of_getElem? hv)
  refine ⟨(h.orderly hf).exact, ?_, fun q hq => hq.elim, ?_, ?_, ?_, ?_⟩
  · have hentry := hf.flow.entry_preds
    rw [show (f.joined b succ jump).entry = f.entry from rfl,
      h.predecessors_joined hf h.entry.symm, hentry]
    rfl
  · intro q hq _
    rw [phi_joined] at hq ⊢
    rw [h.predecessors_joined hf (h.phi_block_ne hf hq), length_map]
    exact hf.flow.arity q hq not_false
  · intro q j v p hv hp
    rw [phi_joined] at hv hp
    rw [h.predecessors_joined hf (h.phi_block_ne hf (hlive hv)), getElem?_map,
      Option.map_eq_some_iff] at hp
    obtain ⟨p', hp', rfl⟩ := hp
    have hend := hf.flow.phi_avail q j v p' hv hp'
    rw [joinedHome]
    split
    · rename_i hsucc
      exact h.availEnd_succ hf (hsucc ▸ hend)
    · exact hs.availEnd hend
  · intro c before i after hlist v hv
    exact h.insn_avail hf hlist hv
  · intro v s hr
    rw [h.definition_joined hf]
    cases s with
    | insn i =>
      by_cases hi : i = jump
      · rw [Reads, hi, h.op_joined_jump hf] at hr
        cases hr
      · rw [Reads, h.insn_joined hf hi] at hr
        exact hf.flow.defined v (.insn i) hr
    | phi q =>
      rw [Reads, phi_joined] at hr
      exact hf.flow.defined v (.phi q) hr

lemma op_joined (hne : i ≠ jump) : ((f.joined b succ jump).insn i).op = (f.insn i).op := by
  rw [h.insn_joined hf hne]

lemma ends (hlive : f.LiveBlock c) (hc : c ≠ b) : ∃ front' last,
    (f.block c).insns = front' ++ [last] ∧
    ((f.joined b succ jump).block (joinedHome b succ c)).insns =
      (if c = succ then front else []) ++ front' ++ [last] ∧
    ((f.joined b succ jump).insn last).op = (f.insn last).op ∧ (f.insn last).op.isTerminator ∧
    ∀ i ∈ front', ((f.joined b succ jump).insn i).op.isTerminator = false := by
  obtain ⟨front', last, hlist, hlast, hfront⟩ := hf.terminated c hlive
  have hsame : ∀ i ∈ (f.block c).insns, ((f.joined b succ jump).insn i).op = (f.insn i).op := by
    intro i hi
    apply h.op_joined hf
    rintro rfl
    exact hc (((hf.exact.insns_iff c i).1 hi).2.symm.trans (h.live_jump hf).2)
  refine ⟨front', last, hlist, ?_, hsame last (by simp [hlist]), hlast, fun i hi => ?_⟩
  · by_cases hsucc : c = succ
    · subst hsucc
      rw [joinedHome_succ, h.block_joined hf h.ne.symm, if_pos rfl, hlist, if_pos rfl, append_assoc]
    · rw [joinedHome_of_ne hsucc, h.block_joined hf hsucc, if_neg hsucc, nil_append]
      simp only [hc, if_false]
      exact hlist
  · rw [hsame i (by simp [hlist, hi]), hfront i hi]

lemma successors_joined (hlive : f.LiveBlock c) (hc : c ≠ b) :
    (f.joined b succ jump).successors (joinedHome b succ c) = f.successors c := by
  obtain ⟨front', last, hlist, hlist', hop, hlast, -⟩ := h.ends hf hlive hc
  have hhandlers : ((f.joined b succ jump).block (joinedHome b succ c)).handlers =
      (f.block c).handlers := by
    by_cases hsucc : c = succ
    · rw [hsucc, joinedHome_succ, h.block_joined hf h.ne.symm, h.uncovered_succ]
      exact h.uncovered
    · rw [joinedHome_of_ne hsucc, h.block_joined hf hsucc]
  rw [successors, successors, normalSuccessors_of_last hlist hlast,
    normalSuccessors_of_last hlist' (by rw [hop, hlast]), hop, hhandlers]

lemma edges (c p : BlockId) : ((f.joined b succ jump).predecessors c).count p =
    ((f.joined b succ jump).successors p).count c := by
  -- the edges out of a block other than the joined one
  have hother : p ≠ succ → p ≠ b → (f.joined b succ jump).successors p = f.successors p := by
    intro hp hpb
    by_cases hlive : f.LiveBlock p
    · rw [← h.successors_joined hf hlive hpb, joinedHome_of_ne hp]
    · have hgone : (f.joined b succ jump).block p = Block.gone := by
        apply (h.orderly hf).gone
        rw [h.block_joined hf hp]
        simpa using hlive
      rw [successors_of_gone hgone, successors_of_gone (hf.gone p (by simpa using hlive))]
  have hjoined : (f.joined b succ jump).successors b = f.successors succ := by
    rw [← h.successors_joined hf (h.live_succ hf) h.ne, joinedHome_succ]
  have hgone : (f.joined b succ jump).successors succ = [] := successors_of_gone block_joined_gone
  by_cases hc : c = succ
  · subst hc
    have hnone : c ∉ (f.joined b c jump).successors p := by
      intro hmem
      by_cases hp : p = c
      · rw [hp, hgone] at hmem
        cases hmem
      · by_cases hpb : p = b
        · rw [hpb, hjoined] at hmem
          exact h.ne (h.eq_of_edge (hf.mem_successors_iff.1 hmem))
        · rw [hother hp hpb] at hmem
          exact hpb (h.eq_of_edge (hf.mem_successors_iff.1 hmem))
    rw [predecessors, block_joined_gone, count_eq_zero.2 hnone]
    rfl
  · have hcount : ∀ q, (∀ x ∈ f.predecessors c, joinedHome b succ x = p ↔ x = q) →
        ((f.joined b succ jump).predecessors c).count p = (f.successors q).count c := by
      intro q hq
      rw [h.predecessors_joined hf hc, ← hf.edges, count, countP_map]
      refine countP_congr fun x hx => ?_
      simpa using hq x hx
    by_cases hp : p = succ
    · rw [hp, hgone, count_nil, count_eq_zero, h.predecessors_joined hf hc, mem_map]
      rintro ⟨x, -, hx⟩
      by_cases hxs : x = succ
      · rw [hxs, joinedHome_succ] at hx
        exact h.ne hx.symm
      · rw [joinedHome_of_ne hxs] at hx
        exact hxs hx
    · by_cases hpb : p = b
      · subst hpb
        rw [hjoined]
        refine hcount succ fun x hx => ⟨fun heq => ?_, fun heq => ?_⟩
        · by_contra hxs
          rw [joinedHome_of_ne hxs] at heq
          rw [heq, ← hf.mem_successors_iff, h.successors_block, mem_singleton] at hx
          exact hc hx
        · rw [heq, joinedHome_succ]
      · rw [hother hp hpb]
        refine hcount p fun x _ => ⟨fun heq => ?_, fun heq => ?_⟩
        · by_cases hxs : x = succ
          · rw [hxs, joinedHome_succ] at heq
            exact absurd heq.symm hpb
          · rwa [joinedHome_of_ne hxs] at heq
        · rw [heq, joinedHome_of_ne hp]

theorem wellFormed : (f.joined b succ jump).WellFormed := by
  refine ⟨h.flow hf, ?_, (h.orderly hf).gone, ?_, h.edges hf⟩
  · rw [show (f.joined b succ jump).entry = f.entry from rfl, h.block_joined hf h.entry.symm]
    exact hf.entry_live
  · intro c hlive
    have hc : c ≠ succ := by
      rintro rfl
      rw [block_joined_gone] at hlive
      cases hlive
    by_cases hcb : c = b
    · subst hcb
      obtain ⟨front', last, -, hlist, hop, hlast, hfront⟩ := h.ends hf (h.live_succ hf) h.ne
      rw [joinedHome_succ, if_pos rfl] at hlist
      refine ⟨front ++ front', last, hlist, by rw [hop, hlast], fun i hi => ?_⟩
      rcases mem_append.1 hi with hi | hi
      · rw [h.op_joined hf fun heq => h.not_mem_front hf (heq ▸ hi)]
        exact h.front_plain hf i hi
      · exact hfront i hi
    · have hold : f.LiveBlock c := by
        rw [h.block_joined hf hc] at hlive
        exact hlive
      obtain ⟨front', last, -, hlist, hop, hlast, hfront⟩ := h.ends hf hold hcb
      rw [joinedHome_of_ne hc, if_neg hc, nil_append] at hlist
      exact ⟨front', last, hlist, by rw [hop, hlast], hfront⟩

end Chained

end Dissolve.Ssa.Function
