import Dissolve.Proofs.Inline.Edges
import Dissolve.Proofs.Ssa.Substitution

/-!
# Proofs.Inline.Trails — the ways through an expanded caller

A trail of the expanded caller follows a trail of the caller, which passes the split block exactly when
the trail passes both of its parts, and inside the copy it follows a trail of the callee besides
(`Opened.projects`). So what is available in the caller or in the callee is available in the expanded
caller, and every use is (`Opened.flow`): the expanded caller is well formed as long as the call is
still in it.
-/

namespace Dissolve.Inline

open List
open Ssa (Edit Function Op Position)
open Ssa.Function
open Semantics

variable {callee g f : Function} {i call j : InsnId} {s : Site} {t' t : List BlockId}
  {front is js rest : List InsnId} {block : BlockId → BlockId}
  {exit : Option ValueId → List InsnId → Prop} {result : Option ValueId} {value : ValueId → ValueId}

/-- Every block of the trail `t'` is on the trail `t`, the split block with both its parts. -/
def Passes (f : Function) (call : InsnId) (t' t : List BlockId) : Prop :=
  ∀ d ∈ t', d ∈ t ∧ (d = (f.insn call).block → ⟨f.blocks.size⟩ ∈ t)

/-- A trail that ends in `b` follows trails of the caller and of the callee. -/
structure Projects (f callee : Function) (call : InsnId) (r : Renaming) (b : BlockId)
    (t : List BlockId) : Prop where
  old : b.index < f.blocks.size → ∃ t', f.Trail (b :: t') ∧ Passes f call t' t
  new : f.blocks.size ≤ b.index →
    ∃ t', f.Trail ((f.insn call).block :: t') ∧ Passes f call t' t ∧ (f.insn call).block ∈ t
  copy : ∀ c, (callee.block c).removed = false → r.block c = b →
    ∃ t', callee.Trail (c :: t') ∧ ∀ d ∈ t', r.block d ∈ t

lemma Passes.cons (h : Passes f call t' t) (b : BlockId) : Passes f call t' (b :: t) := by
  intro d hd
  obtain ⟨hmem, htail⟩ := h d hd
  exact ⟨mem_cons_of_mem b hmem, fun heq => mem_cons_of_mem b (htail heq)⟩

lemma Passes.through (h : Passes f call t' t) (hmem : (f.insn call).block ∈ t) :
    Passes f call ((f.insn call).block :: t') (⟨f.blocks.size⟩ :: t) :=
  forall_mem_cons.2 ⟨⟨mem_cons_of_mem _ hmem, fun _ => mem_cons_self⟩, h.cons _⟩

lemma Passes.along {b : BlockId} (h : Passes f call t' t) (hb : b ≠ (f.insn call).block) :
    Passes f call (b :: t') (b :: t) :=
  forall_mem_cons.2 ⟨⟨mem_cons_self, fun heq => absurd heq hb⟩, h.cons b⟩

lemma transcribed_at (h : Transcribed callee g value block exit is js)
    (hj : js = front ++ j :: rest) :
    (∃ front' i rest', is = front' ++ i :: rest' ∧
      (g.insn j).op = ((callee.insn i).op.mapOperands value).mapTargets block ∧
      ∀ k ∈ front', (∃ index, (callee.insn k).op = .argument index) ∨
        ∃ j' ∈ front, (g.insn j').dest = (callee.insn k).dest.map value) ∨
    ∃ returned out, exit returned out ∧ j ∈ out := by
  induction h generalizing front with
  | nil => simp at hj
  | @param i is js index op _ ih =>
    rcases ih hj with ⟨front', k, rest', rfl, hop, hfront⟩ | hexit
    · refine .inl ⟨i :: front', k, rest', rfl, hop, ?_⟩
      rintro m (_ | ⟨_, hm⟩)
      · exact .inl ⟨index, op⟩
      · exact hfront m hm
    · exact .inr hexit
  | @copy i j' is js op dest param ret _ ih =>
    cases front with
    | nil =>
      obtain ⟨rfl, -⟩ := cons.inj hj
      exact .inl ⟨[], i, is, rfl, op, nofun⟩
    | cons first front =>
      obtain ⟨rfl, htail⟩ := cons.inj hj
      rcases ih htail with ⟨front', k, rest', rfl, hop, hfront⟩ | hexit
      · refine .inl ⟨i :: front', k, rest', rfl, hop, ?_⟩
        rintro m (_ | ⟨_, hm⟩)
        · exact .inr ⟨j', mem_cons_self, dest⟩
        · exact (hfront m hm).imp_right fun ⟨j'', hj'', hd⟩ =>
            ⟨j'', mem_cons_of_mem _ hj'', hd⟩
      · exact .inr hexit
  | leave _ exits => exact .inr ⟨_, _, exits, by simp [hj]⟩

lemma transcribed_of_mem (h : Transcribed callee g value block exit is js)
    (hi : is = front ++ i :: rest)
    (hfront : ∀ k ∈ front, ∀ returned, (callee.insn k).op ≠ .ret returned)
    (hparam : ∀ index, (callee.insn i).op ≠ .argument index)
    (hret : ∀ returned, (callee.insn i).op ≠ .ret returned) :
    ∃ j ∈ js, (g.insn j).dest = (callee.insn i).dest.map value := by
  induction h generalizing front with
  | nil => simp at hi
  | @param i' is js index op _ ih =>
    cases front with
    | nil =>
      obtain ⟨rfl, -⟩ := cons.inj hi
      exact absurd op (hparam index)
    | cons first front =>
      obtain ⟨-, htail⟩ := cons.inj hi
      exact ih htail fun k hk => hfront k (mem_cons_of_mem _ hk)
  | @copy i' j is js op dest _ _ _ ih =>
    cases front with
    | nil =>
      obtain ⟨rfl, -⟩ := cons.inj hi
      exact ⟨j, mem_cons_self, dest⟩
    | cons first front =>
      obtain ⟨-, htail⟩ := cons.inj hi
      obtain ⟨j', hj', hd⟩ := ih htail fun k hk => hfront k (mem_cons_of_mem _ hk)
      exact ⟨j', mem_cons_of_mem _ hj', hd⟩
  | leave op _ =>
    cases front with
    | nil =>
      obtain ⟨rfl, -⟩ := cons.inj hi
      exact absurd op (hret _)
    | cons first front =>
      obtain ⟨rfl, -⟩ := cons.inj hi
      exact absurd op (hfront _ mem_cons_self _)

namespace Opened

variable {jump : InsnId} {before after : List InsnId} {r : Renaming}
  {returns : List (BlockId × Option ValueId)} {merge : List PhiId} {size : Nat} {b c : BlockId}
  {v w : ValueId}

variable (he : Opened f callee call before after r jump returns merge size g)
include he

theorem projects (ht : g.Trail (b :: t)) : Projects f callee call r b t := by
  have hhome_lt := he.home_lt
  generalize hl : b :: t = l at ht
  induction ht generalizing b t with
  | start =>
    obtain ⟨rfl, rfl⟩ := cons.inj hl
    have hlt : g.entry.index < f.blocks.size := f.lt_blocks_of_live he.caller.entry_live
    refine ⟨fun _ => ⟨[], .start, nofun⟩, fun hle => ?_, ?_⟩
    · omega
    · intro c hlive heq
      have hnew := (he.block_new c hlive).1
      rw [heq] at hnew
      omega
  | @step p b' t' walked edge ih =>
    obtain ⟨rfl, rfl⟩ := cons.inj hl
    have hp := ih rfl
    have hlive : g.LiveBlock b := by
      by_contra hgone
      rw [he.predecessors_of_gone hgone] at edge
      cases edge
    rcases he.cases_target hlive with hb | rfl | ⟨c, hlivec, rfl⟩
    · -- an edge of the caller, which leaves the split block by its second part
      have hlt := f.lt_blocks_of_live hb
      refine ⟨fun _ => ?_, fun hle => by omega, fun c hlivec heq => ?_⟩
      · rw [he.predecessors_old hb] at edge
        obtain ⟨q, hq, rfl⟩ := mem_map.1 edge
        by_cases hqh : q = (f.insn call).block
        · subst hqh
          rw [if_pos rfl] at hp ⊢
          obtain ⟨t'', ht'', hpass, hmem⟩ := hp.new (Nat.le_refl _)
          exact ⟨_, .step ht'' hq, hpass.through hmem⟩
        · rw [if_neg hqh] at hp ⊢
          obtain ⟨t'', ht'', hpass⟩ := hp.old (f.lt_blocks_of_live (he.caller.live_pred hq))
          exact ⟨_, .step ht'' hq, hpass.along hqh⟩
      · have hnew := (he.block_new c hlivec).1
        rw [heq] at hnew
        omega
    · -- an edge out of the copy
      rw [he.predecessors_tail] at edge
      obtain ⟨t'', ht'', hpass, hmem⟩ := hp.new (he.index_of_return edge).le
      refine ⟨fun hlt => absurd hlt (Nat.lt_irrefl _), fun _ => ?_, fun c hlivec heq => ?_⟩
      · exact ⟨t'', ht'', hpass.cons p, mem_cons_of_mem p hmem⟩
      · have hnew := (he.block_new c hlivec).1
        rw [heq] at hnew
        exact absurd hnew (Nat.lt_irrefl _)
    · have hnew := (he.block_new c hlivec).1
      rw [predecessors, he.copy_preds c hlivec] at edge
      split at edge
      · -- the edge into the copy
        rename_i hentry
        subst hentry
        obtain rfl := mem_singleton.1 edge
        obtain ⟨t'', ht'', hpass⟩ := hp.old hhome_lt
        refine ⟨fun hlt => by omega, fun _ => ?_, fun d hd heq => ?_⟩
        · exact ⟨t'', ht'', hpass.cons _, mem_cons_self⟩
        · obtain rfl := he.block_inj d _ hd hlivec heq
          exact ⟨[], .start, nofun⟩
      · -- an edge of the callee
        obtain ⟨q, hq, rfl⟩ := mem_map.1 edge
        have hliveq := he.body.live_pred hq
        obtain ⟨t'', ht'', hpass, hmem⟩ := hp.new (he.block_new q hliveq).1.le
        obtain ⟨s, hs, hcopies⟩ := hp.copy q hliveq rfl
        refine ⟨fun hlt => by omega, fun _ => ?_, fun d hd heq => ?_⟩
        · exact ⟨t'', ht'', hpass.cons _, mem_cons_of_mem _ hmem⟩
        · obtain rfl := he.block_inj d c hd hlivec heq
          refine ⟨q :: s, .step hs hq, ?_⟩
          rintro d (_ | ⟨_, hd⟩)
          · exact mem_cons_self
          · exact mem_cons_of_mem _ (hcopies d hd)

/-! ## What is available in the caller -/

lemma definition_old (hs : (f.value v).definition = some s) : (g.value v).definition = some s := by
  have hdef := (he.caller.exact.definition_iff v s).1 hs
  rw [he.orderly.exact.definition_iff]
  cases s with
  | insn i =>
    have hlive := he.caller.exact.live_of_dest (show (f.insn i).dest = some v from hdef)
    exact (he.insn i (f.lt_insns_of_live hlive)).2.trans hdef
  | phi q =>
    rwa [Defines, he.phi q (f.lt_phis_of_live hdef.1)]

lemma siteBlock_old (hs : (f.value v).definition = some s) :
    g.siteBlock s = f.siteBlock s ∨ f.siteBlock s = (f.insn call).block ∧
      g.siteBlock s = ⟨f.blocks.size⟩ ∧ ∃ i ∈ after, s = .insn i := by
  have hdef := (he.caller.exact.definition_iff v s).1 hs
  cases s with
  | insn i =>
    have hmem := (he.caller.exact.insns_iff _ i).2
      ⟨he.caller.exact.live_of_dest (show (f.insn i).dest = some v from hdef), rfl⟩
    have hstays : ∀ b, i ∈ (g.block b).insns → g.siteBlock (.insn i) = b := fun b hi =>
      ((he.orderly.exact.insns_iff b i).1 hi).2
    have hlt := f.lt_blocks_of_live (he.caller.orderly.live_block_of_mem hmem)
    by_cases hhomed : (f.insn i).block = (f.insn call).block
    · rw [hhomed, he.home] at hmem
      rcases mem_append.1 hmem with hi | hi
      · left
        rw [siteBlock.eq_1 f, hhomed]
        apply hstays
        rw [he.block _ he.home_lt, if_pos rfl]
        exact mem_append_left _ hi
      · rcases mem_cons.1 hi with rfl | hi
        · left
          apply hstays
          rw [siteBlock, he.block _ he.home_lt, if_pos rfl]
          simp
        · refine .inr ⟨hhomed, hstays _ ?_, i, hi, rfl⟩
          rwa [he.tail]
    · left
      apply hstays
      rwa [siteBlock, he.block _ hlt, if_neg hhomed]
  | phi q => rw [siteBlock, siteBlock, he.phi q (f.lt_phis_of_live hdef.1)]; exact .inl rfl

lemma passes_definition (hpass : Passes f call t' t)
    (hdef : ∃ d ∈ t', f.definingBlock? v = some d) : ∃ d ∈ t, g.definingBlock? v = some d := by
  obtain ⟨d, hd, hdef⟩ := hdef
  rw [definingBlock?_eq, Option.map_eq_some_iff] at hdef
  obtain ⟨s, hs, rfl⟩ := hdef
  refine ⟨g.siteBlock s, ?_, by rw [definingBlock?_eq, he.definition_old hs]; rfl⟩
  rcases he.siteBlock_old hs with hsame | ⟨hold, hnew, -⟩
  · rw [hsame]
    exact (hpass _ hd).1
  · rw [hnew]
    exact (hpass _ hd).2 hold

lemma availEnd_old (hb : f.LiveBlock b) (hv : f.AvailEnd v b) :
    g.AvailEnd v (if b = (f.insn call).block then ⟨f.blocks.size⟩ else b) := by
  intro t ht
  have hproj := he.projects ht
  by_cases hbh : b = (f.insn call).block
  · subst hbh
    rw [if_pos rfl] at hproj ht ⊢
    obtain ⟨t', ht', hpass, hmem⟩ := hproj.new (Nat.le_refl _)
    exact he.passes_definition (hpass.through hmem) (hv t' ht')
  · rw [if_neg hbh] at hproj ht ⊢
    obtain ⟨t', ht', hpass⟩ := hproj.old (f.lt_blocks_of_live hb)
    exact he.passes_definition (hpass.along hbh) (hv t' ht')

lemma isPhiOf_old (hv : f.IsPhiOf v b) : g.IsPhiOf v b := by
  obtain ⟨q, hq, hblock⟩ := hv
  have hlive := ((he.caller.exact.definition_iff v (.phi q)).1 hq).1
  exact ⟨q, he.definition_old hq, by rw [he.phi q (f.lt_phis_of_live hlive), hblock]⟩

lemma availStart_old (hb : f.LiveBlock b) (hv : f.AvailStart v b) : g.AvailStart v b := by
  intro t ht
  obtain ⟨t', ht', hpass⟩ := (he.projects ht).old (f.lt_blocks_of_live hb)
  rcases hv t' ht' with hdef | hphi
  · exact .inl (he.passes_definition hpass hdef)
  · exact .inr (he.isPhiOf_old hphi)

lemma availStart_new (hb : f.blocks.size ≤ b.index)
    (hv : f.AvailBefore v (f.insn call).block (before ++ [call])) : g.AvailStart v b := by
  intro t ht
  left
  obtain ⟨t', ht', hpass, hmem⟩ := (he.projects ht).new hb
  have hstays : ∀ s, (f.value v).definition = some s → f.siteBlock s = (f.insn call).block →
      (∀ i ∈ after, s ≠ .insn i) → ∃ d ∈ t, g.definingBlock? v = some d := by
    intro s hs hblock hnot
    refine ⟨(f.insn call).block, hmem, ?_⟩
    rw [definingBlock?_eq, he.definition_old hs, Option.map_some]
    rcases he.siteBlock_old hs with hsame | ⟨-, -, i, hi, heq⟩
    · rw [hsame, hblock]
    · exact absurd heq (hnot i hi)
  rcases hv with ⟨j, hj, hd⟩ | hstart
  · -- the instruction stands before the split
    have hnodup := he.caller.exact.insns_nodup (f.insn call).block
    rw [he.home, ← singleton_append, ← append_assoc] at hnodup
    apply hstays (.insn j) ((he.caller.exact.definition_iff v (.insn j)).2 hd)
    · exact ((he.caller.exact.insns_iff (f.insn call).block j).1 (by
        rw [he.home, ← singleton_append, ← append_assoc]
        exact mem_append_left _ hj)).2
    · rintro i hi heq
      obtain rfl := Site.insn.inj heq
      exact (nodup_append.1 hnodup).2.2 j hj j hi rfl
  · rcases hstart t' ht' with hdef | ⟨q, hq, hblock⟩
    · exact he.passes_definition hpass hdef
    · exact hstays (.phi q) hq hblock (by simp)

lemma availBefore_tail (hv : f.AvailBefore v (f.insn call).block (before ++ call :: front)) :
    g.AvailBefore v ⟨f.blocks.size⟩ front := by
  by_cases hin : ∃ j ∈ front, (f.insn j).dest = some v
  · obtain ⟨j, hj, hd⟩ := hin
    refine .inl ⟨j, hj, ?_⟩
    rw [(he.insn j (f.lt_insns_of_live (he.caller.exact.live_of_dest hd))).2, hd]
  · right
    apply he.availStart_new (Nat.le_refl _)
    rcases hv with ⟨j, hj, hd⟩ | hstart
    · refine .inl ⟨j, ?_, hd⟩
      rw [← singleton_append, ← append_assoc] at hj
      exact (mem_append.1 hj).resolve_right fun hj => hin ⟨j, hj, hd⟩
    · exact .inr hstart

/-! ## What is available in the callee -/

lemma carried_cases (hw : Carried callee w) : r.value w ∈ (f.insn call).op.operands ∨
    g.definingBlock? (r.value w) = (callee.definingBlock? w).map r.block ∧
      ∀ c, callee.IsPhiOf w c → g.IsPhiOf (r.value w) (r.block c) := by
  obtain ⟨site, hsite, hret⟩ := hw
  have hdefc := (he.body.exact.definition_iff w site).2 hsite
  cases site with
  | insn i =>
    have hd : (callee.insn i).dest = some w := hsite
    have hmem := (he.body.exact.insns_iff _ i).2 ⟨he.body.exact.live_of_dest hd, rfl⟩
    have hlive := he.body.orderly.live_block_of_mem hmem
    by_cases harg : ∃ index, (callee.insn i).op = .argument index
    · obtain ⟨index, harg⟩ := harg
      left
      exact mem_of_getElem? (he.bindings.passed he.body.exact harg hd (he.named w _ hsite))
    · right
      obtain ⟨front, rest, hsplit⟩ := append_of_mem hmem
      have hfront : ∀ k ∈ front, ∀ returned, (callee.insn k).op ≠ .ret returned := by
        intro k hk returned hop
        obtain ⟨first, mid, rfl⟩ := append_of_mem hk
        rw [append_assoc, cons_append] at hsplit
        have hnil := he.body.rest_of_terminator hsplit (by rw [hop]; rfl)
        simp at hnil
      obtain ⟨j, hj, hjd⟩ := transcribed_of_mem (he.copy _ hlive).insns hsplit hfront
        (fun index hop => harg ⟨index, hop⟩) (fun returned => hret i returned rfl)
      rw [hd, Option.map_some] at hjd
      refine ⟨?_, ?_⟩
      · rw [he.orderly.exact.definingBlock?_of_dest hjd, he.body.exact.definingBlock?_of_dest hd,
          ((he.orderly.exact.insns_iff _ j).1 hj).2, Option.map_some]
      · rintro c ⟨q, hq, -⟩
        rw [hdefc] at hq
        cases hq
  | phi q =>
    right
    have hmem := (he.body.exact.phis_iff _ q).2 ⟨hsite.1, rfl⟩
    have hlive := he.body.orderly.live_block_of_phi hsite.1
    obtain ⟨phi, hlist, hphis⟩ := (he.copy _ hlive).phis
    have hcopy : phi q ∈ (g.block (r.block (callee.phi q).block)).phis := by
      rw [hlist]
      exact mem_map_of_mem hmem
    obtain ⟨hglive, hgblock⟩ := (he.orderly.exact.phis_iff _ _).1 hcopy
    have hdefg : (g.value (r.value w)).definition = some (.phi (phi q)) := by
      rw [he.orderly.exact.definition_iff]
      exact ⟨hglive, by rw [(hphis q hmem).2.1, hsite.2]⟩
    refine ⟨?_, ?_⟩
    · rw [definingBlock?_eq, definingBlock?_eq, hdefg, hdefc]
      exact congrArg some hgblock
    · rintro c ⟨q', hq', rfl⟩
      rw [hdefc] at hq'
      obtain rfl := Site.phi.inj (Option.some.inj hq')
      exact ⟨phi q, hdefg, hgblock⟩

lemma availBefore_passed (hv : v ∈ (f.insn call).op.operands) :
    f.AvailBefore v (f.insn call).block (before ++ [call]) :=
  (he.caller.flow.insn_avail _ before call after he.home v hv).mono fun _ hi => mem_append_left _ hi

lemma availStart_copy (hlive : callee.LiveBlock c) (hw : Carried callee w)
    (hstart : callee.AvailStart w c) : g.AvailStart (r.value w) (r.block c) := by
  rcases he.carried_cases hw with hpassed | ⟨hdef, hphi⟩
  · exact he.availStart_new (he.block_new c hlive).1.le
      (he.availBefore_passed hpassed)
  · intro t ht
    obtain ⟨t', ht', hcopies⟩ := (he.projects ht).copy c hlive rfl
    rcases hstart t' ht' with ⟨d, hd, hdefc⟩ | hof
    · exact .inl ⟨r.block d, hcopies d hd, by rw [hdef, hdefc]; rfl⟩
    · exact .inr (hphi c hof)

lemma availEnd_copy (hlive : callee.LiveBlock c) (hw : Carried callee w)
    (hend : callee.AvailEnd w c) : g.AvailEnd (r.value w) (r.block c) := by
  rcases he.carried_cases hw with hpassed | ⟨hdef, -⟩
  · exact (he.availStart_new (he.block_new c hlive).1.le
      (he.availBefore_passed hpassed)).toEnd
  · intro t ht
    obtain ⟨t', ht', hcopies⟩ := (he.projects ht).copy c hlive rfl
    obtain ⟨d, hd, hdefc⟩ := hend t' ht'
    refine ⟨r.block d, ?_, by rw [hdef, hdefc]; rfl⟩
    rcases mem_cons.1 hd with rfl | hd
    · exact mem_cons_self
    · exact mem_cons_of_mem _ (hcopies d hd)

lemma defined_copy (hw : Carried callee w) : ((g.value (r.value w)).definition).isSome := by
  rcases he.carried_cases hw with hpassed | ⟨hdef, -⟩
  · obtain ⟨s, hs⟩ := Option.isSome_iff_exists.1 (he.caller.flow.defined _ (.insn call) hpassed)
    rw [he.definition_old hs]
    rfl
  · obtain ⟨site, hsite, -⟩ := hw
    rw [definingBlock?_eq, definingBlock?_eq, (he.body.exact.definition_iff w site).2 hsite] at hdef
    obtain ⟨s, hs, -⟩ := Option.map_eq_some_iff.1 hdef
    rw [hs]
    rfl

/-! ## The uses -/

lemma defined_old (hr : f.Reads v s) : ((g.value v).definition).isSome := by
  obtain ⟨s', hs'⟩ := Option.isSome_iff_exists.1 (he.caller.flow.defined v s hr)
  rw [he.definition_old hs']
  rfl

lemma operands_old (hi : i ∈ (f.block b).insns) :
    (g.insn i).op.operands = (f.insn i).op.operands := by
  rw [(he.insn i (f.lt_insns_of_live ((he.caller.exact.insns_iff b i).1 hi).1)).1]

lemma availBefore_old (hb : f.LiveBlock b)
    (hv : f.AvailBefore v b front) : g.AvailBefore v b front := by
  rcases hv with ⟨j, hj, hd⟩ | hstart
  · refine .inl ⟨j, hj, ?_⟩
    rw [(he.insn j (f.lt_insns_of_live (he.caller.exact.live_of_dest hd))).2, hd]
  · exact .inr (he.availStart_old hb hstart)

lemma list_old (hb : f.LiveBlock b)
    (hlist : (g.block b).insns = front ++ i :: rest) (hv : v ∈ (g.insn i).op.operands) :
    ∃ rest', (f.block b).insns = front ++ i :: rest' ∧ call ∉ front := by
  rw [he.block b (f.lt_blocks_of_live hb)] at hlist
  by_cases hbh : b = (f.insn call).block
  · rw [if_pos hbh] at hlist
    rcases eq_nil_or_concat rest with rfl | ⟨rest', last, rfl⟩
    · -- the jump into the copy reads nothing
      have hsplit : (before ++ [call]) ++ [jump] = front ++ [i] := by simpa using hlist
      obtain ⟨-, hlast⟩ := append_inj' hsplit rfl
      rw [← (cons.inj hlast).1, he.jumps.2.2] at hv
      cases hv
    · have hsplit : (before ++ [call]) ++ [jump] = (front ++ i :: rest') ++ [last] := by
        simpa using hlist
      obtain ⟨hfirst, -⟩ := append_inj' hsplit rfl
      refine ⟨rest' ++ after, ?_, ?_⟩
      · calc (f.block b).insns = (before ++ [call]) ++ after := by rw [hbh, he.home]; simp
          _ = front ++ i :: (rest' ++ after) := by rw [hfirst]; simp
      · intro hmem
        have hnodup : (before ++ [call]).Nodup := by
          have hall := he.caller.exact.insns_nodup (f.insn call).block
          rw [he.home, ← singleton_append, ← append_assoc] at hall
          exact (nodup_append.1 hall).1
        have hcall : call ∈ i :: rest' := by
          have hget := congrArg getLast? hfirst
          rw [getLast?_append_cons, getLast?_append_cons] at hget
          exact mem_of_getLast? hget.symm
        rw [hfirst] at hnodup
        exact (nodup_append.1 hnodup).2.2 call hmem call hcall rfl
  · rw [if_neg hbh] at hlist
    refine ⟨rest, hlist, fun hmem => hbh ?_⟩
    have hcall : call ∈ (f.block b).insns := hlist ▸ mem_append_left _ hmem
    exact ((he.caller.exact.insns_iff b call).1 hcall).2.symm

lemma supplied_insn (hcarried : ∀ w s, callee.Reads w s → Carried callee w)
    (hlist : (g.block b).insns = front ++ i :: rest) (hv : v ∈ (g.insn i).op.operands) :
    g.AvailBefore v b front ∧ ((g.value v).definition).isSome := by
  have hlive := he.orderly.live_of_split hlist
  rcases he.cases_target hlive with hb | rfl | ⟨c, hlivec, rfl⟩
  · obtain ⟨rest', hold, -⟩ := he.list_old hb hlist hv
    rw [he.operands_old (b := b) (by simp [hold])] at hv
    exact ⟨he.availBefore_old hb (he.caller.flow.insn_avail b front i rest' hold v hv),
      he.defined_old (s := .insn i) hv⟩
  · rw [he.tail] at hlist
    have hold : (f.block (f.insn call).block).insns = (before ++ call :: front) ++ i :: rest := by
      rw [he.home, show after = front ++ i :: rest from hlist]
      simp
    rw [he.operands_old (b := (f.insn call).block) (by simp [hold])] at hv
    exact ⟨he.availBefore_tail (he.caller.flow.insn_avail _ _ i rest hold v hv),
      he.defined_old (s := .insn i) hv⟩
  · rcases transcribed_at (he.copy c hlivec).insns hlist with
      ⟨front', k, rest', hsplit, hop, hcopies⟩ | ⟨returned, out, ⟨j, rfl, -, hgoto, -⟩, hi⟩
    · rw [hop, Op.operands_mapTargets, Op.operands_mapOperands, mem_map] at hv
      obtain ⟨w, hw, rfl⟩ := hv
      have hread : callee.Reads w (.insn k) := hw
      have hwc := hcarried w _ hread
      refine ⟨?_, he.defined_copy hwc⟩
      rcases he.body.flow.insn_avail c front' k rest' hsplit w hw with ⟨m, hm, hd⟩ | hstart
      · rcases hcopies m hm with ⟨index, harg⟩ | ⟨j, hj, hjd⟩
        · -- a parameter is passed, and what is passed is available in the whole copy
          have hpassed := mem_of_getElem?
            (he.bindings.passed he.body.exact harg hd (he.named w (.insn m) hd))
          exact .inr (he.availStart_new (he.block_new c hlivec).1.le
            (he.availBefore_passed hpassed))
        · exact .inl ⟨j, hj, by rw [hjd, hd]; rfl⟩
      · exact .inr (he.availStart_copy hlivec hwc hstart)
    · rw [mem_singleton.1 hi, hgoto] at hv
      cases hv

lemma supplied_return (hcarried : ∀ w s, callee.Reads w s → Carried callee w) {p : BlockId}
    (hret : (p, some v) ∈ returns) : g.AvailEnd v p ∧ ((g.value v).definition).isSome := by
  obtain ⟨c, hlive, hblock, k, hk, u, hop, hu⟩ := he.origin _ hret
  dsimp only at hblock hu
  obtain ⟨w, rfl, rfl⟩ := Option.map_eq_some_iff.1 hu.symm
  have hread : callee.Reads w (.insn k) := by
    rw [Reads, hop]
    exact mem_singleton_self w
  obtain ⟨front, rest, hsplit⟩ := append_of_mem hk
  have hav := he.body.flow.insn_avail c front k rest hsplit w hread
  have hwc := hcarried w _ hread
  rw [hblock]
  refine ⟨he.availEnd_copy hlive hwc (hav.toEnd he.body.exact ?_), he.defined_copy hwc⟩
  intro i hi
  simp [hsplit, hi]

section

variable (hmerge : Merge f call size g returns result merge)
  (hcarried : ∀ w s, callee.Reads w s → Carried callee w)
  (hentry : (callee.block callee.entry).phis = [])
include hmerge hcarried hentry

lemma supplied_phi {q : PhiId} (hq : g.LivePhi q) :
    (g.phi q).operands.length = (g.predecessors (g.phi q).block).length ∧
      ∀ (j : Nat) v p, (g.phi q).operands[j]? = some v →
        (g.predecessors (g.phi q).block)[j]? = some p →
          g.AvailEnd v p ∧ ((g.value v).definition).isSome := by
  have hmem := (he.orderly.exact.phis_iff _ q).2 ⟨hq, rfl⟩
  have hlive := he.orderly.live_block_of_phi hq
  generalize (g.phi q).block = b at hmem hlive ⊢
  rcases he.cases_target hlive with hb | rfl | ⟨c, hlivec, rfl⟩
  · rw [he.block b (f.lt_blocks_of_live hb)] at hmem
    obtain ⟨hliveq, hblock⟩ := (he.caller.exact.phis_iff b q).1 hmem
    rw [he.phi q (f.lt_phis_of_live hliveq), he.predecessors_old hb]
    refine ⟨?_, ?_⟩
    · rw [length_map, ← hblock]
      exact he.caller.flow.arity q hliveq not_false
    · intro j v p hv hp
      rw [getElem?_map, Option.map_eq_some_iff] at hp
      obtain ⟨p', hp', rfl⟩ := hp
      have hav := he.caller.flow.phi_avail q j v p' hv (hblock ▸ hp')
      exact ⟨he.availEnd_old (he.caller.live_pred (mem_of_getElem? hp')) hav,
        he.defined_old (s := .phi q) (mem_of_getElem? hv)⟩
  · rw [he.tail] at hmem
    rw [he.predecessors_tail]
    cases hmerge with
    | never | one | unread => cases hmem
    | phi several operands fresh =>
      obtain rfl := mem_singleton.1 hmem
      refine ⟨?_, ?_⟩
      · have hlength := congrArg length operands
        simpa using hlength.symm
      · intro j v p hv hp
        rw [getElem?_map, Option.map_eq_some_iff] at hp
        obtain ⟨⟨p', returned⟩, hret, rfl⟩ := hp
        have hsome : returned = some v := by
          have hget := congrArg (fun l => l[j]?) operands
          simp only [getElem?_map, hret, hv, Option.map_some, Option.some.injEq] at hget
          exact hget
        obtain rfl : returned = some v := hsome
        exact he.supplied_return hcarried (mem_of_getElem? hret)
  · obtain ⟨phi, hlist, hphis⟩ := (he.copy c hlivec).phis
    rw [hlist, mem_map] at hmem
    obtain ⟨q', hq', rfl⟩ := hmem
    obtain ⟨hliveq, hblock⟩ := (he.body.exact.phis_iff c q').1 hq'
    -- the entry of the callee has no phis, so the copy has the edges of the block
    have hne : c ≠ callee.entry := by
      rintro rfl
      rw [hentry] at hq'
      cases hq'
    rw [(hphis q' hq').2.2, predecessors, he.copy_preds c hlivec, if_neg hne]
    refine ⟨?_, ?_⟩
    · rw [length_map, length_map, ← hblock]
      exact he.body.flow.arity q' hliveq not_false
    · intro j v p hv hp
      rw [getElem?_map, Option.map_eq_some_iff] at hv hp
      obtain ⟨w, hw, rfl⟩ := hv
      obtain ⟨p', hp', rfl⟩ := hp
      have hwc := hcarried w (.phi q') (mem_of_getElem? hw)
      have hav := he.body.flow.phi_avail q' j w p' hw (hblock ▸ hp')
      exact ⟨he.availEnd_copy (he.body.live_pred (mem_of_getElem? hp')) hwc hav,
        he.defined_copy hwc⟩

lemma wellFormed : g.WellFormed := by
  have hphi := fun {q} => he.supplied_phi hmerge hcarried hentry (q := q)
  have hlive : ∀ {q : PhiId} {v : ValueId}, v ∈ (g.phi q).operands → g.LivePhi q :=
    fun hv => he.orderly.exact.live_of_reads_phi hv
  refine ⟨⟨he.orderly.exact, ?_, fun q hq => hq.elim, fun q hq _ => (hphi hq).1, ?_, ?_, ?_⟩, ?_,
    he.orderly.gone, ?_, ?_⟩
  · rw [he.predecessors_old (b := g.entry) he.caller.entry_live]
    exact (congrArg (map _) he.caller.flow.entry_preds).trans map_nil
  · intro q j v p hv hp
    exact ((hphi (hlive (mem_of_getElem? hv))).2 j v p hv hp).1
  · intro b front i rest hlist v hv
    exact (he.supplied_insn hcarried hlist hv).1
  · rintro v (i | q) hr
    · have hi := (he.orderly.exact.insns_iff _ i).2 ⟨he.orderly.exact.live_of_reads_insn hr, rfl⟩
      obtain ⟨front, rest, hlist⟩ := append_of_mem hi
      exact (he.supplied_insn hcarried hlist hr).2
    · have hq := hlive hr
      obtain ⟨j, hj⟩ := List.getElem?_of_mem hr
      have hlt := (List.getElem?_eq_some_iff.1 hj).1
      rw [(hphi hq).1] at hlt
      exact ((hphi hq).2 j v _ hj (getElem?_eq_getElem hlt)).2
  · exact he.live_old he.caller.entry_live
  · intro b hb
    exact he.terminated hb
  · intro b p
    exact he.edges b p

end

end Opened

end Dissolve.Inline
