import Dissolve.Proofs.Lift.State
import Dissolve.Proofs.Ssa.Growth

/-!
# Proofs.Lift.Edits — the edits of which reading consists

Reading a variable adds phis without operands, records what blocks hold, gives phis their operands
and collapses trivial ones. Each of these edits keeps the progress sound and leads to a later stage.
-/

namespace Dissolve.Lift

open List Ssa.Function
open Ssa (Function Op)

variable {b c : BlockId} {u v : ValueId} {q r : PhiId} {s : Site} {x y : Variable} {m n : Nat}

namespace Progress

/-! ## Collapsing a phi -/

/-- A trivial phi is replaced by the value it merges. -/
def collapse (p : Progress) (q : PhiId) (same : ValueId) : Progress :=
  { p with
    func := p.func.collapsePhi q same
    replaced := p.replaced.insert (p.func.phi q).value same }

section Collapse

variable {p : Progress} {gaps : List Gap} {same : ValueId}

structure Merges (p : Progress) (gaps : List Gap) (q : PhiId) (same : ValueId) : Prop where
  live : (p.func.phi q).removed = false
  filled : ¬∃ b x, p.IsGap gaps b x q
  trivial : (p.func.phi q).trivialOperand? = some same

lemma Merges.same_ne (h : Merges p gaps q same) : same ≠ (p.func.phi q).value :=
  (Ssa.Phi.trivialOperand?_eq_some_iff.1 h.trivial).1

lemma Merges.same_reads (h : Merges p gaps q same) : p.func.Reads same (.phi q) :=
  (Ssa.Phi.trivialOperand?_eq_some_iff.1 h.trivial).2.1

lemma Merges.value_defined (h : Merges p gaps q same) (hs : p.Sound gaps) :
    (p.func.value (p.func.phi q).value).definition = some (.phi q) :=
  (hs.flow.exact.definition_iff _ _).2 ⟨h.live, rfl⟩

section

variable (hs : p.Sound gaps)
include hs

section

variable (hm : Merges p gaps q same)
include hm

lemma resolve_collapse (v : ValueId) :
    (p.collapse q same).resolve v = Function.redirect (p.func.phi q).value same (p.resolve v) := by
  have hnone : ∀ {u}, (p.func.value u).definition.isSome → p.replaced.get? u = none := by
    intro u hu
    by_contra hc
    obtain ⟨w, hw⟩ := Option.ne_none_iff_exists'.1 hc
    simp [hs.replaced_undefined u w hw] at hu
  have hv := hnone (u := (p.func.phi q).value) (by rw [hm.value_defined hs]; rfl)
  exact hs.grounded.chase_insert hv (hnone (hs.flow.defined same _ hm.same_reads)) hm.same_ne.symm v

lemma defined_collapse (hv : (p.func.value v).definition.isSome) : ((p.collapse q same).func.value
      (Function.redirect (p.func.phi q).value same v)).definition.isSome := by
  have hdef := hs.flow.exact.definition_collapsePhi hm.live (hs.flow.same_lt hm.trivial)
    (Function.redirect (p.func.phi q).value same v)
  rw [if_neg (redirect_ne_old hm.same_ne.symm v).symm] at hdef
  rw [collapse, hdef]
  by_cases hvq : v = (p.func.phi q).value
  · rw [hvq, redirect_old]
    exact hs.flow.defined same _ hm.same_reads
  · rw [redirect_of_ne hvq]
    exact hv

lemma usable_collapse (hv : p.Usable b v) :
    (p.collapse q same).Usable b (Function.redirect (p.func.phi q).value same v) :=
  ⟨defined_collapse hs hm hv.1,
    (hs.flow.carries_collapsePhi hm.live hm.filled hm.trivial).avail_end v b hv.2⟩

lemma holds_collapse :
    (p.collapse q same).Holds b x v ↔
      ∃ u, p.Holds b x u ∧ Function.redirect (p.func.phi q).value same u = v := by
  constructor
  · rintro ⟨w, hw, rfl⟩
    exact ⟨p.resolve w, ⟨w, hw, rfl⟩, (resolve_collapse hs hm w).symm⟩
  · rintro ⟨u, ⟨w, hw, rfl⟩, rfl⟩
    exact ⟨w, hw, resolve_collapse hs hm w⟩

/-- The merged value is not defined in a block at whose start the phi, or what it stood for, was
there. -/
lemma Merges.same_not_in (hb : p.func.HasBlock b)
    (hav : b = (p.func.phi q).block ∨ p.func.predecessors b ≠ [] ∧
      ∀ c ∈ p.func.predecessors b, p.func.AvailEnd (p.func.phi q).value c) :
    p.func.definingBlock? same ≠ some b := by
  have hhome := (hs.flow.exact.isPhiOf_phi hm.live).definingBlock?
  obtain ⟨t, ht⟩ := hs.reach b hb
  obtain ⟨t, ht, hnot⟩ := ht.once
  intro hdef
  -- on a trail that comes by `b` once, the merged value is defined before `b`
  have hbefore : ∃ c ∈ t, p.func.definingBlock? same = some c := by
    rcases hav with rfl | ⟨hpreds, hav⟩
    · exact hs.flow.merged_before hm.live hm.filled hm.trivial ht
    · cases ht with
      | start => exact absurd hs.flow.entry_preds hpreds
      | step walked edge =>
        obtain ⟨c, hc, hdef'⟩ := hav _ edge _ walked
        obtain rfl := Option.some.inj (hhome.symm.trans hdef')
        obtain ⟨t', ht', hsuffix⟩ := walked.until hc
        obtain ⟨d, hd, hd'⟩ := hs.flow.merged_before hm.live hm.filled hm.trivial ht'
        exact ⟨d, hsuffix.subset (mem_cons_of_mem _ hd), hd'⟩
  obtain ⟨c, hc, hc'⟩ := hbefore
  obtain rfl := Option.some.inj (hdef.symm.trans hc')
  exact hnot hc

lemma sound_collapse : (p.collapse q same).Sound gaps := by
  have hpreds : ∀ b, (p.collapse q same).func.predecessors b = p.func.predecessors b :=
    hs.flow.preds_collapsePhi hm.trivial
  have hdef := hs.flow.exact.definition_collapsePhi hm.live (hs.flow.same_lt hm.trivial)
  have hblock := hs.flow.exact.block_collapsePhi (p := q) (hs.flow.same_lt hm.trivial)
  have hsize : (p.collapse q same).func.blocks.size = p.func.blocks.size :=
    p.func.size_blocks_collapsePhi q same
  refine ⟨hs.flow.collapsePhi hm.live hm.filled hm.trivial, ?_, hs.gaps_nodup, hs.waiting_nodup,
    hs.gaps_waiting, ?_, ?_, ?_, ?_, ?_, ?_, ?_, hs.waiting_open, ?_⟩
  · intro b x r hr
    rw [← hs.gap_block b x r hr]
    exact hs.flow.siteBlock_collapsePhi hm.live (.phi r)
  · intro b hb
    rw [hsize] at hb
    rw [collapse, hblock]
    exact hs.live b hb
  · intro b hb
    rw [hsize] at hb
    obtain ⟨t, ht⟩ := hs.reach b hb
    exact ⟨t, ht.congr hpreds⟩
  · intro b c hc
    rw [hpreds] at hc
    rw [hsize]
    exact hs.preds_lt b c hc
  · refine hs.grounded.insert ?_ ?_ hm.same_ne.symm
    · by_contra hc
      obtain ⟨w, hw⟩ := Option.ne_none_iff_exists'.1 hc
      have hnone := hs.replaced_undefined _ w hw
      simp [hm.value_defined hs] at hnone
    · by_contra hc
      obtain ⟨w, hw⟩ := Option.ne_none_iff_exists'.1 hc
      have hsome := hs.flow.defined same _ hm.same_reads
      simp [hs.replaced_undefined same w hw] at hsome
  · intro v w hv
    rw [collapse, hdef]
    simp only [collapse, Assoc.get?_insert] at hv
    split at hv
    · rename_i heq
      rw [if_pos heq]
    · rename_i hne
      rw [if_neg hne]
      exact hs.replaced_undefined v w hv
  · intro v w hv
    simp only [collapse, Assoc.get?_insert] at hv
    rw [collapse, size_values_collapsePhi]
    split at hv
    · rename_i heq
      exact heq ▸ p.func.lt_values_of_definition (hm.value_defined hs)
    · exact hs.replaced_lt v w hv
  · intro b x v hv
    obtain ⟨u, hu, rfl⟩ := (holds_collapse hs hm).1 hv
    exact usable_collapse hs hm (hs.held_usable b x u hu)
  · intro b hb c hc
    rw [hpreds] at hc
    exact hs.closed_done b hb c hc

omit hm in
omit hs in
lemma lt_blocks_of_pred (h : c ∈ p.func.predecessors b) : p.func.HasBlock b := by
  by_contra hc
  rw [Function.predecessors, p.func.block_of_size_le (Nat.le_of_not_lt hc)] at h
  simp [Ssa.Block.gone] at h

lemma same_not_isPhiOf
    (h : p.func.definingBlock? same ≠ some b) : ¬(p.collapse q same).func.IsPhiOf same b := by
  intro hp
  rw [collapse, hs.flow.isPhiOf_collapsePhi hm.live hm.trivial hm.same_ne] at hp
  exact h hp.definingBlock?

lemma passes_collapse (h : p.Passes b x v) :
    (p.collapse q same).Passes b x (Function.redirect (p.func.phi q).value same v) := by
  intro pred hpred
  have hpreds : ∀ b, (p.collapse q same).func.predecessors b = p.func.predecessors b :=
    hs.flow.preds_collapsePhi hm.trivial
  rw [hpreds] at hpred
  obtain ⟨hdone, hholds, hnot⟩ := h pred hpred
  refine ⟨hdone, (holds_collapse hs hm).2 ⟨v, hholds, rfl⟩, ?_⟩
  by_cases hv : v = (p.func.phi q).value
  · subst hv
    rw [redirect_old]
    refine same_not_isPhiOf hs hm (Merges.same_not_in hs hm (lt_blocks_of_pred hpred) (.inr ?_))
    exact ⟨ne_nil_of_mem hpred, fun c hc => (hs.held_usable c x _ (h c hc).2.1).2⟩
  · rwa [redirect_of_ne hv, collapse, hs.flow.isPhiOf_collapsePhi hm.live hm.trivial hv]

lemma joins_collapse (h : p.Joins b x v) :
    (p.collapse q same).Joins b x (Function.redirect (p.func.phi q).value same v) ∨
      (p.collapse q same).Passes b x (Function.redirect (p.func.phi q).value same v) := by
  have hpreds : ∀ b, (p.collapse q same).func.predecessors b = p.func.predecessors b :=
    hs.flow.preds_collapsePhi hm.trivial
  have hphi : ∀ r, (p.func.collapsePhi q same).phi r = _ := hs.flow.exact.phi_collapsePhi hm.live
  have hdef := hs.flow.exact.definition_collapsePhi hm.live (hs.flow.same_lt hm.trivial)
  obtain ⟨r, hr, hblock, hall⟩ := h
  by_cases hv : v = (p.func.phi q).value
  · subst hv
    rw [hm.value_defined hs, Option.some.injEq, Site.phi.injEq] at hr
    subst hr
    rw [redirect_old]
    refine .inr fun pred hpred => ?_
    rw [hpreds] at hpred
    obtain ⟨j, hj⟩ := getElem?_of_mem hpred
    obtain ⟨hdone, u, hu, hop⟩ := hall j pred hj
    refine ⟨hdone, (holds_collapse hs hm).2 ⟨u, hu, ?_⟩, ?_⟩
    · rcases (Ssa.Phi.trivialOperand?_eq_some_iff.1 hm.trivial).2.2 u (mem_of_getElem? hop)
        with rfl | rfl
      · exact redirect_old _ _
      · exact redirect_of_ne hm.same_ne
    · exact same_not_isPhiOf hs hm
        (Merges.same_not_in hs hm (lt_blocks_of_pred hpred) (.inl hblock.symm))
  · have hrq : r ≠ q := by
      rintro rfl
      rw [hs.flow.exact.definition_iff] at hr
      exact hv hr.2.symm
    rw [redirect_of_ne hv]
    refine .inl ⟨r, by rw [collapse, hdef, if_neg (Ne.symm hv), hr], ?_, ?_⟩
    · rwa [collapse, hphi, if_neg hrq]
    · intro j pred hj
      rw [hpreds] at hj
      obtain ⟨hdone, u, hu, hop⟩ := hall j pred hj
      refine ⟨hdone, _, (holds_collapse hs hm).2 ⟨u, hu, rfl⟩, ?_⟩
      rw [collapse, hphi, if_neg hrq, Function.redirectPhi, getElem?_map, hop]
      rfl

lemma starts_collapse (h : p.Starts gaps b x v) :
    (p.collapse q same).Starts gaps b x ((p.collapse q same).resolve v) := by
  rw [resolve_collapse hs hm]
  rcases h.resolve_self hs with ⟨r, hr, hv⟩ | hjoins | hpasses
  · have hrq : r ≠ q := fun hc => hm.filled ⟨b, x, hc ▸ hr⟩
    have hne : p.resolve v ≠ (p.func.phi q).value := by
      intro hc
      have hrdef := (hs.flow.exact.definition_iff (p.func.phi r).value (.phi r)).2
        ⟨(hs.flow.waits r ⟨b, x, hr⟩).1, rfl⟩
      rw [hv, hc, hm.value_defined hs] at hrdef
      exact hrq (Site.phi.inj (Option.some.inj hrdef)).symm
    rw [redirect_of_ne hne]
    refine .inl ⟨r, hr, ?_⟩
    rwa [collapse, hs.flow.exact.phi_collapsePhi hm.live, if_neg hrq, Function.redirectPhi]
  · exact .inr (joins_collapse hs hm hjoins)
  · exact .inr (.inr (passes_collapse hs hm hpasses))

lemma later_collapse : Later p (p.collapse q same) gaps gaps where
  size_blocks := p.func.size_blocks_collapsePhi q same
  size_insns := (p.func.size_insns_collapsePhi q same).ge
  size_values := (p.func.size_values_collapsePhi q same).ge
  size_phis := (p.func.size_phis_collapsePhi q same).ge
  preds := hs.flow.preds_collapsePhi hm.trivial
  handlers b := by rw [collapse, hs.flow.exact.block_collapsePhi (hs.flow.same_lt hm.trivial)]
  insns b := by
    rw [collapse, hs.flow.exact.block_collapsePhi (hs.flow.same_lt hm.trivial)]
  insn i _ := by
    have hops : ∀ v ∈ (p.func.insn i).op.operands,
        Function.redirect (p.func.phi q).value same v = (p.collapse q same).resolve v := by
      intro v hv
      rw [resolve_collapse hs hm, resolve_of_reads hs (s := .insn i) hv]
    rw [← Op.mapOperands_congr hops]
    exact hs.flow.exact.insn_collapsePhi i
  done _ hb := hb
  closed _ hb := hb
  resolve v := by rw [resolve_collapse hs hm, resolve_collapse hs hm, resolve_resolve hs]
  defined v hv := by
    rw [resolve_collapse hs hm, resolve_of_defined hs hv]
    exact defined_collapse hs hm hv
  before v b l hv hav := by
    rw [resolve_collapse hs hm, resolve_of_defined hs hv]
    exact (hs.flow.carries_collapsePhi hm.live hm.filled hm.trivial).avail_before hav
  usable b v hv := by
    rw [resolve_collapse hs hm, resolve_of_defined hs hv.1]
    exact usable_collapse hs hm hv
  holds b _ x v hv := by
    rw [resolve_collapse hs hm, hv.resolved hs]
    exact (holds_collapse hs hm).2 ⟨v, hv, rfl⟩
  starts b x v hv := starts_collapse hs hm hv
  passes b x v hv := by
    rw [resolve_collapse hs hm]
    exact passes_collapse hs hm (hv.resolve_self hs)
  holds_new b _ x v hnone hv := by
    obtain ⟨w, hw, -⟩ := hv
    rw [collapse, hnone] at hw
    simp at hw
  unheld _ _ _ _ hnone := hnone
  root_phis b _ hphis := by
    rw [collapse, hs.flow.exact.block_collapsePhi (hs.flow.same_lt hm.trivial)]
    simp [hphis]

lemma frame_collapse : Frame p (p.collapse q same) :=
  ⟨rfl, rfl, rfl, rfl, rfl, rfl, p.func.size_insns_collapsePhi q same, fun b => by
    rw [collapse, hs.flow.exact.block_collapsePhi (hs.flow.same_lt hm.trivial)]⟩

lemma fresh_collapse
    (hf : Fresh n m p.func) (hq : m ≤ q.index) : Fresh n m (p.collapse q same).func := by
  have hphi : ∀ r, (p.func.collapsePhi q same).phi r = _ := hs.flow.exact.phi_collapsePhi hm.live
  have hvalue := hf.2 q hm.live hq
  constructor
  · intro v s hv hr
    have hread : ∃ w, p.func.Reads w s ∧ Function.redirect (p.func.phi q).value same w = v := by
      cases s with
      | insn i =>
        simpa [Function.Reads, collapse, hs.flow.exact.insn_collapsePhi, Function.redirectInsn]
          using hr
      | phi r =>
        rw [Function.Reads, collapse, hphi] at hr
        split at hr
        · simp [Ssa.Phi.gone] at hr
        · simpa [Function.Reads, Function.redirectPhi] using hr
    obtain ⟨w, hw, rfl⟩ := hread
    by_cases hwq : w = (p.func.phi q).value
    · exact hf.1 w s (hwq ▸ hvalue) hw
    · rw [redirect_of_ne hwq] at hv
      exact hf.1 w s hv hw
  · intro r hr hm'
    rw [collapse, hphi] at hr ⊢
    split at hr
    · simp [Ssa.Phi.gone] at hr
    · rename_i hrq
      rw [if_neg hrq]
      exact hf.2 r hr hm'

end

end

end Collapse

/-! ## Edits that replace no value -/

/-- An edit that replaces no value, records nothing and leaves the edges alone. -/
structure Keeps (p p' : Progress) : Prop where
  replaced : p'.replaced = p.replaced
  held : p'.held = p.held
  done : ∀ b ∈ p.done, b ∈ p'.done
  closed : ∀ b ∈ p.closed, b ∈ p'.closed
  size_blocks : p'.func.blocks.size = p.func.blocks.size
  size_insns : p.func.insns.size ≤ p'.func.insns.size
  size_phis : p.func.phis.size ≤ p'.func.phis.size
  size_values : p.func.values.size ≤ p'.func.values.size
  block : ∀ b, (p'.func.block b).preds = (p.func.block b).preds ∧
    (p'.func.block b).handlers = (p.func.block b).handlers ∧
    (p.func.block b).insns <+: (p'.func.block b).insns ∧
    (p'.func.block b).removed = (p.func.block b).removed
  insn : ∀ i, p.func.HasInsn i → p'.func.insn i = p.func.insn i
  definition : ∀ v, p.func.HasValue v → (p'.func.value v).definition = (p.func.value v).definition
  phi : ∀ q, p.func.HasPhi q → (p'.func.phi q).block = (p.func.phi q).block ∧
    (p'.func.phi q).value = (p.func.phi q).value

section Keep

variable {p p' : Progress} {gaps gaps' : List Gap}

lemma phi_lt_of_isGap (hs : p.Sound gaps) (h : p.IsGap gaps c y q) : p.func.HasPhi q :=
  p.func.lt_phis_of_live (hs.flow.waits q ⟨c, y, h⟩).1

lemma phi_lt_of_definition (hs : p.Sound gaps) (h : (p.func.value v).definition = some (.phi q)) :
    p.func.HasPhi q :=
  p.func.lt_phis_of_live ((hs.flow.exact.definition_iff v (.phi q)).1 h).1

namespace Keeps

lemma of_func (hfunc : p'.func = p.func) (hreplaced : p'.replaced = p.replaced)
    (hheld : p'.held = p.held) (hdone : ∀ b ∈ p.done, b ∈ p'.done)
    (hclosed : ∀ b ∈ p.closed, b ∈ p'.closed) : Keeps p p' := by
  refine ⟨hreplaced, hheld, hdone, hclosed, ?_, ?_, ?_, ?_, ?_, ?_, ?_, ?_⟩ <;> simp [hfunc]

variable (h : Keeps p p')
include h

lemma preds (b : BlockId) : p'.func.predecessors b = p.func.predecessors b := (h.block b).1

lemma resolve (v : ValueId) : p'.resolve v = p.resolve v := by
  rw [Progress.resolve, h.replaced, Progress.resolve]

lemma holds : p'.Holds c y v ↔ p.Holds c y v := by
  simp only [Holds, h.held, h.resolve]

lemma definition_some (hv : (p.func.value v).definition = some s) :
    (p'.func.value v).definition = some s := by
  rw [h.definition v (p.func.lt_values_of_definition hv), hv]

lemma defined (hv : (p.func.value v).definition.isSome) : (p'.func.value v).definition.isSome := by
  obtain ⟨s, hs⟩ := Option.isSome_iff_exists.1 hv
  rw [h.definition_some hs]
  rfl

lemma joins (hq : (p.func.value v).definition = some (.phi q)) (hphi : p.func.HasPhi q)
    (hblock : (p.func.phi q).block = c) (hops : (p'.func.phi q).operands = (p.func.phi q).operands)
    (hall : ∀ (j : Nat) (pred : BlockId), (p.func.predecessors c)[j]? = some pred →
      pred ∈ p.done ∧ ∃ u, p.Holds pred y u ∧ (p.func.phi q).operands[j]? = some u) :
    p'.Joins c y v := by
  refine ⟨q, h.definition_some hq, (h.phi q hphi).1.trans hblock, fun j pred hj => ?_⟩
  rw [h.preds] at hj
  obtain ⟨hdone, u, hu, hop⟩ := hall j pred hj
  exact ⟨h.done _ hdone, u, h.holds.2 hu, by rw [hops, hop]⟩

variable (hs : p.Sound gaps)
include hs

lemma carries : p.func.Carries p'.func id := by
  refine .of_extends h.preds (fun v s hv => ⟨h.definition_some hv, ?_⟩) fun i v hi => ?_
  · have hsite := (hs.flow.exact.definition_iff v s).1 hv
    cases s with
    | insn i =>
      exact congrArg (·.block)
        (h.insn i (p.func.lt_insns_of_live (hs.flow.exact.live_of_dest hsite)))
    | phi q => exact (h.phi q (phi_lt_of_definition hs hv)).1
  · rw [h.insn i (p.func.lt_insns_of_live (hs.flow.exact.live_of_dest hi)), hi]

lemma usable (hv : p.Usable c v) : p'.Usable c v :=
  ⟨h.defined hv.1, (h.carries hs).avail_end v c hv.2⟩

lemma passes (hv : p.Passes c y v) : p'.Passes c y v := by
  intro pred hpred
  rw [h.preds] at hpred
  obtain ⟨hdone, hholds, hnot⟩ := hv pred hpred
  refine ⟨h.done _ hdone, h.holds.2 hholds, ?_⟩
  rintro ⟨q, hq, hblock⟩
  rw [h.definition v (hs.held_usable pred y v hholds).lt] at hq
  exact hnot ⟨q, hq, (h.phi q (phi_lt_of_definition hs hq)).1.symm.trans hblock⟩

lemma starts (hgap : ∀ c y q, p.IsGap gaps c y q → p'.IsGap gaps' c y q)
    (hops : ∀ q, p.func.HasPhi q → (p'.func.phi q).operands = (p.func.phi q).operands)
    (hv : p.Starts gaps c y v) : p'.Starts gaps' c y v := by
  rcases hv with ⟨q, hq, hv⟩ | ⟨q, hq, hblock, hall⟩ | hpasses
  · exact .inl ⟨q, hgap c y q hq, (h.phi q (phi_lt_of_isGap hs hq)).2.trans hv⟩
  · have hphi := phi_lt_of_definition hs hq
    exact .inr (.inl (h.joins hq hphi hblock (hops q hphi) hall))
  · exact .inr (.inr (h.passes hs hpasses))

/-- An edit that lifts and closes no block keeps the progress sound if the gaps that are left are in
order. -/
lemma sound (hdone : p'.done = p.done) (hclosed : p'.closed = p.closed)
    (hwaiting : p'.waiting = p.waiting)
    (hflow : p'.func.Flow fun q => ∃ c y, p'.IsGap gaps' c y q)
    (hgap : ∀ c y q, p'.IsGap gaps' c y q → p.IsGap gaps c y q ∨ (p'.func.phi q).block = c)
    (hnodup : (gaps'.map Gap.phi).Nodup)
    (hgaps : ∀ g ∈ gaps', ∀ c y, (y, g.phi) ∉ p.waitingAt c) : p'.Sound gaps' := by
  have hwait : ∀ c, p'.waitingAt c = p.waitingAt c := fun c => by simp only [waitingAt, hwaiting]
  refine ⟨hflow, ?_, hnodup, ?_, ?_, ?_, ?_, ?_, h.replaced ▸ hs.grounded, ?_, ?_, ?_, ?_, ?_⟩
  · intro c y q hq
    rcases hgap c y q hq with hq | hq
    · exact (h.phi q (phi_lt_of_isGap hs hq)).1.trans (hs.gap_block c y q hq)
    · exact hq
  · simpa only [hwait] using hs.waiting_nodup
  · simpa only [hwait] using hgaps
  · intro c hc
    rw [(h.block c).2.2.2]
    exact hs.live c (h.size_blocks ▸ hc)
  · intro c hc
    obtain ⟨t, ht⟩ := hs.reach c (h.size_blocks ▸ hc)
    exact ⟨t, ht.congr h.preds⟩
  · simpa only [h.preds, h.size_blocks] using hs.preds_lt
  · intro v w hw
    rw [h.replaced] at hw
    rw [h.definition v (hs.replaced_lt v w hw), hs.replaced_undefined v w hw]
  · intro v w hw
    rw [h.replaced] at hw
    exact (hs.replaced_lt v w hw).trans_le h.size_values
  · exact fun c y v hv => h.usable hs (hs.held_usable c y v (h.holds.1 hv))
  · simpa only [hclosed, hwait] using hs.waiting_open
  · simpa only [hclosed, h.preds, hdone] using hs.closed_done

lemma later (hroot : ∀ b, p.IsRoot b → (p.func.block b).phis = [] → (p'.func.block b).phis = [])
    (hstarts : ∀ b x v, p.Starts gaps b x v → p'.Starts gaps' b x v) : Later p p' gaps gaps' := by
  have hfun : p'.resolve = p.resolve := funext h.resolve
  refine ⟨h.size_blocks, h.size_insns, h.size_values, h.size_phis, h.preds,
    fun b => (h.block b).2.1, fun b => (h.block b).2.2.1, ?_, h.done, h.closed, ?_, ?_, ?_, ?_, ?_,
    ?_, ?_, ?_, fun b _ _ x hnone => by rw [h.held, hnone], hroot⟩
  · intro i hi
    rw [hfun, mapOperands_resolve hs, h.insn i hi]
  · intro v
    rw [h.resolve, h.resolve, resolve_resolve hs]
  · intro v hv
    rw [h.resolve, resolve_of_defined hs hv]
    exact h.defined hv
  · intro v b l hv hav
    rw [h.resolve, resolve_of_defined hs hv]
    exact (h.carries hs).avail_before hav
  · intro b v hv
    rw [h.resolve, resolve_of_defined hs hv.1]
    exact h.usable hs hv
  · intro b _ x v hv
    rw [h.resolve, hv.resolved hs]
    exact h.holds.2 hv
  · intro b x v hv
    rw [h.resolve]
    exact hstarts b x _ (hv.resolve_self hs)
  · intro b x v hv
    rw [h.resolve]
    exact h.passes hs (hv.resolve_self hs)
  · intro b _ x v hnone hv
    obtain ⟨w, hw, -⟩ := hv
    rw [h.held, hnone] at hw
    simp at hw

end Keeps

end Keep

/-! ## A new phi -/

def openPhi (p : Progress) (b : BlockId) (ty : ValueType) : Progress :=
  { p with func := (p.func.insertPhi b ty).2 }

section OpenPhi

variable {p : Progress} {gaps : List Gap} {ty : ValueType}

def newGap (p : Progress) (b : BlockId) (x : Variable) : Gap := ⟨b, x, ⟨p.func.phis.size⟩⟩

lemma phi_openPhi_lt (hq : p.func.HasPhi q) : (p.openPhi b ty).func.phi q = p.func.phi q := by
  rw [openPhi, phi_insertPhi, if_neg (by omega)]

lemma phi_openPhi_new : (p.openPhi b ty).func.phi ⟨p.func.phis.size⟩ =
    { value := ⟨p.func.values.size⟩, block := b } := by
  rw [openPhi, phi_insertPhi, if_pos rfl]

lemma block_openPhi (c : BlockId) :
    ((p.openPhi b ty).func.block c).preds = (p.func.block c).preds ∧
      ((p.openPhi b ty).func.block c).handlers = (p.func.block c).handlers ∧
      ((p.openPhi b ty).func.block c).insns = (p.func.block c).insns ∧
      ((p.openPhi b ty).func.block c).removed = (p.func.block c).removed := by
  rw [openPhi, block_insertPhi]
  split <;> simp

lemma keeps_openPhi : Keeps p (p.openPhi b ty) := by
  refine ⟨rfl, rfl, fun _ h => h, fun _ h => h, p.func.size_blocks_insertPhi b ty, le_rfl,
    by simp [openPhi], by simp [openPhi], fun c => ?_, fun _ _ => rfl, fun v hv => ?_, fun q hq => ?_⟩
  · exact ⟨(block_openPhi c).1, (block_openPhi c).2.1, by rw [(block_openPhi c).2.2.1],
      (block_openPhi c).2.2.2⟩
  · rw [openPhi, value_insertPhi, if_neg (by omega)]
  · rw [phi_openPhi_lt hq]
    exact ⟨rfl, rfl⟩

lemma reads_openPhi (hr : (p.openPhi b ty).func.Reads v s) : p.func.Reads v s := by
  cases s with
  | insn i => exact hr
  | phi q =>
    rw [Function.Reads, openPhi, phi_insertPhi] at hr
    split at hr
    · simp at hr
    · exact hr

lemma isGap_openPhi :
    (p.openPhi b ty).IsGap (p.newGap b x :: gaps) c y q ↔
      (c = b ∧ y = x ∧ q = ⟨p.func.phis.size⟩) ∨ p.IsGap gaps c y q := by
  simp only [IsGap, newGap, mem_cons, Gap.mk.injEq, or_assoc]
  rfl

section

variable (hs : p.Sound gaps)
include hs

lemma flow_openPhi (hb : p.func.HasBlock b) :
    (p.openPhi b ty).func.Flow
      fun q => ∃ c y, (p.openPhi b ty).IsGap (p.newGap b x :: gaps) c y q := by
  refine (hs.flow.insertPhi ty hb).congr fun q => ?_
  constructor
  · rintro (rfl | ⟨c, y, hq⟩)
    · exact ⟨b, x, isGap_openPhi.2 (.inl ⟨rfl, rfl, rfl⟩)⟩
    · exact ⟨c, y, isGap_openPhi.2 (.inr hq)⟩
  · rintro ⟨c, y, hq⟩
    rcases isGap_openPhi.1 hq with ⟨-, -, rfl⟩ | hq
    · exact .inl rfl
    · exact .inr ⟨c, y, hq⟩

lemma sound_openPhi (hb : p.func.HasBlock b) : (p.openPhi b ty).Sound (p.newGap b x :: gaps) := by
  have hnew : ∀ c y q, p.IsGap gaps c y q → q ≠ ⟨p.func.phis.size⟩ := by
    intro c y q hq hc
    have := phi_lt_of_isGap hs hq
    rw [hc] at this
    simp at this
  refine keeps_openPhi.sound hs rfl rfl rfl (flow_openPhi hs hb) ?_ ?_ ?_
  · intro c y q hq
    rcases isGap_openPhi.1 hq with ⟨rfl, -, rfl⟩ | hq
    · exact .inr (by rw [phi_openPhi_new])
    · exact .inl hq
  · refine nodup_cons.2 ⟨?_, hs.gaps_nodup⟩
    intro hmem
    obtain ⟨g, hg, hphi⟩ := mem_map.1 hmem
    exact hnew g.block g.var g.phi (.inl hg) hphi
  · intro g hg c y hmem
    rcases mem_cons.1 hg with rfl | hg
    · exact hnew c y _ (.inr hmem) rfl
    · exact hs.gaps_waiting g hg c y hmem

lemma later_openPhi (hroot : ¬p.IsRoot b) : Later p (p.openPhi b ty) gaps (p.newGap b x :: gaps) := by
  refine keeps_openPhi.later hs (fun c hc hphis => ?_) fun _ _ _ =>
    keeps_openPhi.starts hs (fun _ _ _ hq => isGap_openPhi.2 (.inr hq))
      fun q hq => by rw [phi_openPhi_lt hq]
  have hne : ¬(b = c ∧ p.func.HasBlock b) := fun heq => hroot (heq.1 ▸ hc)
  rw [openPhi, block_insertPhi, if_neg hne, hphis]

lemma read_openPhi (hroot : ¬p.IsRoot b) : Read p (p.openPhi b ty) gaps (p.newGap b x :: gaps) := by
  refine Read.of_held_eq (later_openPhi hs hroot) ?_ rfl rfl ?_ ?_
  · exact ⟨rfl, rfl, rfl, rfl, rfl, rfl, rfl, fun c => (block_openPhi c).2.2.1⟩
  · exact fun v hlt _ => keeps_openPhi.definition v hlt
  · intro n m hn hm hf
    refine ⟨fun v s hv hr => hf.1 v s hv (reads_openPhi hr), fun q hq hmq => ?_⟩
    by_cases hlt : q.index = p.func.phis.size
    · have hq' : q = ⟨p.func.phis.size⟩ := PhiId.eq_iff.2 hlt
      rwa [hq', phi_openPhi_new]
    · rw [openPhi, phi_insertPhi, if_neg hlt] at hq ⊢
      exact hf.2 q hq hmq

lemma usable_newPhi (hb : p.func.HasBlock b) : (p.openPhi b ty).Usable b ⟨p.func.values.size⟩ := by
  have hsound : (p.openPhi b ty).Sound (p.newGap b (.slot 0) :: gaps) := sound_openPhi hs hb
  have hlive : ((p.openPhi b ty).func.phi ⟨p.func.phis.size⟩).removed = false := by
    rw [phi_openPhi_new]
  have hphi := hsound.flow.exact.isPhiOf_phi hlive
  rw [phi_openPhi_new] at hphi
  obtain ⟨q, hq, -⟩ := id hphi
  exact ⟨by rw [hq]; rfl, (availStart_of_isPhiOf hphi).toEnd⟩

end

end OpenPhi

/-! ## Recording what a block holds -/

section Hold

variable {p : Progress} {gaps : List Gap}

lemma holds_hold :
    (p.hold b x v).Holds c y u ↔
      (c = b ∧ y = x ∧ p.resolve v = u) ∨ ((c, y) ≠ (b, x) ∧ p.Holds c y u) := by
  simp only [Holds, hold, Assoc.get?_insert]
  by_cases hc : (b, x) = (c, y)
  · obtain ⟨rfl, rfl⟩ := Prod.mk.inj hc
    simp [resolve]
  · have hc' : ¬(c = b ∧ y = x ∧ p.resolve v = u) := by
      rintro ⟨rfl, rfl, -⟩
      exact hc rfl
    simp only [hc, if_false, hc', false_or, ne_eq, Ne.symm hc, not_false_iff, true_and]
    rfl

/-- Recording a value does not change what was recorded. -/
def Agrees (p : Progress) (b : BlockId) (x : Variable) (v : ValueId) : Prop :=
  ∀ u, p.Holds b x u → u = p.resolve v

lemma holds_hold_of_holds
    (hagrees : c = b → p.Agrees b x v) (h : p.Holds c y u) : (p.hold b x v).Holds c y u := by
  rw [holds_hold]
  by_cases hc : (c, y) = (b, x)
  · obtain ⟨rfl, rfl⟩ := Prod.mk.inj hc
    exact .inl ⟨rfl, rfl, (hagrees rfl u h).symm⟩
  · exact .inr ⟨hc, h⟩

lemma sound_hold (hs : p.Sound gaps) (hv : p.Usable b (p.resolve v)) :
    (p.hold b x v).Sound gaps := by
  refine { hs with held_usable := fun c y u hu => ?_ }
  rcases holds_hold.1 hu with ⟨rfl, rfl, rfl⟩ | ⟨-, hu⟩
  · exact hv
  · exact hs.held_usable c y u hu

lemma passes_hold (hagrees : b ∈ p.done → p.Agrees b x v) (h : p.Passes c y u) :
    (p.hold b x v).Passes c y u := by
  intro pred hpred
  obtain ⟨hdone, hholds, hnot⟩ := h pred hpred
  exact ⟨hdone, holds_hold_of_holds (fun hc => hagrees (hc ▸ hdone)) hholds, hnot⟩

lemma starts_hold (hagrees : b ∈ p.done → p.Agrees b x v) (h : p.Starts gaps c y u) :
    (p.hold b x v).Starts gaps c y u := by
  rcases h with hgap | ⟨q, hq, hblock, hall⟩ | hpasses
  · exact .inl hgap
  · refine .inr (.inl ⟨q, hq, hblock, fun j pred hj => ?_⟩)
    obtain ⟨hdone, w, hw, hop⟩ := hall j pred hj
    exact ⟨hdone, w, holds_hold_of_holds (fun hc => hagrees (hc ▸ hdone)) hw, hop⟩
  · exact .inr (.inr (passes_hold hagrees hpasses))

lemma held_hold_of_ne (hc : c ≠ b)
    (h : p.held.get? (c, y) = none) : (p.hold b x v).held.get? (c, y) = none := by
  rw [hold, Assoc.get?_insert, if_neg, h]
  rintro heq
  exact hc (Prod.mk.inj heq).1.symm

lemma later_hold (hs : p.Sound gaps) (hagrees : b ∈ p.done → p.Agrees b x v)
    (hstarts : b ∈ p.done → p.Starts gaps b x (p.resolve v)) (hroot : b ∈ p.done → ¬p.IsRoot b) :
    Later p (p.hold b x v) gaps gaps where
  __ := Later.refl hs
  holds c hc y u hu :=
    holds_hold_of_holds (fun heq => hagrees (heq ▸ hc)) ((Later.refl hs).holds c hc y u hu)
  starts c y u hu := starts_hold hagrees (hu.resolve_self hs)
  passes c y u hu := passes_hold hagrees (hu.resolve_self hs)
  holds_new c hc y u hnone hu := by
    rcases holds_hold.1 hu with ⟨rfl, rfl, rfl⟩ | ⟨-, w, hw, -⟩
    · exact starts_hold hagrees (hstarts hc)
    · simp [hnone] at hw
  unheld c hc hroot' y hnone := held_hold_of_ne (fun heq => hroot (heq ▸ hc) (heq ▸ hroot')) hnone

lemma read_hold (hs : p.Sound gaps) (hagrees : p.Agrees b x v)
    (hstarts : p.Starts gaps b x (p.resolve v))
    (hpasses : b ∈ p.closed → (p.func.predecessors b).length = 1 → p.Passes b x (p.resolve v))
    (hroot : ¬p.IsRoot b) : Read p (p.hold b x v) gaps gaps where
  later := later_hold hs (fun _ => hagrees) (fun _ => hstarts) fun _ => hroot
  frame := ⟨rfl, rfl, rfl, rfl, rfl, rfl, rfl, fun _ => rfl⟩
  closed := rfl
  holds c y u hu := holds_hold_of_holds (fun _ => hagrees) ((Read.refl hs).holds c y u hu)
  holds_new c y u hnone hu := by
    rcases holds_hold.1 hu with ⟨rfl, rfl, rfl⟩ | ⟨-, w, hw, -⟩
    · exact ⟨starts_hold (fun _ => hagrees) hstarts,
        fun hb hlen => passes_hold (fun _ => hagrees) (hpasses hb hlen)⟩
    · simp [hnone] at hw
  unheld c hroot' y hnone := held_hold_of_ne (fun heq => hroot (heq ▸ hroot')) hnone
  kept _ _ _ := rfl
  fresh _ _ _ _ hf := hf

end Hold

/-! ## Operands -/

def fillPhi (p : Progress) (q : PhiId) (ops : List ValueId) : Progress :=
  { p with func := p.func.setPhiOperands q ops }

section FillPhi

variable {p : Progress} {gaps : List Gap} {ops : List ValueId}

/-- The operands of a phi are what its variable holds at the ends of the predecessors. -/
structure Fills (p : Progress) (b : BlockId) (x : Variable) (ops : List ValueId) : Prop where
  length : ops.length = (p.func.predecessors b).length
  held : ∀ (j : Nat) (pred : BlockId), (p.func.predecessors b)[j]? = some pred →
    pred ∈ p.done ∧ ∃ u, p.Holds pred x u ∧ ops[j]? = some u

lemma Fills.usable (h : Fills p b x ops) (hs : p.Sound gaps) {j : Nat}
    {pred : BlockId} (hv : ops[j]? = some v) (hpred : (p.func.predecessors b)[j]? = some pred) :
    p.Usable pred v := by
  obtain ⟨-, u, hu, hop⟩ := h.held j pred hpred
  rw [hv] at hop
  rw [Option.some.inj hop]
  exact hs.held_usable pred x u hu

section

variable (hs : p.Sound (⟨b, x, q⟩ :: gaps))
include hs

lemma isGap_unique (h : p.IsGap (⟨b, x, q⟩ :: gaps) c y q) : c = b ∧ y = x := by
  rcases h with h | h
  · rcases mem_cons.1 h with heq | hmem
    · injection heq with hc hy
      exact ⟨hc, hy⟩
    · refine absurd ?_ (nodup_cons.1 hs.gaps_nodup).1
      exact mem_map.2 ⟨_, hmem, rfl⟩
  · exact absurd h (hs.gaps_waiting _ mem_cons_self c y)

lemma not_isGap_tail (c : BlockId) (y : Variable) : ¬p.IsGap gaps c y q := by
  rintro (h | h)
  · exact (nodup_cons.1 hs.gaps_nodup).1 (mem_map.2 ⟨_, h, rfl⟩)
  · exact hs.gaps_waiting _ mem_cons_self c y h

lemma phi_fillPhi (r : PhiId) :
    (p.fillPhi q ops).func.phi r =
      if r = q then { p.func.phi q with operands := ops } else p.func.phi r := by
  have hlt := phi_lt_of_isGap hs (.inl mem_cons_self)
  rw [fillPhi, phi_setPhiOperands]
  by_cases hr : r = q
  · subst hr
    simp [show p.func.HasPhi r from hlt]
  · simp [hr, Ne.symm hr]

omit hs in
lemma preds_fillPhi (c : BlockId) :
    (p.fillPhi q ops).func.predecessors c = p.func.predecessors c := by
  simp [Function.predecessors, fillPhi]

omit hs in
lemma definition_fillPhi (v : ValueId) :
    ((p.fillPhi q ops).func.value v).definition = (p.func.value v).definition := by
  simp [fillPhi]

lemma keeps_fillPhi : Keeps p (p.fillPhi q ops) :=
  ⟨rfl, rfl, fun _ h => h, fun _ h => h, by simp [fillPhi], by simp [fillPhi], by simp [fillPhi],
    by simp [fillPhi], fun c => by simp [fillPhi], fun i _ => by simp [fillPhi],
    fun v _ => definition_fillPhi v, fun r _ => by rw [phi_fillPhi hs]; split <;> simp_all⟩

lemma reads_fillPhi
    (hr : (p.fillPhi q ops).func.Reads v s) : p.func.Reads v s ∨ (s = .phi q ∧ v ∈ ops) := by
  cases s with
  | insn i => exact .inl (by simpa [Function.Reads, fillPhi] using hr)
  | phi r =>
    rw [Function.Reads, phi_fillPhi hs] at hr
    split at hr
    · rename_i hr'
      exact .inr ⟨by rw [hr'], hr⟩
    · exact .inl hr

lemma flow_fillPhi (hops : Fills p b x ops) :
    (p.fillPhi q ops).func.Flow fun r => ∃ c y, (p.fillPhi q ops).IsGap gaps c y r := by
  have hgap : p.IsGap (⟨b, x, q⟩ :: gaps) b x q := .inl mem_cons_self
  have hfills : List.Forall₂
      (fun pred v => p.func.AvailEnd v pred ∧ ((p.func.value v).definition).isSome)
      (p.func.predecessors (p.func.phi q).block) ops := by
    rw [hs.gap_block b x q hgap]
    refine forall₂_iff_get.2 ⟨hops.length.symm, fun j hpred hop => ?_⟩
    exact (hops.usable hs (getElem?_eq_getElem hop) (getElem?_eq_getElem hpred)).symm
  refine (hs.flow.fillPhi ⟨b, x, hgap⟩ hfills).congr fun r => ?_
  constructor
  · rintro ⟨hne, c, y, h | h⟩
    · rcases mem_cons.1 h with heq | hmem
      · injection heq with _ _ hphi
        exact absurd hphi hne
      · exact ⟨c, y, .inl hmem⟩
    · exact ⟨c, y, .inr h⟩
  · rintro ⟨c, y, hr⟩
    refine ⟨?_, c, y, hr.imp_left (mem_cons_of_mem _)⟩
    rintro rfl
    exact not_isGap_tail hs c y hr

lemma sound_fillPhi (hops : Fills p b x ops) : (p.fillPhi q ops).Sound gaps :=
  (keeps_fillPhi hs).sound hs rfl rfl rfl (flow_fillPhi hs hops)
    (fun _ _ _ hr => .inl (hr.imp_left (mem_cons_of_mem _))) (nodup_cons.1 hs.gaps_nodup).2
    fun g hg => hs.gaps_waiting g (mem_cons_of_mem _ hg)

lemma starts_fillPhi (hops : Fills p b x ops)
    (h : p.Starts (⟨b, x, q⟩ :: gaps) c y v) : (p.fillPhi q ops).Starts gaps c y v := by
  have hgap : p.IsGap (⟨b, x, q⟩ :: gaps) b x q := .inl mem_cons_self
  obtain ⟨hlive, hnil⟩ := hs.flow.waits q ⟨b, x, hgap⟩
  rcases h with ⟨r, hr, rfl⟩ | ⟨r, hr, hblock, hall⟩ | hpasses
  · by_cases hrq : r = q
    · -- the gap itself is closed: its operands are what the predecessors hold
      subst hrq
      obtain ⟨rfl, rfl⟩ := isGap_unique hs hr
      have hdef := (hs.flow.exact.definition_iff (p.func.phi r).value (.phi r)).2 ⟨hlive, rfl⟩
      refine .inr (.inl ⟨r, by rw [definition_fillPhi, hdef], ?_, ?_⟩)
      · rw [phi_fillPhi hs, if_pos rfl]
        exact hs.gap_block _ _ r hgap
      · intro j pred hj
        rw [preds_fillPhi] at hj
        rw [phi_fillPhi hs, if_pos rfl]
        exact hops.held j pred hj
    · refine .inl ⟨r, ?_, by rw [phi_fillPhi hs, if_neg hrq]⟩
      rcases hr with h | h
      · rcases mem_cons.1 h with heq | hmem
        · injection heq with _ _ hphi
          exact absurd hphi hrq
        · exact .inl hmem
      · exact .inr h
  · by_cases hrq : r = q
    · -- without operands the phi cannot have joined anything, so its block has no predecessors
      subst hrq
      refine .inr (.inr fun pred hpred => ?_)
      rw [preds_fillPhi] at hpred
      obtain ⟨j, hj⟩ := getElem?_of_mem hpred
      obtain ⟨-, u, -, hop⟩ := hall j pred hj
      simp [hnil] at hop
    · exact .inr (.inl ((keeps_fillPhi hs).joins hr (phi_lt_of_definition hs hr) hblock
        (by rw [phi_fillPhi hs, if_neg hrq]) hall))
  · exact .inr (.inr ((keeps_fillPhi hs).passes hs hpasses))

lemma later_fillPhi (hops : Fills p b x ops) : Later p (p.fillPhi q ops) (⟨b, x, q⟩ :: gaps) gaps :=
  (keeps_fillPhi hs).later hs (fun c _ hphis => by simpa [fillPhi] using hphis)
    fun _ _ _ h => starts_fillPhi hs hops h

omit hs in
lemma frame_fillPhi : Frame p (p.fillPhi q ops) :=
  ⟨rfl, rfl, rfl, rfl, rfl, rfl, by simp [fillPhi], fun c => by simp [fillPhi]⟩

lemma fresh_fillPhi (hf : Fresh n m p.func)
    (hq : m ≤ q.index) : Fresh n m (p.fillPhi q ops).func := by
  constructor
  · intro v s hv hr
    rcases reads_fillPhi hs hr with hr | ⟨rfl, -⟩
    · exact hf.1 v s hv hr
    · exact ⟨q, rfl, hq⟩
  · intro r hr hm
    rw [phi_fillPhi hs] at hr ⊢
    split
    · rename_i hrq
      rw [if_pos hrq] at hr
      exact hf.2 q hr hq
    · rename_i hrq
      rw [if_neg hrq] at hr
      exact hf.2 r hr hm

end

end FillPhi

/-! ## Waiting -/

def await (p : Progress) (b : BlockId) (x : Variable) (q : PhiId) : Progress :=
  { p with waiting := p.waiting.insert b (p.waitingAt b ++ [(x, q)]) }

section Await

variable {p : Progress} {gaps : List Gap}

lemma waitingAt_await (c : BlockId) :
    (p.await b x q).waitingAt c = if b = c then p.waitingAt c ++ [(x, q)] else p.waitingAt c := by
  simp only [await, waitingAt, Assoc.get?_insert]
  by_cases hbc : b = c
  · simp [hbc]
  · simp [hbc]

lemma isGap_await : (p.await b x q).IsGap gaps c y r ↔ p.IsGap (⟨b, x, q⟩ :: gaps) c y r := by
  simp only [IsGap, waitingAt_await, mem_cons, Gap.mk.injEq]
  by_cases hbc : b = c
  · subst hbc
    simp only [if_true, mem_append, mem_singleton, Prod.mk.injEq, true_and]
    tauto
  · simp only [hbc, if_false, Ne.symm hbc, false_and, false_or]

lemma sound_await (hs : p.Sound (⟨b, x, q⟩ :: gaps)) (hopen : b ∉ p.closed) :
    (p.await b x q).Sound gaps := by
  have hflow : (fun r => ∃ c y, (p.await b x q).IsGap gaps c y r) =
      fun r => ∃ c y, p.IsGap (⟨b, x, q⟩ :: gaps) c y r := by
    funext r
    simp only [isGap_await]
  have hnot := hs.gaps_waiting _ mem_cons_self
  refine ⟨by rw [hflow]; exact hs.flow, ?_, (nodup_cons.1 hs.gaps_nodup).2, ?_, ?_, hs.live,
    hs.reach, hs.preds_lt, hs.grounded, hs.replaced_undefined, hs.replaced_lt, hs.held_usable, ?_,
    hs.closed_done⟩
  · intro c y r hr
    exact hs.gap_block c y r (isGap_await.1 hr)
  · intro c
    rw [waitingAt_await]
    split
    · rw [map_append, nodup_append]
      refine ⟨hs.waiting_nodup c, by simp, ?_⟩
      intro r hr s hr' heq
      obtain ⟨⟨y, r⟩, hmem, rfl⟩ := mem_map.1 hr
      rw [map_singleton, mem_singleton] at hr'
      obtain rfl : r = q := heq.trans hr'
      exact hnot c y hmem
    · exact hs.waiting_nodup c
  · intro g hg c y hmem
    rw [waitingAt_await] at hmem
    have hold := hs.gaps_waiting g (mem_cons_of_mem _ hg) c y
    split at hmem
    · rcases mem_append.1 hmem with hmem | hmem
      · exact hold hmem
      · obtain ⟨-, hphi⟩ := Prod.mk.inj (mem_singleton.1 hmem)
        exact (nodup_cons.1 hs.gaps_nodup).1 (mem_map.2 ⟨g, hg, hphi⟩)
    · exact hold hmem
  · intro c hc
    have hbc : b ≠ c := fun heq => hopen (heq ▸ hc)
    rw [waitingAt_await, if_neg hbc]
    exact hs.waiting_open c hc

lemma read_await (hs : p.Sound (⟨b, x, q⟩ :: gaps)) :
    Read p (p.await b x q) (⟨b, x, q⟩ :: gaps) gaps := by
  have hkeeps : Keeps p (p.await b x q) := .of_func rfl rfl rfl (fun _ h => h) fun _ h => h
  refine Read.of_held_eq ?_ ⟨rfl, rfl, rfl, rfl, rfl, rfl, rfl, fun _ => rfl⟩ rfl rfl
    (fun _ _ _ => rfl) fun _ _ _ _ hf => hf
  exact hkeeps.later hs (fun _ _ h => h) fun _ _ _ =>
    hkeeps.starts hs (fun _ _ _ => isGap_await.2) fun _ _ => rfl

end Await

end Progress

end Dissolve.Lift
