import Dissolve.Proofs.Ssa.PhiEdits

/-!
# Proofs.Ssa.Availability — values along the ways into a block

A *trail* is a way from the entry to a block, the block first, along the recorded predecessors. A
value is available at the end of a block if every trail to the block runs through the block that
defines it. Said along trails, availability needs no dominator tree and no finished terminators, so
it can be followed while a function is still being built.

`Flow.collapsePhi`: a phi that merges one value only can be replaced by it. On every trail into the block
of the phi the merged value was defined earlier.
-/

namespace Dissolve.Ssa

open List

variable {b p : BlockId} {same v : ValueId} {i : InsnId} {l t : List BlockId}

namespace Function

/-- A way from the entry to a block, the block first. -/
inductive Trail (f : Function) : List BlockId → Prop
  | start : Trail f [f.entry]
  | step {p b : BlockId} {t : List BlockId} (walked : Trail f (p :: t))
      (edge : p ∈ f.predecessors b) : Trail f (b :: p :: t)

def siteBlock (f : Function) : Site → BlockId
  | .insn i => (f.insn i).block
  | .phi p => (f.phi p).block

def IsPhiOf (f : Function) (v : ValueId) (b : BlockId) : Prop :=
  ∃ p, (f.value v).definition = some (.phi p) ∧ (f.phi p).block = b

/-- Every way to the end of a block defines the value. -/
def AvailEnd (f : Function) (v : ValueId) (b : BlockId) : Prop :=
  ∀ t, f.Trail (b :: t) → ∃ c ∈ b :: t, f.definingBlock? v = some c

/-- Every way to the start of a block defines the value; the phis of the block are there too. -/
def AvailStart (f : Function) (v : ValueId) (b : BlockId) : Prop :=
  ∀ t, f.Trail (b :: t) → (∃ c ∈ t, f.definingBlock? v = some c) ∨ f.IsPhiOf v b

/-- The value is defined by one of the given instructions or is there at the start of the block. -/
def AvailBefore (f : Function) (v : ValueId) (b : BlockId) (before : List InsnId) : Prop :=
  (∃ i ∈ before, (f.insn i).dest = some v) ∨ f.AvailStart v b

/-! ## Trails -/

section Trails

variable {f g : Function}

lemma Trail.congr (h : f.Trail l)
    (hpreds : ∀ b, g.predecessors b = f.predecessors b) : g.Trail l := by
  induction h with
  | start => exact .start
  | step _ edge ih => exact .step ih (by rwa [hpreds])

lemma Trail.tail (h : f.Trail (b :: p :: t)) : f.Trail (p :: t) := by
  cases h with
  | step walked _ => exact walked

lemma Trail.edge (h : f.Trail (b :: p :: t)) : p ∈ f.predecessors b := by
  cases h with
  | step _ edge => exact edge

lemma Trail.until (h : f.Trail l) {c : BlockId} (hc : c ∈ l) :
    ∃ t, f.Trail (c :: t) ∧ (c :: t) <:+ l := by
  induction h with
  | start =>
    rw [mem_singleton] at hc
    subst hc
    exact ⟨[], .start, suffix_refl _⟩
  | step walked edge ih =>
    rcases mem_cons.1 hc with rfl | hc
    · exact ⟨_, .step walked edge, suffix_refl _⟩
    · obtain ⟨t, ht, hsuffix⟩ := ih hc
      exact ⟨t, ht, hsuffix.trans (suffix_cons _ _)⟩

/-- What some trail to a block has, a trail to the block has that comes by it only once. -/
lemma Trail.once (h : f.Trail (b :: t)) : ∃ t', f.Trail (b :: t') ∧ b ∉ t' := by
  induction hn : t.length using Nat.strong_induction_on generalizing t with
  | _ n ih =>
    by_cases hb : b ∈ t
    · obtain ⟨p, t, rfl⟩ := exists_cons_of_ne_nil (ne_nil_of_mem hb)
      obtain ⟨t', ht', hsuffix⟩ := h.tail.until hb
      have hlen := hsuffix.length_le
      simp only [length_cons] at hlen hn
      exact ih t'.length (by omega) ht' rfl
    · exact ⟨t, h, hb⟩

end Trails

/-! ## Availability -/

section Availability

variable {f : Function}

lemma definingBlock?_eq (f : Function) (v : ValueId) :
    f.definingBlock? v = (f.value v).definition.map f.siteBlock := by
  unfold definingBlock?
  split <;> simp_all [siteBlock]

lemma IsPhiOf.definingBlock? (h : f.IsPhiOf v b) : f.definingBlock? v = some b := by
  obtain ⟨p, hdef, hb⟩ := h
  simp [definingBlock?_eq, hdef, siteBlock, hb]

lemma Exact.definingBlock?_of_dest (h : f.Exact)
    (hd : (f.insn i).dest = some v) : f.definingBlock? v = some (f.insn i).block := by
  have hdef := (h.definition_iff v (.insn i)).2 hd
  simp [definingBlock?_eq, hdef, siteBlock]

lemma Exact.isPhiOf_phi (h : f.Exact) {p : PhiId} (hp : f.LivePhi p) :
    f.IsPhiOf (f.phi p).value (f.phi p).block :=
  ⟨p, (h.definition_iff _ _).2 ⟨hp, rfl⟩, rfl⟩

lemma Exact.not_isPhiOf (h : f.Exact) (hd : (f.insn i).dest = some v) : ¬f.IsPhiOf v b := by
  rintro ⟨q, hq, -⟩
  cases hq.symm.trans ((h.definition_iff v (.insn i)).2 hd)

lemma AvailStart.toEnd (h : f.AvailStart v b) : f.AvailEnd v b := by
  intro t ht
  rcases h t ht with ⟨c, hc, hdef⟩ | hphi
  · exact ⟨c, mem_cons_of_mem b hc, hdef⟩
  · exact ⟨b, mem_cons_self, hphi.definingBlock?⟩

lemma AvailBefore.toEnd {before : List InsnId} (h : f.AvailBefore v b before) (hf : f.Exact)
    (hbefore : ∀ i ∈ before, i ∈ (f.block b).insns) : f.AvailEnd v b := by
  rcases h with ⟨i, hi, hd⟩ | hstart
  · intro t _
    refine ⟨b, mem_cons_self, ?_⟩
    rw [hf.definingBlock?_of_dest hd, ((hf.insns_iff b i).1 (hbefore i hi)).2]
  · exact hstart.toEnd

lemma AvailBefore.mono {before more : List InsnId} (h : f.AvailBefore v b before)
    (hsub : ∀ i ∈ before, i ∈ more) : f.AvailBefore v b more :=
  h.imp_left fun ⟨i, hi, hd⟩ => ⟨i, hsub i hi, hd⟩

lemma availStart_of_isPhiOf (h : f.IsPhiOf v b) : f.AvailStart v b :=
  fun _ _ => .inr h

lemma availStart_of_preds (hb : b ≠ f.entry) (h : ∀ p ∈ f.predecessors b, f.AvailEnd v p) :
    f.AvailStart v b := by
  intro t ht
  cases ht with
  | start => exact absurd rfl hb
  | step walked edge => exact .inl (h _ edge _ walked)

lemma AvailStart.at_pred (h : f.AvailStart v b) (hphi : ¬f.IsPhiOf v b)
    (hp : p ∈ f.predecessors b) : f.AvailEnd v p := by
  intro t ht
  exact (h _ (.step ht hp)).resolve_right hphi

lemma AvailEnd.before (h : f.Exact) (hdef : (f.value v).definition.isSome)
    (hv : f.AvailEnd v b) : f.AvailBefore v b (f.block b).insns := by
  obtain ⟨s, hs⟩ := Option.isSome_iff_exists.1 hdef
  by_cases hb : f.siteBlock s = b
  · cases s with
    | insn i =>
      have hd : (f.insn i).dest = some v := (h.definition_iff v (.insn i)).1 hs
      exact .inl ⟨i, (h.insns_iff b i).2 ⟨h.live_of_dest hd, hb⟩, hd⟩
    | phi q => exact .inr (availStart_of_isPhiOf ⟨q, hs, hb⟩)
  · refine .inr fun t ht => ?_
    obtain ⟨c, hc, hcdef⟩ := hv t ht
    rw [definingBlock?_eq, hs, Option.map_some, Option.some.injEq] at hcdef
    refine .inl ⟨c, (mem_cons.1 hc).resolve_left fun heq => hb (hcdef.trans heq), ?_⟩
    rw [definingBlock?_eq, hs, Option.map_some, hcdef]

lemma Exact.not_availBefore (h : f.Exact) {before : List InsnId}
    (hdest : (f.insn i).dest = some v) (hblock : (f.insn i).block = b) (hi : i ∉ before)
    (hreach : ∃ t, f.Trail (b :: t)) : ¬f.AvailBefore v b before := by
  have hdef : f.definingBlock? v = some b := by rw [h.definingBlock?_of_dest hdest, hblock]
  rintro (⟨j, hj, hd⟩ | hstart)
  · exact hi (h.insn_unique hd hdest ▸ hj)
  · obtain ⟨t, ht⟩ := hreach
    obtain ⟨t, ht, hnot⟩ := ht.once
    obtain ⟨c, hc, hdef'⟩ := (hstart t ht).resolve_right (h.not_isPhiOf hdest)
    obtain rfl := Option.some.inj (hdef.symm.trans hdef')
    exact hnot hc

lemma Exact.not_availBefore_start (h : f.Exact) (hdest : (f.insn i).dest = some v) :
    ¬f.AvailBefore v f.entry [] := by
  rintro (⟨j, hj, -⟩ | hstart)
  · cases hj
  · obtain ⟨c, ⟨⟩, -⟩ := (hstart [] .start).resolve_right (h.not_isPhiOf hdest)

lemma Exact.not_availStart_entry (h : f.Exact) (hphis : (f.block f.entry).phis = []) :
    ¬f.AvailStart v f.entry := by
  intro hstart
  rcases hstart [] .start with ⟨c, ⟨⟩, -⟩ | ⟨q, hq, hblock⟩
  have hmem := (h.phis_iff f.entry q).2 ⟨((h.definition_iff v (.phi q)).1 hq).1, hblock⟩
  rw [hphis] at hmem
  cases hmem

lemma AvailBefore.snoc_cases {before : List InsnId} (h : f.AvailBefore v b (before ++ [i])) :
    (f.insn i).dest = some v ∨ f.AvailBefore v b before := by
  rcases h with ⟨j, hj, hd⟩ | hstart
  · rcases mem_append.1 hj with hj | hj
    · exact .inr (.inl ⟨j, hj, hd⟩)
    · exact .inl (mem_singleton.1 hj ▸ hd)
  · exact .inr (.inr hstart)

end Availability

/-! ## Edits that carry availability -/

/-- Where a value was available its image is available after an edit. -/
structure Carries (f g : Function) (rename : ValueId → ValueId) : Prop where
  preds : ∀ b, g.predecessors b = f.predecessors b
  avail_end : ∀ v b, f.AvailEnd v b → g.AvailEnd (rename v) b
  avail_start : ∀ v b, f.AvailStart v b → g.AvailStart (rename v) b
  dest : ∀ i v, (f.insn i).dest = some v → (g.insn i).dest = some (rename v)

namespace Carries

variable {f g : Function} {r : ValueId → ValueId}

lemma avail_before (h : f.Carries g r) {before : List InsnId}
    (hv : f.AvailBefore v b before) : g.AvailBefore (r v) b before := by
  rcases hv with ⟨i, hi, hd⟩ | hstart
  · exact .inl ⟨i, hi, h.dest i v hd⟩
  · exact .inr (h.avail_start v b hstart)

lemma of_extends (hpreds : ∀ b, g.predecessors b = f.predecessors b)
    (hdef : ∀ v s, (f.value v).definition = some s →
      (g.value v).definition = some s ∧ g.siteBlock s = f.siteBlock s)
    (hdest : ∀ i v, (f.insn i).dest = some v → (g.insn i).dest = some v) : f.Carries g id := by
  have hhome : ∀ v c, f.definingBlock? v = some c → g.definingBlock? v = some c := by
    intro v c hc
    rw [definingBlock?_eq, Option.map_eq_some_iff] at hc ⊢
    obtain ⟨s, hs, hc⟩ := hc
    exact ⟨s, (hdef v s hs).1, (hdef v s hs).2.trans hc⟩
  have hphi : ∀ v b, f.IsPhiOf v b → g.IsPhiOf v b := by
    rintro v b ⟨p, hp, hb⟩
    exact ⟨p, (hdef v _ hp).1, (hdef v _ hp).2.trans hb⟩
  refine ⟨hpreds, ?_, ?_, hdest⟩
  · intro v b hv t ht
    obtain ⟨c, hc, hc'⟩ := hv t (ht.congr fun b => (hpreds b).symm)
    exact ⟨c, hc, hhome v c hc'⟩
  · intro v b hv t ht
    rcases hv t (ht.congr fun b => (hpreds b).symm) with ⟨c, hc, hc'⟩ | hp
    · exact .inl ⟨c, hc, hhome v c hc'⟩
    · exact .inr (hphi v b hp)

end Carries

/-! ## Functions whose uses are available -/

/-- Every use is available; the phis that satisfy `pending` have no operands yet. -/
structure Flow (f : Function) (pending : PhiId → Prop) : Prop where
  exact : f.Exact
  entry_preds : f.predecessors f.entry = []
  waits : ∀ q, pending q → (f.phi q).removed = false ∧ (f.phi q).operands = []
  arity : ∀ q, (f.phi q).removed = false → ¬pending q →
    (f.phi q).operands.length = (f.predecessors (f.phi q).block).length
  phi_avail : ∀ (q : PhiId) (j : Nat) (v : ValueId) (p : BlockId),
    (f.phi q).operands[j]? = some v → (f.predecessors (f.phi q).block)[j]? = some p → f.AvailEnd v p
  insn_avail : ∀ b before i after, (f.block b).insns = before ++ i :: after →
    ∀ v ∈ (f.insn i).op.operands, f.AvailBefore v b before
  defined : ∀ v s, f.Reads v s → ((f.value v).definition).isSome

end Function

/-! ## Trivial phis -/

namespace Phi

lemma onlyOther?_eq_some_iff {self : ValueId} {vs : List ValueId} :
    onlyOther? self vs = some same ↔ same ≠ self ∧ same ∈ vs ∧ ∀ v ∈ vs, v = self ∨ v = same := by
  induction vs with
  | nil => simp [onlyOther?]
  | cons v rest ih =>
    rw [onlyOther?]
    by_cases hv : v = self
    · subst hv
      rw [if_pos rfl, ih]
      constructor
      · rintro ⟨hne, hmem, hall⟩
        refine ⟨hne, mem_cons_of_mem _ hmem, ?_⟩
        simpa using hall
      · rintro ⟨hne, hmem, hall⟩
        refine ⟨hne, (mem_cons.1 hmem).resolve_left hne, ?_⟩
        exact fun w hw => hall w (mem_cons_of_mem _ hw)
    · rw [if_neg hv]
      split
      · rename_i hall
        rw [Option.some.injEq]
        constructor
        · rintro rfl
          refine ⟨hv, mem_cons_self, ?_⟩
          simpa using hall
        · rintro ⟨hne, -, hall'⟩
          exact (hall' v mem_cons_self).resolve_left hv
      · rename_i hall
        simp only [reduceCtorEq, false_iff]
        rintro ⟨hne, hmem, hall'⟩
        have hsame : v = same := (hall' v mem_cons_self).resolve_left hv
        subst hsame
        refine hall ?_
        simp only [all_eq_true, Bool.or_eq_true, decide_eq_true_eq]
        exact fun w hw => hall' w (mem_cons_of_mem _ hw)

lemma trivialOperand?_eq_some_iff {p : Phi} :
    p.trivialOperand? = some same ↔
      same ≠ p.value ∧ same ∈ p.operands ∧ ∀ v ∈ p.operands, v = p.value ∨ v = same :=
  onlyOther?_eq_some_iff

end Phi

namespace Function.Flow

variable {f : Function} {pending : PhiId → Prop} {q : PhiId}

section

variable (h : f.Flow pending)
include h

section

variable (hq : f.LivePhi q)
include hq

lemma operand_at (hwait : ¬pending q)
    {slot : Nat} (hslot : (f.predecessors (f.phi q).block)[slot]? = some p) :
    ∃ v, (f.phi q).operands[slot]? = some v ∧ v ∈ (f.phi q).operands ∧ f.AvailEnd v p := by
  obtain ⟨v, hv⟩ : ∃ v, (f.phi q).operands[slot]? = some v :=
    ⟨_, List.getElem?_eq_getElem (h.arity q hq hwait ▸ (List.getElem?_eq_some_iff.1 hslot).1)⟩
  exact ⟨v, hv, mem_of_getElem? hv, h.phi_avail q slot v p hv hslot⟩

/-- On every trail to a trivial phi the value it merges was defined before its block was entered. -/
lemma merged_before (hwait : ¬pending q) (htriv : (f.phi q).trivialOperand? = some same)
    (ht : f.Trail ((f.phi q).block :: t)) : ∃ c ∈ t, f.definingBlock? same = some c := by
  obtain ⟨hne, hmem, hall⟩ := Phi.trivialOperand?_eq_some_iff.1 htriv
  have harity := h.arity q hq hwait
  have hhome := (h.exact.isPhiOf_phi hq).definingBlock?
  -- a trail that comes back through the phi itself is cut where it last did
  induction hn : t.length using Nat.strong_induction_on generalizing t with
  | _ n ih =>
    generalize hb : (f.phi q).block = b at ht ih harity hhome
    cases ht with
    | start =>
      have hnil := h.entry_preds
      rw [hnil, length_nil] at harity
      rw [length_eq_zero_iff.1 harity] at hmem
      simp at hmem
    | @step p _ t walked edge =>
      obtain ⟨j, hj⟩ := getElem?_of_mem edge
      obtain ⟨w, -, hw, hav⟩ := h.operand_at hq hwait (hb ▸ hj)
      obtain ⟨c, hc, hdef⟩ := hav t walked
      rcases hall w hw with rfl | rfl
      · obtain rfl : b = c := Option.some.inj (hhome.symm.trans hdef)
        obtain ⟨t', ht', hsuffix⟩ := walked.until hc
        have hlen := hsuffix.length_le
        simp only [length_cons] at hlen hn
        obtain ⟨d, hd, hd'⟩ := ih t'.length (by omega) ht' rfl
        exact ⟨d, hsuffix.subset (mem_cons_of_mem _ hd), hd'⟩
      · exact ⟨c, hc, hdef⟩

section

variable (htriv : (f.phi q).trivialOperand? = some same)
include htriv

omit hq in
lemma same_lt : f.HasValue same :=
  h.exact.lt_of_reads (s := .phi q) (Phi.trivialOperand?_eq_some_iff.1 htriv).2.1

omit hq in
lemma preds_collapsePhi
    (b : BlockId) : (f.collapsePhi q same).predecessors b = f.predecessors b := by
  rw [predecessors, h.exact.block_collapsePhi (h.same_lt htriv)]
  rfl

omit htriv in
lemma siteBlock_collapsePhi (s : Site) : (f.collapsePhi q same).siteBlock s = f.siteBlock s := by
  cases s with
  | insn i => rw [siteBlock, siteBlock, h.exact.insn_collapsePhi, redirectInsn]
  | phi p =>
    rw [siteBlock, siteBlock, h.exact.phi_collapsePhi hq]
    split
    · rename_i hp
      rw [hp, Phi.gone]
    · rfl

lemma definingBlock?_collapsePhi (hv : v ≠ (f.phi q).value) :
    (f.collapsePhi q same).definingBlock? v = f.definingBlock? v := by
  rw [definingBlock?_eq, definingBlock?_eq, h.exact.definition_collapsePhi hq (h.same_lt htriv),
    if_neg hv.symm]
  exact congrArg (Option.map · _) (funext fun s => h.siteBlock_collapsePhi hq s)

lemma isPhiOf_collapsePhi (hv : v ≠ (f.phi q).value) :
    (f.collapsePhi q same).IsPhiOf v b ↔ f.IsPhiOf v b := by
  simp only [IsPhiOf, h.exact.definition_collapsePhi hq (h.same_lt htriv), if_neg hv.symm]
  refine exists_congr fun p => and_congr_right fun _ => ?_
  rw [← siteBlock.eq_2 (f.collapsePhi q same) p, h.siteBlock_collapsePhi hq, siteBlock]

end

lemma carries_collapsePhi (hwait : ¬pending q) (htriv : (f.phi q).trivialOperand? = some same) :
    f.Carries (f.collapsePhi q same) (redirect (f.phi q).value same) := by
  have hsame : same ≠ (f.phi q).value := (Phi.trivialOperand?_eq_some_iff.1 htriv).1
  have hpreds := h.preds_collapsePhi htriv
  have hhome := (h.exact.isPhiOf_phi hq).definingBlock?
  refine ⟨hpreds, ?_, ?_, ?_⟩
  · intro v b hv t ht
    have ht : f.Trail (b :: t) := ht.congr fun b => (hpreds b).symm
    obtain ⟨c, hc, hdef⟩ := hv t ht
    by_cases hvq : v = (f.phi q).value
    · subst hvq
      obtain rfl := Option.some.inj (hhome.symm.trans hdef)
      obtain ⟨t', ht', hsuffix⟩ := ht.until hc
      obtain ⟨d, hd, hd'⟩ := h.merged_before hq hwait htriv ht'
      refine ⟨d, hsuffix.subset (mem_cons_of_mem _ hd), ?_⟩
      rwa [redirect_old, h.definingBlock?_collapsePhi hq htriv hsame]
    · refine ⟨c, hc, ?_⟩
      rwa [redirect_of_ne hvq, h.definingBlock?_collapsePhi hq htriv hvq]
  · intro v b hv t ht
    have ht : f.Trail (b :: t) := ht.congr fun b => (hpreds b).symm
    by_cases hvq : v = (f.phi q).value
    · subst hvq
      rw [redirect_old, h.definingBlock?_collapsePhi hq htriv hsame]
      refine .inl ?_
      rcases hv t ht with ⟨c, hc, hdef⟩ | hphi
      · obtain rfl := Option.some.inj (hhome.symm.trans hdef)
        obtain ⟨t', ht', hsuffix⟩ := ht.until (mem_cons_of_mem b hc)
        obtain ⟨d, hd, hd'⟩ := h.merged_before hq hwait htriv ht'
        refine ⟨d, ?_, hd'⟩
        -- the cut trail ends inside `t`, so what follows its head does too
        have hlen : t'.length ≤ t.length := by
          have := hsuffix.length_le
          simpa using this
        have hsub : t' <:+ b :: t := (suffix_cons _ _).trans hsuffix
        rcases suffix_cons_iff.1 hsub with hcons | hsub
        · exact absurd (congrArg length hcons) (by simp; omega)
        · exact hsub.subset hd
      · obtain rfl := Option.some.inj (hhome.symm.trans hphi.definingBlock?)
        exact h.merged_before hq hwait htriv ht
    · rw [redirect_of_ne hvq, h.definingBlock?_collapsePhi hq htriv hvq,
        h.isPhiOf_collapsePhi hq htriv hvq]
      exact hv t ht
  · intro i v hi
    rw [h.exact.insn_collapsePhi, redirectInsn]
    have hvq : v ≠ (f.phi q).value := by
      rintro rfl
      have hdef : f.Defines (f.phi q).value (.insn i) := hi
      have hphi : f.Defines (f.phi q).value (.phi q) := ⟨hq, rfl⟩
      exact absurd (h.exact.defines_unique hdef hphi) (by simp)
    rw [redirect_of_ne hvq]
    exact hi

theorem collapsePhi (hwait : ¬pending q)
    (htriv : (f.phi q).trivialOperand? = some same) : (f.collapsePhi q same).Flow pending := by
  have hne : (f.phi q).value ≠ same := (Phi.trivialOperand?_eq_some_iff.1 htriv).1.symm
  have hsame := h.same_lt htriv
  have hpreds := h.preds_collapsePhi htriv
  have hcarries := h.carries_collapsePhi hq hwait htriv
  have hphi : ∀ r, (f.collapsePhi q same).phi r = _ := h.exact.phi_collapsePhi hq
  refine ⟨h.exact.collapsePhi hq hne hsame, ?_, ?_, ?_, ?_, ?_, ?_⟩
  · exact (hpreds _).trans h.entry_preds
  · intro p hp
    have hpq : p ≠ q := fun hc => hwait (hc ▸ hp)
    obtain ⟨hlive, hnil⟩ := h.waits p hp
    rw [hphi, if_neg hpq, redirectPhi, hnil]
    exact ⟨hlive, rfl⟩
  · intro p hp hnot
    rw [hphi] at hp ⊢
    rw [hpreds]
    split at hp
    · simp [Phi.gone] at hp
    · rename_i hpq
      rw [if_neg hpq, redirectPhi, length_map]
      exact h.arity p hp hnot
  · intro p j v b hv hb
    rw [hphi] at hv hb
    rw [hpreds] at hb
    split at hv
    · simp [Phi.gone] at hv
    · rename_i hpq
      rw [redirectPhi, getElem?_map, Option.map_eq_some_iff] at hv
      obtain ⟨w, hw, rfl⟩ := hv
      rw [if_neg hpq, redirectPhi] at hb
      exact hcarries.avail_end w b (h.phi_avail p j w b hw hb)
  · intro b before i after hlist v hv
    rw [h.exact.block_collapsePhi hsame] at hlist
    rw [h.exact.insn_collapsePhi, redirectInsn, Op.operands_mapOperands, mem_map] at hv
    obtain ⟨w, hw, rfl⟩ := hv
    exact hcarries.avail_before (h.insn_avail b before i after hlist w hw)
  · intro v s hr
    have hread : ∃ w, f.Reads w s ∧ redirect (f.phi q).value same w = v := by
      cases s with
      | insn i => simpa [Reads, h.exact.insn_collapsePhi, redirectInsn] using hr
      | phi p =>
        rw [Reads, hphi] at hr
        split at hr
        · simp [Phi.gone] at hr
        · simpa [Reads, redirectPhi] using hr
    obtain ⟨w, hw, rfl⟩ := hread
    rw [h.exact.definition_collapsePhi hq hsame, if_neg (redirect_ne_old hne w).symm]
    by_cases hwq : w = (f.phi q).value
    · rw [hwq, redirect_old]
      exact h.defined same (.phi q) (Phi.trivialOperand?_eq_some_iff.1 htriv).2.1
    · rw [redirect_of_ne hwq]
      exact h.defined w s hw

end

end

end Function.Flow

end Dissolve.Ssa
