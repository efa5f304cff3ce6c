import Dissolve.Proofs.Lift.Edits

/-!
# Proofs.Lift.Reading — reading a variable finds what it holds

Reading a variable in a block ends with a value that the block holds from then on, and nothing that
was read before is lost (`readVariable_ensures`). Closing a block gives the phis that waited in it
their operands (`closeBlock_ensures`), and a block that is marked as lifted closes those successors
whose predecessors are all lifted (`finishLifted_ensures`).
-/

namespace Dissolve.Lift

open List
open Ssa (Function)

variable {α : Type} {p : Progress} {b c : BlockId} {same v : ValueId} {q r : PhiId} {x : Variable}
  {cs : List BlockId} {ops vs : List ValueId} {gaps : List Gap} {ty : ValueType}

lemma Ensures.discard {m : Lifting α} {Q : Progress → Prop}
    (h : Ensures m p fun _ p' => Q p') : Ensures (Functor.discard m) p fun _ p' => Q p' := by
  exact .seq h fun _ _ hq => .pure hq

namespace Progress

/-- A later stage to which phis that get their operands or collapse lead. -/
structure Settled (p p' : Progress) (gaps gaps' : List Gap) : Prop where
  sound : p'.Sound gaps'
  later : Later p p' gaps gaps'
  frame : Frame p p'
  closed : p'.closed = p.closed
  waiting : p'.waiting = p.waiting
  held : p'.held = p.held

def KeepsOlder (q : PhiId) (p p' : Progress) : Prop :=
  ∀ n m, Fresh n m p.func → m ≤ q.index → Fresh n m p'.func ∧
    ∀ v : ValueId, v.index < n → (p.func.value v).definition.isSome = true →
      (p'.func.value v).definition = (p.func.value v).definition

section Settled

variable {p' p'' : Progress} {gaps' gaps'' : List Gap}

lemma Settled.refl (h : p.Sound gaps) : Settled p p gaps gaps :=
  ⟨h, Later.refl h, Frame.refl p, rfl, rfl, rfl⟩

lemma Settled.trans (h : Settled p p' gaps gaps') (h' : Settled p' p'' gaps' gaps'') :
    Settled p p'' gaps gaps'' :=
  ⟨h'.sound, h.later.trans h'.later, h.frame.trans h'.frame, h'.closed.trans h.closed,
    h'.waiting.trans h.waiting, h'.held.trans h.held⟩

lemma Settled.isGap_iff (h : Settled p p' gaps gaps') :
    p'.IsGap gaps' b x r ↔ p.IsGap gaps' b x r := by
  rw [IsGap, IsGap, waitingAt, waitingAt, h.waiting]

lemma settled_collapse (hs : p.Sound gaps) (hm : Merges p gaps q same) :
    Settled p (p.collapse q same) gaps gaps :=
  ⟨sound_collapse hs hm, later_collapse hs hm, frame_collapse hs hm, rfl, rfl, rfl⟩

lemma settled_fillPhi (hs : p.Sound (⟨b, x, q⟩ :: gaps)) (hops : Fills p b x ops) :
    Settled p (p.fillPhi q ops) (⟨b, x, q⟩ :: gaps) gaps :=
  ⟨sound_fillPhi hs hops, later_fillPhi hs hops, frame_fillPhi, rfl, rfl, rfl⟩

lemma KeepsOlder.refl (q : PhiId) (p : Progress) : KeepsOlder q p p :=
  fun _ _ hf _ => ⟨hf, fun _ _ _ => rfl⟩

lemma keepsOlder_collapse (hs : p.Sound gaps) (hm : Merges p gaps q same) :
    KeepsOlder q p (p.collapse q same) := by
  intro n m hf hq
  refine ⟨fresh_collapse hs hm hf hq, fun v hv _ => ?_⟩
  have hvalue := hf.2 q hm.live hq
  have hne : (p.func.phi q).value ≠ v := by
    rintro rfl
    omega
  rw [collapse, hs.flow.exact.definition_collapsePhi hm.live (hs.flow.same_lt hm.trivial),
    if_neg hne]

lemma keepsOlder_fillPhi (hs : p.Sound (⟨b, x, q⟩ :: gaps)) : KeepsOlder q p (p.fillPhi q ops) :=
  fun _ _ hf hq => ⟨fresh_fillPhi hs hf hq, fun v _ _ => definition_fillPhi v⟩

lemma KeepsOlder.trans (h : KeepsOlder q p p') (h' : KeepsOlder q p' p'') : KeepsOlder q p p'' := by
  intro n m hf hq
  obtain ⟨hf', hkept⟩ := h n m hf hq
  obtain ⟨hf'', hkept'⟩ := h' n m hf' hq
  refine ⟨hf'', fun v hv hdef => ?_⟩
  have hmid := hkept v hv hdef
  exact (hkept' v hv (by rwa [hmid])).trans hmid

lemma KeepsOlder.of_reader (h : KeepsOlder q p p') (h' : KeepsOlder r p' p'')
    (hlive : p.func.LivePhi q) (hr : p.func.Reads (p.func.phi q).value (.phi r)) :
    KeepsOlder q p p'' := by
  intro n m hf hq
  obtain ⟨hf', hkept⟩ := h n m hf hq
  obtain ⟨s, hs, hmr⟩ := hf.1 _ _ (hf.2 q hlive hq) hr
  obtain rfl := Site.phi.inj hs
  obtain ⟨hf'', hkept'⟩ := h' n m hf' hmr
  refine ⟨hf'', fun v hv hdef => ?_⟩
  have hmid := hkept v hv hdef
  exact (hkept' v hv (by rwa [hmid])).trans hmid

end Settled

end Progress

open Progress

/-! ## Dropping trivial phis -/

lemma reads_of_mem_dependentPhis {f : Function} (h : f.Exact)
    (hr : r ∈ f.dependentPhis v q) : f.Reads v (.phi r) := by
  obtain ⟨s, hs, hfilter⟩ := mem_filterMap.1 hr
  cases s with
  | insn i => simp at hfilter
  | phi r' =>
    simp only [ne_eq, ite_not, Option.ite_none_left_eq_some, Option.some.injEq] at hfilter
    rw [hfilter.2] at hs
    exact (h.users_iff v (.phi r)).1 hs

lemma dropTrivial_ensures (x : Variable) (fuel : Nat) :
    ∀ (p : Progress) (q : PhiId), p.Sound gaps → (¬∃ b y, p.IsGap gaps b y q) →
      Ensures (dropTrivial x fuel q) p fun v p' =>
        Settled p p' gaps gaps ∧ KeepsOlder q p p' ∧ v = p'.resolve (p.func.phi q).value := by
  induction fuel with
  | zero =>
    intro p q hs _
    exact .bind (.get (.pure ⟨Settled.refl hs, KeepsOlder.refl q p, rfl⟩))
  | succ fuel ih =>
    intro p q hs hfilled
    refine .bind (.get ?_)
    by_cases hremoved : (p.func.phi q).removed = true
    · simp only [hremoved, if_true]
      exact .pure ⟨Settled.refl hs, KeepsOlder.refl q p, rfl⟩
    have hlive : p.func.LivePhi q := by simpa using hremoved
    simp only [hlive, Bool.false_eq_true, if_false]
    cases htriv : (p.func.phi q).trivialOperand? with
    | none =>
      simp only
      split
      · exact .seq (Q := fun _ _ => False) (.unassigned x) fun _ _ h => h.elim
      · have hdef := (hs.flow.exact.definition_iff (p.func.phi q).value (.phi q)).2 ⟨hlive, rfl⟩
        refine .pure ⟨Settled.refl hs, KeepsOlder.refl q p, ?_⟩
        rw [resolve_of_defined hs (by rw [hdef]; rfl)]
    | some same =>
      have hm : Merges p gaps q same := ⟨hlive, hfilled, htriv⟩
      have hreads := fun r => reads_of_mem_dependentPhis hs.flow.exact
        (v := (p.func.phi q).value) (q := q) (r := r)
      refine .bind (.edit (hs.flow.exact.replaceTrivial_run hlive
        hm.same_ne.symm (hs.flow.same_lt htriv)) ?_)
      refine .bind (.modifying ?_)
      change Ensures _ (p.collapse q same) _
      -- the phis that are still to be looked at read the collapsed one
      refine .seq (.forM (I := fun rest p' => Settled p p' gaps gaps ∧
        KeepsOlder q p p' ∧ (∀ r ∈ rest, p.func.Reads (p.func.phi q).value (.phi r)) ∧
          p'.resolve same = p'.resolve (p.func.phi q).value)
        ⟨settled_collapse hs hm, keepsOlder_collapse hs hm, hreads, ?_⟩ ?_) ?_
      · have hsame := resolve_of_reads hs hm.same_reads
        rw [resolve_collapse hs hm, resolve_collapse hs hm, hsame,
          resolve_of_defined hs (by rw [hm.value_defined hs]; rfl), Function.redirect_old,
          Function.redirect_of_ne hm.same_ne]
      · rintro r rest p' ⟨hsettled, holder, hrest, hres⟩
        have hr := hrest r mem_cons_self
        have hfilled' : ¬∃ b y, p'.IsGap gaps b y r := by
          rintro ⟨b, y, hgap⟩
          have hnil := (hs.flow.waits r ⟨b, y, hsettled.isGap_iff.1 hgap⟩).2
          simp [Function.Reads, hnil] at hr
        refine Ensures.discard ((ih p' r hsettled.sound hfilled').mono ?_)
        rintro v p'' ⟨hsettled', holder', -⟩
        refine ⟨hsettled.trans hsettled', holder.of_reader holder' hlive hr,
          fun r' hr' => hrest r' (mem_cons_of_mem _ hr'), ?_⟩
        rw [← hsettled'.later.resolve, hres, hsettled'.later.resolve]
      · rintro _ p' ⟨hsettled, holder, -, hres⟩
        exact .bind (.get (.pure ⟨hsettled, holder, hres⟩))

lemma completePhi_ensures {operands : List ValueId} (hs : p.Sound (⟨b, x, q⟩ :: gaps))
    (hops : Fills p b x (operands.map p.resolve)) :
    Ensures (completePhi x q operands) p fun v p' =>
      Settled p p' (⟨b, x, q⟩ :: gaps) gaps ∧ KeepsOlder q p p' ∧
        v = p'.resolve (p.func.phi q).value := by
  refine .bind (.get ?_)
  refine .bind (.build ?_)
  refine .bind (.get ?_)
  have hfill := settled_fillPhi hs hops
  have hfilled : ¬∃ c y, (p.fillPhi q (operands.map p.resolve)).IsGap gaps c y q := by
    rintro ⟨c, y, hgap⟩
    exact not_isGap_tail hs c y (hfill.isGap_iff.1 hgap)
  refine (dropTrivial_ensures x _ _ q hfill.sound hfilled).mono ?_
  rintro v p' ⟨hsettled, holder, rfl⟩
  refine ⟨hfill.trans hsettled, (keepsOlder_fillPhi hs).trans holder, ?_⟩
  rw [phi_fillPhi hs, if_pos rfl]

/-! ## Reading -/

namespace Progress

variable {p' p'' : Progress} {gaps' : List Gap}

lemma fresh_self (hs : p.Sound gaps) : Fresh p.func.values.size p.func.phis.size p.func := by
  refine ⟨fun v s hv hr => ?_, fun q hq hle => ?_⟩
  · have := hs.flow.exact.lt_of_reads hr
    omega
  · rw [p.func.phi_of_size_le hle] at hq
    simp at hq

/-- A phi that is younger than all that was there gets its operands. -/
lemma Read.settle {g : Gap} (hs : p.Sound gaps) (h : Read p p' gaps (g :: gaps))
    (h' : Settled p' p'' (g :: gaps) gaps) (holder : KeepsOlder g.phi p' p'')
    (hnew : p.func.phis.size ≤ g.phi.index) : Read p p'' gaps gaps where
  later := h.later.trans h'.later
  frame := h.frame.trans h'.frame
  closed := h'.closed.trans h.closed
  holds b x v hv := by
    rw [← h'.later.resolve]
    exact h'.later.holds_of_held_eq h'.held (h.holds b x v hv)
  holds_new b x v hnone hv := by
    obtain ⟨w, hw, rfl⟩ := hv
    rw [h'.held] at hw
    obtain ⟨hstarts, hpasses⟩ := h.holds_new b x _ hnone ⟨w, hw, rfl⟩
    rw [← h'.later.resolve]
    exact ⟨h'.later.starts b x _ hstarts, fun hb hlen => h'.later.passes b x _ (hpasses hb hlen)⟩
  unheld b hroot x hnone := by rw [h'.held, h.unheld b hroot x hnone]
  kept v hlt hv := by
    have hkept := h.kept v hlt hv
    have hfresh := h.fresh _ _ le_rfl le_rfl (fresh_self hs)
    exact ((holder _ _ hfresh hnew).2 v hlt (by rwa [hkept])).trans hkept
  fresh n m hn hm hf := (holder n m (h.fresh n m hn hm hf) (hm.trans hnew)).1

def HoldAll (p : Progress) (x : Variable) (cs : List BlockId) (vs : List ValueId) : Prop :=
  List.Forall₂ (fun c v => p.Holds c x (p.resolve v)) cs vs

lemma HoldAll.read (h : p.HoldAll x cs vs) (hread : Read p p' gaps gaps') : p'.HoldAll x cs vs :=
  List.Forall₂.imp (fun c v hv => hread.later.resolve v ▸ hread.holds c x _ hv) h

lemma HoldAll.fills (h : p.HoldAll x (p.func.predecessors b) vs)
    (hdone : ∀ c ∈ p.func.predecessors b, c ∈ p.done) : Fills p b x (vs.map p.resolve) := by
  refine ⟨by rw [length_map, h.length_eq], fun j pred hj => ?_⟩
  refine ⟨hdone pred (mem_of_getElem? hj), ?_⟩
  obtain ⟨hlt, rfl⟩ := List.getElem?_eq_some_iff.1 hj
  have hlt' : j < vs.length := h.length_eq ▸ hlt
  refine ⟨_, h.get hlt hlt', ?_⟩
  rw [getElem?_map, getElem?_eq_getElem hlt']
  rfl

/-- Reading finds what the variable holds in each block. -/
def Finds (x : Variable) (read : BlockId → Lifting ValueId) : Prop :=
  ∀ (p : Progress) (gaps : List Gap) (b : BlockId), p.Sound gaps → b.index < p.func.blocks.size →
    Ensures (read b) p fun v p' => p'.Sound gaps ∧ Read p p' gaps gaps ∧ p'.Holds b x v

lemma Finds.mapM {read : BlockId → Lifting ValueId} (h : Finds x read) (hs : p.Sound gaps)
    (hcs : ∀ c ∈ cs, c.index < p.func.blocks.size) :
    Ensures (cs.mapM read) p fun vs p' =>
      p'.Sound gaps ∧ Read p p' gaps gaps ∧ p'.HoldAll x cs vs := by
  refine (Ensures.mapM (I := fun rest vs p' => p'.Sound gaps ∧ Read p p' gaps gaps ∧
    ∃ seen, cs = seen ++ rest ∧ p'.HoldAll x seen vs)
    ⟨hs, Read.refl hs, [], rfl, List.Forall₂.nil⟩ ?_).mono ?_
  · rintro c rest vs p' ⟨hs', hread, seen, hcs', hseen⟩
    have hc : c.index < p'.func.blocks.size := by
      rw [hread.later.size_blocks]
      exact hcs c (by simp [hcs'])
    refine (h p' gaps c hs' hc).mono ?_
    rintro v p'' ⟨hs'', hread', hv⟩
    refine ⟨hs'', hread.trans hread', seen ++ [c], by simp [hcs'], ?_⟩
    refine rel_append (hseen.read hread') (List.Forall₂.cons ?_ List.Forall₂.nil)
    rwa [hv.resolved hs'']
  · rintro vs p' ⟨hs', hread, seen, hcs', hseen⟩
    rw [append_nil] at hcs'
    exact ⟨hs', hread, hcs' ▸ hseen⟩

end Progress

lemma awaitPhi_ensures (hs : p.Sound gaps) (hb : p.func.HasBlock b)
    (hopen : b ∉ p.closed) (hnone : p.held.get? (b, x) = none) :
    Ensures (awaitPhi b x ty) p fun v p' =>
      p'.Sound gaps ∧ Read p p' gaps gaps ∧ p'.Usable b v ∧ p'.Starts gaps b x v ∧
        p'.held.get? (b, x) = none := by
  refine .bind (.build ?_)
  refine .bind (.modifying ?_)
  refine .bind (.get (.pure ?_))
  have hopened : (p.openPhi b ty).Sound (⟨b, x, ⟨p.func.phis.size⟩⟩ :: gaps) := sound_openPhi hs hb
  have hvalue : ((p.openPhi b ty).func.phi ⟨p.func.phis.size⟩).value = ⟨p.func.values.size⟩ := by
    rw [phi_openPhi_new]
  refine ⟨sound_await hopened hopen, (read_openPhi hs fun hroot => hopen hroot.1).trans (read_await hopened),
    ?_, ?_, hnone⟩
  · change (p.openPhi b ty).Usable b ((p.openPhi b ty).func.phi ⟨p.func.phis.size⟩).value
    rw [hvalue]
    exact usable_newPhi hs hb
  · refine .inl ⟨⟨p.func.phis.size⟩, ?_, rfl⟩
    exact isGap_await.2 (.inl mem_cons_self)

lemma mergePhi_ensures {read : BlockId → Lifting ValueId} (hread : Finds x read)
    (hs : p.Sound gaps) (hb : p.func.HasBlock b) (hclosed : b ∈ p.closed)
    (hnone : p.held.get? (b, x) = none) (hmany : 1 < (p.func.predecessors b).length) :
    Ensures (do
        let phi ← build (·.insertPhi b ty)
        modify fun p => p.hold b x (p.func.phi phi).value
        completePhi x phi (← (p.func.predecessors b).mapM read)) p fun v p' =>
      p'.Sound gaps ∧ Read p p' gaps gaps ∧ p'.Starts gaps b x v ∧ p'.Holds b x v := by
  refine .bind (.build ?_)
  refine .bind (.modifying ?_)
  set q : PhiId := ⟨p.func.phis.size⟩ with hq
  have hvalue : ((p.openPhi b ty).func.phi q).value = ⟨p.func.values.size⟩ := by
    rw [hq, phi_openPhi_new]
  change Ensures _ ((p.openPhi b ty).hold b x ((p.openPhi b ty).func.phi q).value) _
  rw [hvalue]
  have hopened : (p.openPhi b ty).Sound (⟨b, x, q⟩ :: gaps) := sound_openPhi hs hb
  have husable : (p.openPhi b ty).Usable b ⟨p.func.values.size⟩ := usable_newPhi hs hb
  have hres : (p.openPhi b ty).resolve ⟨p.func.values.size⟩ = ⟨p.func.values.size⟩ :=
    resolve_of_defined hopened husable.1
  have hgap : ∀ p' : Progress, p'.IsGap (⟨b, x, q⟩ :: gaps) b x q := fun _ => .inl mem_cons_self
  have hheld : ((p.openPhi b ty).hold b x ⟨p.func.values.size⟩).Sound (⟨b, x, q⟩ :: gaps) :=
    sound_hold hopened (by rwa [hres])
  have hto : Read p ((p.openPhi b ty).hold b x ⟨p.func.values.size⟩) gaps (⟨b, x, q⟩ :: gaps) := by
    have hroot : ¬p.IsRoot b := by
      rintro ⟨-, hroot⟩
      simp [hroot] at hmany
    refine (read_openPhi hs hroot).trans (read_hold hopened ?_ ?_ ?_ ?_)
    · rintro u ⟨w, hw, -⟩
      exact absurd (hw.symm.trans hnone) (by simp)
    · rw [hres]
      exact .inl ⟨q, hgap _, hvalue⟩
    · intro _ hlen
      rw [keeps_openPhi.preds] at hlen
      omega
    · rintro ⟨hclosed', hpreds⟩
      rw [keeps_openPhi.preds] at hpreds
      exact hroot ⟨hclosed', hpreds⟩
  have hholds : ((p.openPhi b ty).hold b x ⟨p.func.values.size⟩).Holds b x ⟨p.func.values.size⟩ :=
    holds_hold.2 (.inl ⟨rfl, rfl, hres⟩)
  have hpreds : ∀ c ∈ p.func.predecessors b,
      c.index < ((p.openPhi b ty).hold b x ⟨p.func.values.size⟩).func.blocks.size := by
    intro c hc
    rw [hto.later.size_blocks]
    exact hs.preds_lt b c hc
  refine .seq (hread.mapM hheld hpreds) ?_
  rintro vs p' ⟨hs', hread', hall⟩
  have hto' := hto.trans hread'
  -- the phi is still there, since reading keeps what was defined
  have hphi : (p'.func.phi q).value = ⟨p.func.values.size⟩ := by
    have hdef := (hopened.flow.exact.definition_iff ⟨p.func.values.size⟩ (.phi q)).2
      ⟨(hopened.flow.waits q ⟨b, x, hgap _⟩).1, hvalue⟩
    have hkept := hread'.kept ⟨p.func.values.size⟩ husable.lt husable.1
    exact ((hs'.flow.exact.definition_iff _ _).1 (hkept.trans hdef)).2
  have hpreds' := hto'.later.preds b
  have hfills : Fills p' b x (vs.map p'.resolve) := by
    refine HoldAll.fills (by rwa [hpreds']) fun c hc => ?_
    rw [hpreds'] at hc
    exact hto'.later.done c (hs.closed_done b hclosed c hc)
  refine (completePhi_ensures hs' hfills).mono ?_
  rintro v p'' ⟨hsettled, holder, rfl⟩
  rw [hphi]
  refine ⟨hsettled.sound, hto'.settle hs hsettled holder le_rfl, ?_, ?_⟩
  · exact hsettled.later.starts b x _ (.inl ⟨q, hgap _, hphi⟩)
  · rw [← hsettled.later.resolve]
    exact hsettled.later.holds_of_held_eq hsettled.held (hread'.holds b x _ hholds)

lemma passes_of_single (hs : p.Sound gaps) (hb : b.index < p.func.blocks.size)
    (hclosed : b ∈ p.closed) (hpreds : p.func.predecessors b = [c]) (hv : p.Holds c x v) :
    p.Passes b x v ∧ p.Usable b v := by
  have husable := hs.held_usable c x v hv
  have havail : ∀ d ∈ p.func.predecessors b, p.func.AvailEnd v d := by
    intro d hd
    rw [hpreds, mem_singleton] at hd
    rw [hd]
    exact husable.2
  have hne : p.func.predecessors b ≠ [] := by simp [hpreds]
  have hnot := definingBlock?_ne_of_preds hs hb hne havail
  refine ⟨fun d hd => ⟨hs.closed_done b hclosed d hd, ?_, fun hphi => hnot hphi.definingBlock?⟩,
    husable.1, ?_⟩
  · rw [hpreds, mem_singleton] at hd
    rwa [hd]
  · refine (Function.availStart_of_preds ?_ havail).toEnd
    rintro rfl
    exact hne hs.flow.entry_preds

theorem readVariable_ensures (x : Variable) (ty : ValueType) (fuel : Nat) :
    Finds x (readVariable x ty fuel) := by
  induction fuel with
  | zero => exact fun _ _ _ _ _ => .unassigned x
  | succ fuel ih =>
    intro p gaps b hs hb
    refine .bind (.get ?_)
    cases hheld : p.held.get? (b, x) with
    | some v => exact .pure ⟨hs, Read.refl hs, v, hheld, rfl⟩
    | none =>
      -- whatever way the value is found, it is recorded last
      have hrecord : ∀ (m : Lifting ValueId), (Ensures m p fun v p' => p'.Sound gaps ∧
          Read p p' gaps gaps ∧ p'.Usable b v ∧ p'.Starts gaps b x v ∧ p'.Agrees b x v ∧
            (b ∈ p'.closed → (p'.func.predecessors b).length = 1 → p'.Passes b x v) ∧
            ¬p'.IsRoot b) →
          Ensures (m >>= fun v => do modify fun p => p.hold b x v; return v) p fun v p' =>
            p'.Sound gaps ∧ Read p p' gaps gaps ∧ p'.Holds b x v := by
        intro m hm
        refine .seq hm ?_
        rintro v p' ⟨hs', hread, husable, hstarts, hagrees, hpasses, hroot⟩
        have hres := resolve_of_defined hs' husable.1
        refine .bind (.modifying (.pure ?_))
        refine ⟨sound_hold hs' (by rwa [hres]), hread.trans (read_hold hs' hagrees ?_ ?_ hroot),
          holds_hold.2 (.inl ⟨rfl, rfl, hres⟩)⟩
        · rwa [hres]
        · rwa [hres]
      by_cases hopen : b ∉ p.closed
      · rw [if_pos hopen]
        refine hrecord _ ((awaitPhi_ensures hs hb hopen hheld).mono ?_)
        rintro v p' ⟨hs', hread, husable, hstarts, hnone⟩
        refine ⟨hs', hread, husable, hstarts, ?_, fun hc => absurd (hread.closed ▸ hc) hopen,
          fun hroot => hopen (hread.closed ▸ hroot.1)⟩
        rintro u ⟨w, hw, -⟩
        exact absurd (hw.symm.trans hnone) (by simp)
      · rw [if_neg hopen]
        have hclosed : b ∈ p.closed := not_not.1 hopen
        match hpreds : p.func.predecessors b with
        | [] => exact .seq (Q := fun _ _ => False) (.unassigned x) fun _ _ h => h.elim
        | [c] =>
          have hc : c.index < p.func.blocks.size := hs.preds_lt b c (by simp [hpreds])
          refine hrecord _ ((ih p gaps c hs hc).mono ?_)
          rintro v p' ⟨hs', hread, hv⟩
          have hpreds' : p'.func.predecessors b = [c] := (hread.later.preds b).trans hpreds
          obtain ⟨hpasses, husable⟩ := passes_of_single hs'
            (hread.later.size_blocks ▸ hb) (hread.closed ▸ hclosed) hpreds' hv
          refine ⟨hs', hread, husable, .inr (.inr hpasses), fun u hu => ?_,
            fun _ _ => hpasses, fun hroot => by simp [IsRoot, hpreds'] at hroot⟩
          -- a search that came back here has recorded what the predecessor holds
          have hu' := (hread.holds_new b x u hheld hu).2 hclosed (by simp [hpreds])
          rw [hv.resolved hs']
          exact (hu' c (by simp [hpreds'])).2.1.inj hv
        | c :: d :: rest =>
          have hmany : 1 < (p.func.predecessors b).length := by simp [hpreds]
          have hmerge := @mergePhi_ensures p b x gaps ty _ ih hs hb hclosed hheld hmany
          rw [hpreds] at hmerge
          have hend := hrecord _ (hmerge.mono ?_)
          · simpa only [bind_assoc] using hend
          rintro v p' ⟨hs', hread, hstarts, hv⟩
          refine ⟨hs', hread, hs'.held_usable b x v hv, hstarts, fun u hu => ?_, ?_, ?_⟩
          · rw [hv.resolved hs']
            exact hu.inj hv
          · intro _ hlen
            rw [hread.later.preds] at hlen
            omega
          · rintro ⟨-, hroot⟩
            rw [hread.later.preds, hpreds] at hroot
            simp at hroot

lemma readFrom_ensures (x : Variable) (ty : ValueType) : Finds x fun b => readFrom b x ty := by
  intro p gaps b hs hb
  exact .bind (.get (readVariable_ensures x ty _ p gaps b hs hb))

/-! ## Closing blocks -/

namespace Progress

def waitingGaps (b : BlockId) (ws : List (Variable × PhiId)) : List Gap :=
  ws.map fun w => ⟨b, w.1, w.2⟩

/-- A block is closed; the phis that waited in it have to get their operands. -/
def close (p : Progress) (b : BlockId) : Progress :=
  { p with closed := b :: p.closed, waiting := p.waiting.erase b }

lemma waitingAt_close (c : BlockId) :
    (p.close b).waitingAt c = if b = c then [] else p.waitingAt c := by
  rw [waitingAt, close, Assoc.get?_erase]
  split <;> rfl

lemma isGap_close {y : Variable} :
    (p.close b).IsGap (waitingGaps b (p.waitingAt b)) c y q ↔ p.IsGap [] c y q := by
  rw [IsGap, IsGap, waitingAt_close]
  by_cases hbc : b = c
  · subst hbc
    simp [waitingGaps]
  · simp [waitingGaps, hbc]

lemma sound_close (hs : p.Sound []) (hdone : ∀ c ∈ p.func.predecessors b, c ∈ p.done) :
    (p.close b).Sound (waitingGaps b (p.waitingAt b)) := by
  have hflow : (fun r => ∃ c y, (p.close b).IsGap (waitingGaps b (p.waitingAt b)) c y r) =
      fun r => ∃ c y, p.IsGap [] c y r := by
    funext r
    simp only [isGap_close]
  have hphis : (waitingGaps b (p.waitingAt b)).map Gap.phi = (p.waitingAt b).map Prod.snd := by
    rw [waitingGaps, map_map]
    rfl
  refine ⟨by rw [hflow]; exact hs.flow, ?_, by rw [hphis]; exact hs.waiting_nodup b, ?_, ?_,
    hs.live, hs.reach, hs.preds_lt, hs.grounded, hs.replaced_undefined, hs.replaced_lt,
    hs.held_usable, ?_, ?_⟩
  · intro c y r hr
    exact hs.gap_block c y r (isGap_close.1 hr)
  · intro c
    rw [waitingAt_close]
    split
    · exact nodup_nil
    · exact hs.waiting_nodup c
  · intro g hg c y hmem
    obtain ⟨⟨x, q⟩, hw, rfl⟩ := mem_map.1 hg
    rw [waitingAt_close] at hmem
    split at hmem
    · simp at hmem
    · next hbc =>
        exact hbc ((hs.gap_block b x q (.inr hw)).symm.trans (hs.gap_block c y q (.inr hmem)))
  · intro c hc
    rw [waitingAt_close]
    split
    · rfl
    · next hbc =>
        exact hs.waiting_open c ((mem_cons.1 hc).resolve_left (Ne.symm hbc))
  · intro c hc d hd
    rcases mem_cons.1 hc with rfl | hc
    · exact hdone d hd
    · exact hs.closed_done c hc d hd

lemma later_close (hs : p.Sound []) : Later p (p.close b) [] (waitingGaps b (p.waitingAt b)) := by
  have hkeeps : Keeps p (p.close b) :=
    .of_func rfl rfl rfl (fun _ h => h) fun _ h => mem_cons_of_mem _ h
  exact hkeeps.later hs (fun _ _ h => h) fun _ _ _ =>
    hkeeps.starts hs (fun _ _ _ => isGap_close.2) fun _ _ => rfl

def mark (p : Progress) (b : BlockId) : Progress :=
  { p with done := b :: p.done }

lemma sound_mark (hs : p.Sound []) : (p.mark b).Sound [] :=
  { hs with closed_done := fun c hc d hd => mem_cons_of_mem _ (hs.closed_done c hc d hd) }

lemma later_mark (hs : p.Sound []) : Later p (p.mark b) [] [] := by
  have hkeeps : Keeps p (p.mark b) :=
    .of_func rfl rfl rfl (fun _ h => mem_cons_of_mem _ h) fun _ h => h
  exact hkeeps.later hs (fun _ _ h => h) fun _ _ _ =>
    hkeeps.starts hs (fun _ _ _ h => h) fun _ _ => rfl

end Progress

lemma completeWaiting_ensures (hs : p.Sound (⟨b, x, q⟩ :: gaps))
    (hp : p.Honest (⟨b, x, q⟩ :: gaps)) (hclosed : b ∈ p.closed) :
    Ensures (completeWaiting b x q) p fun _ p' => p'.Sound gaps ∧ p'.Honest gaps ∧
      Later p p' (⟨b, x, q⟩ :: gaps) gaps ∧ Frame p p' ∧ p'.closed = p.closed := by
  refine .bind (.get ?_)
  refine .seq ((readFrom_ensures x _).mapM hs (hs.preds_lt b)) ?_
  rintro vs p' ⟨hs', hread, hall⟩
  have hpreds := hread.later.preds b
  have hfills : Fills p' b x (vs.map p'.resolve) :=
    HoldAll.fills (by rwa [hpreds]) (hs'.closed_done b (by rwa [hread.closed]))
  refine Ensures.discard ((completePhi_ensures hs' hfills).mono ?_)
  rintro v p'' ⟨hsettled, -, -⟩
  exact ⟨hsettled.sound, hsettled.later.honest_of_held_eq hsettled.held (hread.honest hp),
    hread.later.trans hsettled.later, hread.frame.trans hsettled.frame,
    hsettled.closed.trans hread.closed⟩

theorem closeBlock_ensures (hs : p.Sound []) (hp : p.Honest [])
    (hdone : ∀ c ∈ p.func.predecessors b, c ∈ p.done) :
    Ensures (closeBlock b) p fun _ p' =>
      p'.Sound [] ∧ p'.Honest [] ∧ Later p p' [] [] ∧ Frame p p' ∧ p'.closed = b :: p.closed := by
  refine .bind (.get ?_)
  refine .bind (.modifying ?_)
  refine .forM (I := fun rest p' => p'.Sound (waitingGaps b rest) ∧
    p'.Honest (waitingGaps b rest) ∧ Later p p' [] (waitingGaps b rest) ∧ Frame p p' ∧
      p'.closed = b :: p.closed)
    ⟨sound_close hs hdone, (later_close hs).honest_of_held_eq rfl hp, later_close hs,
      ⟨rfl, rfl, rfl, rfl, rfl, rfl, rfl, fun _ => rfl⟩, rfl⟩ ?_
  rintro ⟨x, q⟩ rest p' ⟨hs', hp', hlater, hframe, hclosed⟩
  refine (completeWaiting_ensures hs' hp' (by simp [hclosed])).mono ?_
  rintro _ p'' ⟨hs'', hp'', hlater', hframe', hclosed'⟩
  exact ⟨hs'', hp'', hlater.trans hlater', hframe.trans hframe', hclosed'.trans hclosed⟩

theorem finishLifted_ensures (hs : p.Sound []) (hp : (p.mark b).Honest []) :
    Ensures (finishLifted b) p fun _ p' =>
      p'.Sound [] ∧ p'.Honest [] ∧ Later (p.mark b) p' [] [] ∧ Frame (p.mark b) p' ∧
        ∀ c, c ∈ p'.closed ↔ c ∈ p.closed ∨ c ∈ p.func.successors b ∧
          ∀ d ∈ p.func.predecessors c, d ∈ b :: p.done := by
  refine .bind (.modifying ?_)
  refine Ensures.bind (Ensures.get ?_)
  refine (Ensures.forM (I := fun rest p' =>
    p'.Sound [] ∧ p'.Honest [] ∧ Later (p.mark b) p' [] [] ∧ Frame (p.mark b) p' ∧
      ∃ seen, dropRepeats (p.func.successors b) = seen ++ rest ∧
        ∀ c, c ∈ p'.closed ↔ c ∈ p.closed ∨ c ∈ seen ∧ ∀ d ∈ p.func.predecessors c, d ∈ b :: p.done)
    ⟨sound_mark hs, hp, Later.refl (sound_mark hs), Frame.refl _, [], rfl, fun c => by simp [mark]⟩ ?_).mono ?_
  · rintro c rest p' ⟨hs', hp', hlater, hframe, seen, hseen, hclosed⟩
    refine Ensures.bind (Ensures.get ?_)
    have hpreds : p'.func.predecessors c = p.func.predecessors c := hlater.preds c
    have hdone : p'.done = b :: p.done := hframe.done
    have hnext : dropRepeats (p.func.successors b) = (seen ++ [c]) ++ rest := by simp [hseen]
    split
    · next hcond =>
        have hall : ∀ d ∈ p.func.predecessors c, d ∈ b :: p.done := by
          simpa [hpreds, hdone] using hcond.2
        refine (closeBlock_ensures hs' hp' (by rwa [hpreds, hdone])).mono ?_
        rintro _ p'' ⟨hs'', hp'', hlater', hframe', hclosed'⟩
        refine ⟨hs'', hp'', hlater.trans hlater', hframe.trans hframe', seen ++ [c], hnext,
          fun e => ?_⟩
        rw [hclosed', mem_cons, hclosed e, mem_append, mem_singleton]
        constructor
        · rintro (rfl | h | h)
          · exact .inr ⟨.inr rfl, hall⟩
          · exact .inl h
          · exact .inr ⟨.inl h.1, h.2⟩
        · rintro (h | ⟨h | h, hd⟩)
          · exact .inr (.inl h)
          · exact .inr (.inr ⟨h, hd⟩)
          · exact .inl h
    · next hcond =>
        refine .pure ⟨hs', hp', hlater, hframe, seen ++ [c], hnext, fun e => ?_⟩
        rw [hclosed e, mem_append, mem_singleton]
        constructor
        · rintro (h | h)
          · exact .inl h
          · exact .inr ⟨.inl h.1, h.2⟩
        · rintro (h | ⟨h | rfl, hd⟩)
          · exact .inl h
          · exact .inr ⟨h, hd⟩
          · -- it was closed before, since nothing else keeps it open
            have hin : e ∈ p'.closed := by
              by_contra hnot
              refine hcond ⟨hnot, ?_⟩
              simpa [hpreds, hdone] using hd
            exact (hclosed e).1 hin
  · rintro _ p' ⟨hs', hp', hlater, hframe, seen, hseen, hclosed⟩
    rw [append_nil] at hseen
    refine ⟨hs', hp', hlater, hframe, fun c => ?_⟩
    rw [hclosed c, ← hseen, mem_dropRepeats]

end Dissolve.Lift
