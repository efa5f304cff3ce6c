import Dissolve.Proofs.Lift.Outcome

/-!
# Proofs.Lift.Courses — lifted blocks seen from the end

While a block is lifted, values are still replaced and variables of its start are still looked up.
`Course s layout p k b r S stack before stop final` says what the block of range `k` is seen from a
stage `p` at which all ranges are lifted: at offset `o` the simulated stack is `stack o` and the
instructions `before o` stand for what comes before `o`; the operations are those of the stack machine
on values as they are resolved at `p`, and `S` gives the values that the block starts with.

Main statement: every lifted range has a course (`Lifted.course`).
-/

namespace Dissolve

open Ssa (Function Op)

variable {D : Type} {first last q : Progress} {u w : ValueId} {x : Variable} {i o : Nat}
  {S : Variable → Option ValueId} {env : ValueId → D} {start : Variable → D}

namespace Lift

open Code (Instruction)
open Progress
open Semantics (assign)

/-- The operation of an instruction stands behind the others, with its operands resolved. -/
def Issues (p : Progress) (before after : List InsnId) (node : Option (Op × Option ValueId)) : Prop :=
  match node with
  | none => after = before
  | some (op, dest) => ∃ i, after = before ++ [i] ∧
      (p.func.insn i).op = op.mapOperands p.resolve ∧ (p.func.insn i).dest = dest ∧
      op.isTerminator = false

/-- A new result does not touch what the block starts with. -/
def Spares (R : ValueId → ValueId) (S : Variable → Option ValueId)
    (node : Option (Op × Option ValueId)) : Prop :=
  ∀ op dest, node = some (op, dest) → ∀ (D : Type) (start : Variable → D) (env : ValueId → D) (d : D),
    Agree R S start env → Agree R S start (assign env dest d)

/-- What the block of range `k` is, seen from stage `p`. -/
structure Course (s : Subject) (layout : Layout) (p : Progress) (k : Nat) (b : BlockId) (r : Range)
    (S : Variable → Option ValueId) (stack : Nat → OperandStack) (before : Nat → List InsnId)
    (stop : Nat) (final : OperandStack) : Prop where
  range : layout.range? k = some r
  fallsOff : r.fallsOff = false
  start_le : r.start ≤ stop
  stop_eq : r.stop = if (Layout.lastInsn s.body.instructions r).endsBlock then stop + 1 else stop
  step : ∀ o, r.start ≤ o → o < stop → ∃ node, Issues p (before o) (before (o + 1)) node ∧
    Mimics (insnAt s.body.instructions o) (stack o) (stack (o + 1)) p.resolve S node ∧
    Spares p.resolve S node
  ending : ∃ i op, (p.func.block b).insns = before stop ++ [i] ∧
    (p.func.insn i).op = op.mapOperands p.resolve ∧ op.isTerminator = true ∧
    p.BlocksOf (layout.normal k) op.targets ∧ Strict s (stack stop) op ∧
    Finishes (if (Layout.lastInsn s.body.instructions r).endsBlock then
      Layout.lastInsn s.body.instructions r else .goto default) (stack stop) final p.resolve S op
  starts : ∀ x w, S x = some w → p.Starts [] b x (p.resolve w)
  cells : ∀ (D : Type) (start : Variable → D) (env : ValueId → D), Agree p.resolve S start env →
    ∀ i u, p.Holds b (.slot i) u → final.cell p.resolve start env i = env u
  places : ∀ (D : Type) (start : Variable → D) (env : ValueId → D), Agree p.resolve S start env →
    ∀ i slot u, final.bottomUp[i]? = some slot → p.Holds b (.stackPlace i) u →
      final.content p.resolve start env slot.source = env u
  fits : ∀ o, r.start ≤ o → o ≤ stop → (stack o).words ≤ s.body.maxStack

variable {s : Subject} {layout : Layout} {k : Nat} {p : Progress} {b : BlockId} {r : Range}

lemma Course.before_split {stack : Nat → OperandStack} {before : Nat → List InsnId} {stop : Nat}
    {final : OperandStack} (h : Course s layout p k b r S stack before stop final)
    (ho : r.start ≤ o) (hstop : o ≤ stop) : before o <+: (p.func.block b).insns := by
  obtain ⟨i, -, hinsns, -⟩ := h.ending
  induction hstop using Nat.decreasingInduction with
  | self => exact ⟨[i], hinsns.symm⟩
  | of_succ o hlt ih =>
    obtain ⟨node, hissues, -⟩ := h.step o ho hlt
    refine List.IsPrefix.trans ?_ (ih (by omega))
    cases node with
    | none => exact (show before (o + 1) = before o from hissues) ▸ List.prefix_refl _
    | some node =>
      obtain ⟨j, hj, -⟩ := hissues
      exact ⟨[j], hj.symm⟩

/-! ## Stages -/

lemma Chain.stages {o' : Nat} (h : Chain s b first o last o') :
    o ≤ o' ∧ ∃ stage : Nat → Progress, stage o = first ∧ stage o' = last ∧
      (∀ i, o ≤ i → i < o' → Stepped s (stage i) (stage (i + 1)) b (insnAt s.body.instructions i)) ∧
      ∀ i, o ≤ i → i ≤ o' →
        InBlock (stage i) b ∧ Within first (stage i) b ∧ Within (stage i) last b := by
  induction h with
  | refl h =>
    refine ⟨le_rfl, fun _ => first, rfl, rfl, fun i hi hlt => by omega, fun i _ _ => ?_⟩
    exact ⟨h, Within.refl h.sound b, Within.refl h.sound b⟩
  | @step p1 p2 m before last ih =>
    obtain ⟨hle, stage, hfirst, hlast, hsteps, hstages⟩ := ih
    refine ⟨by omega, fun i => if i ≤ m then stage i else p2, ?_, ?_, fun i hi hlt => ?_,
      fun i hi hle' => ?_⟩
    · simp only [hle, if_true, hfirst]
    · simp
    · dsimp only
      rw [if_pos (by omega : i ≤ m)]
      by_cases him : i = m
      · subst him
        simpa [hlast] using last
      · rw [if_pos (by omega)]
        exact hsteps i hi (by omega)
    · dsimp only
      split
      · next him =>
          obtain ⟨hin, hfrom, hto⟩ := hstages i hi him
          exact ⟨hin, hfrom, hto.trans last.within⟩
      · exact ⟨last.inBlock, before.within.trans last.within, Within.refl last.inBlock.sound b⟩

/-! ## What a block starts with -/

/-- The values that a block starts with: those recorded before its end is, and those looked up
later. -/
def startValues (p1 p2 p : Progress) (b : BlockId) (x : Variable) : Option ValueId :=
  match p1.held.get? (b, x), p2.held.get? (b, x) with
  | some w, _ => some w
  | none, some _ => none
  | none, none => p.held.get? (b, x)

section Recorded

variable {p1 p2 : Progress} (hrec : Recorded last p1 p2 b) (hlater1 : Later p1 p2 [] [])
  (hlater2 : Later p2 p [] [])

include hrec hlater1 hlater2

lemma starts_of_startValues (hdone : b ∈ p2.done)
    (hw : startValues p1 p2 p b x = some w) : p.Starts [] b x (p.resolve w) := by
  have hlater := hlater1.trans hlater2
  unfold startValues at hw
  split at hw
  · next w' hheld =>
      obtain rfl := Option.some.inj hw
      have hstarts := hlater.starts b x _
        (hrec.inBlock.honest b x _ hrec.inBlock.unlifted ⟨w', hheld, rfl⟩)
      rwa [hlater.resolve] at hstarts
  · cases hw
  · next hnone => exact hlater2.holds_new b hdone x _ hnone ⟨w, hw, rfl⟩

omit hrec in
lemma foresees_startValues : Foresees p1 b p.resolve (startValues p1 p2 p b) := by
  have hlater := hlater1.trans hlater2
  refine ⟨hlater.resolve, ?_⟩
  rintro x v ⟨w, hw, rfl⟩
  exact ⟨w, by simp [startValues, hw], (hlater.resolve w).symm⟩

/-- Nothing leads to the block: it starts with what was recorded from the first. -/
lemma startValues_of_isRoot (hdone : b ∈ p2.done) {q : Progress} (hwithin : Within q last b)
    (hroot : q.IsRoot b) {x : Variable} {w : ValueId} (hw : startValues p1 p2 p b x = some w) :
    ∃ v, q.held.get? (b, x) = some v ∧ p.resolve w = p.resolve v := by
  have hwithin1 := hwithin.trans (hrec.read.within b)
  have hlater := hlater1.trans hlater2
  unfold startValues at hw
  split at hw
  · next w' hheld =>
      obtain rfl := Option.some.inj hw
      cases hq : q.held.get? (b, x) with
      | none =>
        rw [hwithin1.unheld b hroot x hq] at hheld
        cases hheld
      | some v =>
        have hv := hwithin1.holds b x _ ⟨v, hq, rfl⟩
        rw [hwithin1.later.resolve] at hv
        have heq : p1.resolve w' = p1.resolve v := Holds.inj ⟨w', hheld, rfl⟩ hv
        exact ⟨v, rfl, by rw [← hlater.resolve w', heq, hlater.resolve]⟩
  · cases hw
  · next hnone =>
      have hroot2 := hlater1.isRoot (hwithin1.later.isRoot hroot)
      rw [hlater2.unheld b hdone hroot2 x hnone] at hw
      cases hw

section

variable (hdone : b ∈ p2.done) (hag : Agree p.resolve (startValues p1 p2 p b) start env)
include hdone hag

lemma cell_of_recorded (hu : p.Holds b (.slot i) u) :
    last.stack.cell p.resolve start env i = env u := by
  have hheld : ∀ w, p2.held.get? (b, .slot i) = some w → p.resolve w = u := by
    intro w hw
    have hw' := hlater2.holds b hdone _ _ ⟨w, hw, rfl⟩
    rw [hlater2.resolve] at hw'
    exact hw'.inj hu
  unfold OperandStack.cell
  cases hlocal : last.stack.local? i with
  | some entry =>
    obtain ⟨w, ty⟩ := entry
    rw [← hheld _ (hrec.written i w ty hlocal), (hlater1.trans hlater2).resolve]
  | none =>
    have hkept := hrec.kept i hlocal
    cases hheld1 : p1.held.get? (b, .slot i) with
    | some w =>
      rw [hag (.slot i) w (by simp [startValues, hheld1]), hheld w (hkept.trans hheld1)]
    | none =>
      obtain ⟨w, hw, rfl⟩ := hu
      exact hag (.slot i) w (by simp [startValues, hheld1, hkept.trans hheld1, hw])

lemma content_of_recorded {slot : Slot} (hslot : last.stack.bottomUp[i]? = some slot)
    (hu : p.Holds b (.stackPlace i) u) :
    last.stack.content p.resolve start env slot.source = env u := by
  obtain ⟨v, -, hstands, hheld⟩ := hrec.stack i slot hslot
  have hcontent := hstands.content (foresees_startValues hlater1 hlater2) hag
  rw [hrec.read.frame.stack] at hcontent
  have hv := hlater2.holds b hdone _ _ ⟨v, hheld, rfl⟩
  rw [hlater2.resolve] at hv
  rw [hcontent, hv.inj hu]

end

end Recorded

lemma apart_of_grows (hs : p.Sound []) (hgap : ∀ c x q, ¬p.IsGap [] c x q)
    {q' : Progress} {node : Option (Op × Option ValueId)}
    (hq : InBlock q b) (hwithin : Within q q' b) (hlater : Later q' p [] [])
    (hgrows : Grows q q' b node) (hlive : q'.Sound [])
    (hstarts : ∀ x w, S x = some w → p.Starts [] b x (p.resolve w))
    (hroot : p.func.predecessors b = [] → ∀ x w, S x = some w →
      ∃ v, q.Usable b v ∧ p.resolve w = p.resolve v) : Apart q b p.resolve S node := by
  rintro op d rfl
  obtain ⟨i, hinsns, -, hdest, -⟩ := hgrows
  have hf := hs.flow.exact
  have hmem : i ∈ (q'.func.block b).insns := by simp [hinsns]
  have hgrown := hlater.insns b
  have hdest' : (p.func.insn i).dest = some d := by
    rwa [hlater.insn i (q'.func.lt_insns_of_live ((hlive.flow.exact.insns_iff b i).1 hmem).1)]
  have hblock : (p.func.insn i).block = b := ((hf.insns_iff b i).1 (hgrown.subset hmem)).2
  have hnew : i ∉ (q.func.block b).insns := by
    have hnodup := (hgrown.sublist.nodup (hf.insns_nodup b))
    rw [hinsns, List.nodup_append] at hnodup
    exact fun hi => hnodup.2.2 i hi i (by simp) rfl
  have hdef := (hf.definition_iff d (.insn i)).2 hdest'
  have hall := hwithin.later.trans hlater
  have hlt : b.index < p.func.blocks.size := hall.size_blocks ▸ hq.lt
  have hnot := hf.not_availBefore hdest' hblock hnew (hs.reach b hlt)
  have hold : ∀ w, q.Usable b w → p.resolve w ≠ d := by
    rintro w hw rfl
    exact hnot (hall.before w b _ hw.1 (hw.2.before hq.sound.flow.exact hw.1))
  refine ⟨resolve_of_defined hs (by rw [hdef]; rfl), hold, fun x w hw heq => ?_⟩
  rcases hstarts x w hw with ⟨r, hr, -⟩ | ⟨r, hr, -⟩ | hpasses
  · exact hgap b x r hr
  · rw [heq, hdef] at hr
    cases hr
  · by_cases hpreds : p.func.predecessors b = []
    · obtain ⟨v, hv, hwv⟩ := hroot hpreds x w hw
      exact hold v hv (hwv.symm.trans heq)
    · refine definingBlock?_ne_of_preds hs hlt hpreds (v := d) (fun c hc => ?_)
        (by rw [hf.definingBlock?_of_dest hdest', hblock])
      exact (hs.held_usable c x d (heq ▸ (hpasses c hc).2.1)).2

/-! ## Lifted ranges -/

/-- A lifted range has a course. The block that nothing leads to starts with what was recorded before
its range. -/
theorem Lifted.course (h : Lifted s layout k p q first last b)
    (hlays : layout.Lays s.body.instructions) (hview : s.view = .identity) (hs : p.Sound [])
    (hgap : ∀ c x q, ¬p.IsGap [] c x q) :
    ∃ r S stack before stop, Course s layout p k b r S stack before stop last.stack ∧
      stack r.start = first.stack ∧
      (layout.isHandler k = false → before r.start = (q.func.block b).insns) ∧
      (p.func.predecessors b = [] → ∀ x w, S x = some w →
        ∃ v, q.held.get? (b, x) = some v ∧ p.resolve w = p.resolve v) := by
  obtain ⟨r, q', hr, ⟨hoff, hentered, ⟨m, hm⟩, hleaves⟩, hq', hinsns⟩ := h.crossed
  obtain ⟨p1, p2, hrec, hdone, hlater1, hlater2⟩ := hleaves.records
  replace hlater2 := hlater2.trans hq'
  have hlater : Later last p [] [] := hleaves.later.trans hq'
  -- the last instruction, or the jump that is put behind it
  obtain ⟨stop, hstop, hchain, hended⟩ : ∃ stop,
      r.stop = (if (Layout.lastInsn s.body.instructions r).endsBlock then stop + 1 else stop) ∧
      Chain s b first r.start m stop ∧
      Ended s layout k m last b (if (Layout.lastInsn s.body.instructions r).endsBlock then
        Layout.lastInsn s.body.instructions r else .goto default) := by
    have hlt := (hlays.bounds hr).1
    cases hends : (Layout.lastInsn s.body.instructions r).endsBlock with
    | true =>
      rw [hends, if_pos rfl] at hm
      exact ⟨r.stop - 1, by rw [if_pos rfl]; omega, hm⟩
    | false =>
      rw [hends, if_neg Bool.false_ne_true] at hm
      exact ⟨r.stop, rfl, hm.1, hm.2 default⟩
  have hwithin := hended.within
  obtain ⟨hle, stage, hfirst, hlast, hsteps, hstages⟩ := hchain.stages
  have hlaterStage : ∀ o, r.start ≤ o → o ≤ stop → Later (stage o) p [] [] := fun o ho hos =>
    ((hstages o ho hos).2.2.trans hwithin).later.trans hlater
  have hwithinStage : ∀ o, r.start ≤ o → o ≤ stop →
      Within (q.setting q.stack q.shapes b r.start) (stage o) b := fun o ho hos =>
    hentered.within.trans (hstages o ho hos).2.1
  have hpreds :=
    (((hwithinStage r.start le_rfl hle).later.trans (hlaterStage r.start le_rfl hle)).preds b).symm
  have hclosed : p.func.predecessors b = [] → b ∈ q.closed := by
    intro hnone
    obtain ⟨t, ht⟩ := hs.reach b (hlater.size_blocks ▸ hended.inBlock.lt)
    cases ht with
    | start => exact h.rooted
    | step _ hedge => simp [hnone] at hedge
  have hstarts : ∀ x w, startValues p1 p2 p b x = some w → p.Starts [] b x (p.resolve w) :=
    fun x w => starts_of_startValues hrec hlater1 hlater2 hdone
  have hroot : p.func.predecessors b = [] → ∀ x w, startValues p1 p2 p b x = some w →
      ∃ v, q.held.get? (b, x) = some v ∧ p.resolve w = p.resolve v := fun hnone x w hw =>
    startValues_of_isRoot hrec hlater1 hlater2 hdone
      ((hentered.within.trans hchain.within).trans hwithin)
      ⟨hclosed hnone, hpreds.trans hnone⟩ hw
  have hforesees := (foresees_startValues hlater1 hlater2).of_within (hrec.read.within b)
  refine ⟨r, startValues p1 p2 p b, fun o => (stage o).stack,
    fun o => ((stage o).func.block b).insns, stop,
    ⟨hr, hoff, hle, hstop, ?_, ?_, hstarts, ?_, ?_, fun o ho hos => ?_⟩,
    congrArg Progress.stack hfirst, fun hplain => ?_, hroot⟩
  · intro o ho hos
    have hstep := hsteps o ho hos
    obtain ⟨node, hgrows, hmimics⟩ := hstep.emits
    have hlater' := hlaterStage (o + 1) (by omega) hos
    have hap : Apart (stage o) b p.resolve (startValues p1 p2 p b) node := by
      refine apart_of_grows hs hgap (hstages o ho (by omega)).1 hstep.within hlater' hgrows
        hstep.inBlock.sound hstarts fun hnone x w hw => ?_
      obtain ⟨v, hv, heq⟩ := hroot hnone x w hw
      have hholds := (hwithinStage o ho (by omega)).holds b x _ ⟨v, hv, rfl⟩
      refine ⟨_, (hstages o ho (by omega)).1.sound.held_usable b x _ hholds, ?_⟩
      rw [heq, (hwithinStage o ho (by omega)).later.resolve, (hlaterStage o ho (by omega)).resolve]
    refine ⟨node, ?_, hmimics hview _ _ (hforesees.of_within
      ((hstages (o + 1) (by omega) hos).2.2.trans hwithin)) hap, ?_⟩
    · cases node with
      | none => exact hgrows
      | some node =>
        obtain ⟨i, hi, hop, hdest, hterm⟩ := hgrows
        have hlive := (hstep.inBlock.sound.flow.exact.of_split hi).1
        have hinsn := hlater'.insn i ((stage (o + 1)).func.lt_insns_of_live hlive)
        exact ⟨i, hi, by rw [hinsn, hop], by rw [hinsn, hdest], hterm⟩
    · rintro op dest rfl D start env d hag
      exact agree_assign hap hag d
  · have hinsns' := hinsns.trans (hleaves.insns b)
    have hblocks : ∀ {bs}, m.BlocksOf (layout.normal k) bs → p.BlocksOf (layout.normal k) bs := by
      intro bs hbs
      rwa [BlocksOf, h.blockOf, ← show m.blockOf = q.blockOf from
        hchain.within.blockOf.trans hentered.within.blockOf]
    obtain ⟨hlive, -, i, op, hi, hop, -, hterm, htargets, hstrict, hfinishes⟩ := hended
    have hmem := (hlive.sound.flow.exact.of_split hi).1
    have hinsn := hlater.insn i (last.func.lt_insns_of_live hmem)
    exact ⟨i, op, by rw [hinsns', hi, hlast], by rw [hinsn, hop], hterm, hblocks htargets,
      by rw [hlast]; exact hstrict, by rw [hlast]; exact hfinishes hview _ _ hforesees⟩
  · intro D start env hag i u hu
    exact cell_of_recorded hrec hlater1 hlater2 hdone hag hu
  · intro D start env hag i slot u hslot hu
    exact content_of_recorded hrec hlater1 hlater2 hdone hag hslot hu
  · rw [← h.limit, ← show _ = q.stack.maxStack from (hwithinStage o ho hos).limit]
    exact (hstages o ho hos).1.fits
  · change ((stage r.start).func.block b).insns = _
    rw [hfirst, (hentered.plain hplain).1]
    rfl

end Lift

end Dissolve
