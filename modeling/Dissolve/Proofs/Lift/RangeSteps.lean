import Dissolve.Proofs.Lift.Skeleton

/-!
# Proofs.Lift.RangeSteps — the instructions of a range are lifted

A range is lifted instruction by instruction. `Chain s b p o p' o'` says that the instructions from
offset `o` up to `o'` took the lifting of block `b` from `p` to `p'`, each step as `Stepped` says. A
range ends with its last instruction or goes on to the next range as if a jump stood behind it
(`Rounded`).

Before its first instruction a block is set up as `Entered` says.
-/

namespace Dissolve.Lift

open List
open Code (Instruction)
open Ssa (Function Op)
open Progress

variable {s : Subject} {layout : Layout} {k n : Nat} {p p' : Progress} {b : BlockId}
  {insn : Instruction}

/-! ## Instructions in a row -/

lemma InBlock.setOffset (h : InBlock p b) (offset : Nat) :
    InBlock (p.setting (p.stack.setOffset offset) p.shapes p.current offset) b :=
  { h with sound := sound_setting h.sound }

lemma liftInsn_ensures (h : InBlock p b) (offset : Nat) (hends : insn.endsBlock = false) :
    Ensures (liftInsn s layout k offset insn) p fun _ p' => Stepped s p p' b insn := by
  refine .bind (.modifying ?_)
  rw [hends]
  refine (liftStep_ensures (InBlock.setOffset h offset) insn hends).mono ?_
  rintro _ p' ⟨hblock, hwithin, node, hgrows, hmimics⟩
  exact ⟨hblock, (within_setting h.sound b).trans hwithin, node, hgrows, hmimics⟩

lemma liftLast_ensures (h : InBlock p b) (offset : Nat) (hends : insn.endsBlock)
    (hcreated : Created layout p k) (hlen : (layout.normal k).length = edgeCount insn) :
    Ensures (liftInsn s layout k offset insn) p fun _ p' => Ended s layout k p p' b insn := by
  refine .bind (.modifying ?_)
  rw [hends]
  refine (liftTerminator_ensures (InBlock.setOffset h offset) insn hends hcreated hlen).mono ?_
  rintro _ p' ⟨hblock, hwithin, hemits⟩
  exact ⟨hblock, (within_setting h.sound b).trans hwithin, hemits⟩

/-- The instructions between two offsets were lifted one after the other. -/
inductive Chain (s : Subject) (b : BlockId) (p : Progress) (o : Nat) : Progress → Nat → Prop
  | refl (h : InBlock p b) : Chain s b p o p o
  | step {p' p'' : Progress} {o' : Nat} (before : Chain s b p o p' o')
      (last : Stepped s p' p'' b (insnAt s.body.instructions o')) : Chain s b p o p'' (o' + 1)

namespace Chain

variable {o o' : Nat}

lemma inBlock (h : Chain s b p o p' o') : InBlock p' b := by
  cases h with
  | refl h => exact h
  | step _ last => exact last.inBlock

lemma within (h : Chain s b p o p' o') : Within p p' b := by
  induction h with
  | refl h => exact Within.refl h.sound b
  | step _ last ih => exact ih.trans last.within

lemma insns (h : Chain s b p o p' o') : ∃ more,
    (p'.func.block b).insns = (p.func.block b).insns ++ more ∧
      ∀ i ∈ more, (p'.func.insn i).op.isTerminator = false := by
  induction h with
  | refl => exact ⟨[], by simp, by simp⟩
  | @step p1 p2 o1 before last ih =>
    obtain ⟨more, hmore, hplain⟩ := ih
    have hold : ∀ i ∈ more, (p2.func.insn i).op.isTerminator = false := by
      intro i hi
      have hmem : i ∈ (p1.func.block b).insns := by simp [hmore, hi]
      have hlive := ((before.inBlock.sound.flow.exact.insns_iff b i).1 hmem).1
      rw [last.within.later.insn i (p1.func.lt_insns_of_live hlive)]
      rw [Ssa.Op.isTerminator_mapOperands]
      exact hplain i hi
    obtain ⟨node, hgrows, -⟩ := last.emits
    cases node with
    | none =>
      have hsame : (p2.func.block b).insns = (p1.func.block b).insns := hgrows
      exact ⟨more, hsame.trans hmore, hold⟩
    | some node =>
      obtain ⟨i, hi, hop, -, hterm⟩ := hgrows
      refine ⟨more ++ [i], by rw [hi, hmore, append_assoc], fun j hj => ?_⟩
      rcases mem_append.1 hj with hj | hj
      · exact hold j hj
      · rw [mem_singleton.1 hj, hop, hterm]

end Chain

/-! ## Whole ranges -/

lemma Ensures.forM_snoc {α : Type} {f : α → Lifting PUnit} {xs : List α} {x : α}
    {Q S : Progress → Prop} (h : Ensures (xs.forM f) p fun _ p' => Q p')
    (hx : ∀ p', Q p' → Ensures (f x) p' fun _ p'' => S p'') :
    Ensures ((xs ++ [x]).forM f) p fun _ p' => S p' := by
  rw [forM_eq_forM, forM_append]
  refine .seq h fun _ p' hp' => ?_
  exact .seq (hx p' hp') fun _ _ h => .pure h

lemma Ensures.range {f : Nat → Lifting PUnit} {I : Nat → Progress → Prop} (h : I 0 p)
    (hstep : ∀ i, i < n → ∀ p, I i p → Ensures (f i) p fun _ p' => I (i + 1) p') :
    Ensures ((range n).forM f) p fun _ p' => I n p' := by
  induction n with
  | zero => exact .pure h
  | succ n ih =>
    rw [range_succ]
    exact .forM_snoc (ih fun i hi => hstep i (Nat.lt_succ_of_lt hi))
      (hstep n (Nat.lt_succ_self n))

/-- All instructions of a range were lifted and the block is ended; a range that does not end itself
goes on as if a jump stood behind it. -/
def Rounded (s : Subject) (layout : Layout) (k : Nat) (r : Range) (p p' : Progress) (b : BlockId) :
    Prop :=
  ∃ q, if (Layout.lastInsn s.body.instructions r).endsBlock then
      Chain s b p r.start q (r.stop - 1) ∧
        Ended s layout k q p' b (Layout.lastInsn s.body.instructions r)
    else Chain s b p r.start q r.stop ∧ ∀ l, Ended s layout k q p' b (.goto l)

variable {r : Range}

lemma Created.of_within (h : Created layout p k) (hw : Within p p' b) : Created layout p' k := by
  intro j hj
  rw [hw.blockOf]
  exact h j hj

lemma liftBody_ensures (h : InBlock p b)
    (hn : ∀ i, i < n → (insnAt s.body.instructions (r.start + i)).endsBlock = false) :
    Ensures ((range n).forM fun i =>
        liftInsn s layout k (r.start + i) (insnAt s.body.instructions (r.start + i))) p
      fun _ p' => Chain s b p r.start p' (r.start + n) := by
  refine Ensures.range (I := fun i p' => Chain s b p r.start p' (r.start + i)) (.refl h) ?_
  intro i hi p1 hchain
  refine (liftInsn_ensures hchain.inBlock _ (hn i hi)).mono ?_
  intro _ p2 hstep
  exact .step hchain hstep

section

variable (hlays : layout.Lays s.body.instructions) (hr : layout.range? k = some r)
include hlays hr

lemma endsItself_iff : endsItself s r = (Layout.lastInsn s.body.instructions r).endsBlock := by
  have hlt := (hlays.bounds hr).1
  simp [endsItself, hlt, Layout.lastInsn]

lemma liftEnded_ensures (hoff : r.fallsOff = false) (h : InBlock p b)
    (hcreated : Created layout p k) (hends : (Layout.lastInsn s.body.instructions r).endsBlock) :
    Ensures ((range (r.stop - r.start)).forM fun i =>
        liftInsn s layout k (r.start + i) (insnAt s.body.instructions (r.start + i))) p
      fun _ p' => Rounded s layout k r p p' b := by
  have hlt := (hlays.bounds hr).1
  obtain ⟨n, hn⟩ : ∃ n, r.stop - r.start = n + 1 := ⟨r.stop - r.start - 1, by omega⟩
  have hlast : r.start + n = r.stop - 1 := by omega
  rw [hn, range_succ]
  refine Ensures.forM_snoc (liftBody_ensures h fun i hi => ?_) fun q hchain => ?_
  · exact hlays.inner hr _ (by omega) (by omega)
  · rw [hlast] at hchain ⊢
    refine (liftLast_ensures hchain.inBlock _ hends (hcreated.of_within hchain.within)
      (hlays.length_normal hr hoff)).mono ?_
    intro _ p' hended
    exact ⟨q, by rw [if_pos hends]; exact ⟨hchain, hended⟩⟩

lemma liftFalling_ensures (hoff : r.fallsOff = false) (h : InBlock p b)
    (hcreated : Created layout p k)
    (hends : (Layout.lastInsn s.body.instructions r).endsBlock = false) :
    Ensures (do
        (range (r.stop - r.start)).forM fun i =>
          liftInsn s layout k (r.start + i) (insnAt s.body.instructions (r.start + i))
        emit (.goto (← jumpTarget layout k 0))) p fun _ p' => Rounded s layout k r p p' b := by
  have hlt := (hlays.bounds hr).1
  refine .seq (liftBody_ensures h fun i hi => ?_) fun _ q hchain => ?_
  · rcases Nat.lt_or_ge (r.start + i + 1) r.stop with hin | hout
    · exact hlays.inner hr _ (by omega) hin
    · rw [show r.start + i = r.stop - 1 by omega]
      exact hends
  · rw [show r.start + (r.stop - r.start) = r.stop by omega] at hchain
    have hq := hchain.inBlock
    refine .seq (jumpTarget_ensures (hcreated.of_within hchain.within) 0) ?_
    rintro c _ ⟨rfl, j, hj, hc⟩
    have hnormal : layout.normal k = [j] := by
      have hlen := hlays.length_normal hr hoff
      obtain ⟨hfalls, htargets⟩ := flow_of_endsBlock_false hends
      rw [edgeCount, hfalls, htargets] at hlen
      obtain ⟨i, hi⟩ := length_eq_one_iff.1 (show (layout.normal k).length = 1 from hlen)
      rw [hi] at hj ⊢
      rw [show i = j by simpa using hj]
    have htargets : q.BlocksOf (layout.normal k) (Op.goto c).targets := by
      rw [hnormal]
      simp [BlocksOf, Op.targets, hc]
    have hend : Ensures (emit (.goto c)) q fun _ p' =>
        Ended s layout k q p' b (.goto default) := by
      refine emitEnd_ensures hq (Within.refl hq.sound b) rfl (by simp [Op.operands]) rfl htargets ?_
      intro _ R S _ D start env _
      rfl
    refine hend.mono ?_
    · rintro _ p' ⟨hblock, hwithin, i, op, hinsns, hop, hdest, hterm, hblocks, hstrict, hfinish⟩
      refine ⟨q, ?_⟩
      rw [hends, if_neg Bool.false_ne_true]
      refine ⟨hchain, fun l =>
        ⟨hblock, hwithin, i, op, hinsns, hop, hdest, hterm, hblocks, hstrict, ?_⟩⟩
      intro hview R S hf D start env hag
      have hgoto := hfinish hview R S hf D start env hag
      cases op <;> exact hgoto

end

lemma Rounded.ended (h : Rounded s layout k r p p' b) :
    InBlock p' b ∧ Within p p' b ∧ ∃ more i,
      (p'.func.block b).insns = (p.func.block b).insns ++ more ++ [i] ∧
      (∀ j ∈ more, (p'.func.insn j).op.isTerminator = false) ∧
      (p'.func.insn i).op.isTerminator ∧
      p.BlocksOf (layout.normal k) (p'.func.insn i).op.targets := by
  obtain ⟨q, hq⟩ := h
  obtain ⟨o, insn, hchain, hended⟩ : ∃ o insn, Chain s b p r.start q o ∧
      Ended s layout k q p' b insn := by
    split at hq
    · exact ⟨_, _, hq.1, hq.2⟩
    · exact ⟨_, _, hq.1, hq.2 default⟩
  obtain ⟨more, hmore, hplain⟩ := hchain.insns
  obtain ⟨i, op, hinsns, hop, -, hterm, hblocks, -⟩ := hended.emits
  refine ⟨hended.inBlock, hchain.within.trans hended.within, more, i, by rw [hinsns, hmore], ?_, ?_,
    ?_⟩
  · intro j hj
    have hmem : j ∈ (q.func.block b).insns := by simp [hmore, hj]
    have hlive := ((hchain.inBlock.sound.flow.exact.insns_iff b j).1 hmem).1
    rw [hended.within.later.insn j (q.func.lt_insns_of_live hlive), Ssa.Op.isTerminator_mapOperands]
    exact hplain j hj
  · rw [hop, hterm]
  · rw [hop, BlocksOf, ← hchain.within.blockOf]
    exact hblocks

lemma Rounded.last_dest (h : Rounded s layout k r p p' b) :
    ∃ i, (p'.func.block b).insns.getLast? = some i ∧ (p'.func.insn i).dest = none := by
  obtain ⟨q, hq⟩ := h
  obtain ⟨insn, hended⟩ : ∃ insn, Ended s layout k q p' b insn := by
    split at hq
    · exact ⟨_, hq.2⟩
    · exact ⟨_, hq.2 default⟩
  obtain ⟨i, -, hinsns, -, hdest, -⟩ := hended.emits
  exact ⟨i, by simp [hinsns], hdest⟩

/-! ## Entering a range -/

/-- Block `b` is set up for the instructions of range `k`. -/
structure Entered (layout : Layout) (k : Nat) (p p' : Progress) (b : BlockId) : Prop where
  inBlock : InBlock p' b
  within : Within p p' b
  insns : ∃ more, (p'.func.block b).insns = (p.func.block b).insns ++ more ∧
    ∀ i ∈ more, (p'.func.insn i).op.isTerminator = false
  plain : layout.isHandler k = false → p'.func = p.func ∧ ∃ shape,
    p.shapes.get? k = some shape ∧ p'.stack = p.stack.enterBlock shape ∧ p'.held = p.held
  caught : layout.isHandler k = true → ∃ i guard,
    (p'.func.block b).insns = (p.func.block b).insns ++ [i] ∧
    (p'.func.insn i).op = .moveException guard ∧ p'.stack.bottomUp.map Slot.ty = [.object]

namespace OperandStack

variable (st : OperandStack) (shape : List ValueType)

/-- The words that slots of the given kinds take. -/
def wordsOfKinds (kinds : List ValueType) : Nat :=
  (kinds.map ValueType.slots).sum

lemma wordsOfKinds_reverse (kinds : List ValueType) :
    wordsOfKinds kinds.reverse = wordsOfKinds kinds := by
  rw [wordsOfKinds, map_reverse, sum_reverse, wordsOfKinds]

lemma wordsOfKinds_bottomUp : wordsOfKinds (st.bottomUp.map Slot.ty) = st.words := by
  rw [bottomUp, map_reverse, wordsOfKinds_reverse, wordsOfKinds, map_map]
  rfl

lemma bottomUp_enterBlock :
    (st.enterBlock shape).bottomUp = shape.mapIdx fun i ty => ⟨.incoming i, ty⟩ := by
  simp [bottomUp, enterBlock]

lemma kinds_enterBlock : (st.enterBlock shape).bottomUp.map Slot.ty = shape := by
  rw [bottomUp_enterBlock]
  refine ext_getElem? fun i => ?_
  simp [Function.comp_def]

end OperandStack

section

variable (hs : p.Sound []) (hp : p.Honest []) (hcurrent : p.current = b)
  (hlt : p.func.HasBlock b) (hdone : b ∉ p.done)
include hs hp hcurrent hlt hdone

lemma inBlock_enterBlock (shape : List ValueType)
    (hfits : OperandStack.wordsOfKinds shape ≤ p.stack.maxStack) :
    InBlock (p.withStack (p.stack.enterBlock shape)) b := by
  refine ⟨sound_setting hs, hp, hcurrent, hlt, hdone, fun slot hslot v hv => ?_,
    fun index v ty hv => ?_, nodup_nil, ?_⟩
  · simp only [withStack, OperandStack.enterBlock, mem_reverse, mem_mapIdx] at hslot
    obtain ⟨i, hi, rfl⟩ := hslot
    exact absurd hv (by simp)
  · exact absurd hv (by simp [withStack, OperandStack.enterBlock, OperandStack.local?, Assoc.get?,
      Assoc.find?])
  · rwa [withStack, ← OperandStack.wordsOfKinds_bottomUp, OperandStack.kinds_enterBlock]

lemma enterRange_ensures
    (hshape : layout.isHandler k = false → ∃ shape, p.shapes.get? k = some shape ∧
      OperandStack.wordsOfKinds shape ≤ p.stack.maxStack) :
    Ensures (enterRange s layout k) p fun _ p' => Entered layout k p p' b := by
  unfold enterRange
  cases hguard : layout.handlerGuards.get? k with
  | some guard =>
    have hhandler : layout.isHandler k := by
      simp [Layout.isHandler, Assoc.contains, hguard]
    refine .bind (.modifying ?_)
    have h0 := inBlock_enterBlock hs hp hcurrent hlt hdone [] (Nat.zero_le _)
    refine .seq (emitValue_ensures h0 .object (by simp [Op.operands])) ?_
    rintro v _ ⟨g, rfl, happ⟩
    refine pushSlot_ensures.mono ?_
    rintro _ _ ⟨rfl, hfits⟩
    have h1 := h0.append happ (by simp [Op.operands])
    have husable := usable_dest happ rfl
    refine ⟨h1.withStack ?_ h1.locals h1.distinct hfits, ?_, ?_, fun hplain => ?_, fun _ => ?_⟩
    · intro slot hslot w hw
      rcases mem_cons.1 hslot with rfl | hslot
      · obtain rfl : v = w := by simpa using hw
        rwa [resolve_of_defined h1.sound husable.1]
      · exact h1.slots slot hslot w hw
    · exact ((within_withStack hs _ b).trans (within_append h0 happ)).trans
        (within_withStack h1.sound _ b)
    · refine ⟨[⟨p.func.insns.size⟩], ?_, ?_⟩
      · change (g.block b).insns = _
        rw [happ.block, if_pos rfl]
        rfl
      · intro i hi
        obtain rfl := mem_singleton.1 hi
        have hop : (g.insn ⟨p.func.insns.size⟩).op = _ := happ.insn_new.1
        change (g.insn _).op.isTerminator = false
        rw [hop]
        rfl
    · rw [hhandler] at hplain
      exact Bool.noConfusion hplain
    · refine ⟨⟨p.func.insns.size⟩, _, ?_, happ.insn_new.1, rfl⟩
      change (g.block b).insns = _
      rw [happ.block, if_pos rfl]
      rfl
  | none =>
    have hplain : layout.isHandler k = false := by
      simp [Layout.isHandler, Assoc.contains, hguard]
    obtain ⟨shape, hget, hfits⟩ := hshape hplain
    refine .bind (.get ?_)
    rw [hget]
    refine .modifying ⟨inBlock_enterBlock hs hp hcurrent hlt hdone shape hfits,
      within_withStack hs _ b, ⟨[], ?_, ?_⟩, fun _ => ?_, fun hhandler => ?_⟩
    · rw [append_nil]
    · simp
    · exact ⟨rfl, shape, hget, rfl, rfl⟩
    · rw [hplain] at hhandler
      exact Bool.noConfusion hhandler

end

end Dissolve.Lift
