import Dissolve.Proofs.Lift.Leaving

/-!
# Proofs.Lift.Entry — parameters and the entry block

The entry block defines the parameters, one operation for each, and holds them in the local variables
that they arrive in (`Params`). If control can come back to the first range, the entry block goes on
to a block of its own for that range; otherwise the first range is lifted to the entry block.
-/

namespace Dissolve.Lift

open List
open Ssa (Function Op)
open Progress

variable {slot index : Nat} {b : BlockId}

/-- The local variables in which parameters of the given kinds arrive. -/
def parameterSlots : Nat → List ValueType → List Nat
  | _, [] => []
  | slot, ty :: rest => slot :: parameterSlots (slot + ty.slots) rest

lemma le_of_mem_parameterSlots {i : Nat} {kinds : List ValueType}
    (h : i ∈ parameterSlots slot kinds) : slot ≤ i := by
  induction kinds generalizing slot with
  | nil => simp [parameterSlots] at h
  | cons ty rest ih =>
    rcases mem_cons.1 h with rfl | h
    · exact Nat.le_refl _
    · have := ih h
      omega

/-- The instructions define the parameters from number `index` on, and the entry block holds them
from local variable `slot` on. -/
inductive Params (p : Progress) : Nat → Nat → List ValueType → List InsnId → Prop
  | nil {index slot : Nat} : Params p index slot [] []
  | cons {index slot : Nat} {ty : ValueType} {rest : List ValueType} {i : InsnId} {v : ValueId}
      {is : List InsnId} (op : (p.func.insn i).op = .argument index)
      (dest : (p.func.insn i).dest = some v)
      (held : p.held.get? (p.func.entry, .slot slot) = some v)
      (more : Params p (index + 1) (slot + ty.slots) rest is) :
      Params p index slot (ty :: rest) (i :: is)

section Parameters

variable {s : Subject} {layout : Layout} {p : Progress}

lemma Progress.InBlock.hold {x : Variable} {v : ValueId} (h : InBlock p b)
    (hagrees : p.Agrees b x v) (hstarts : p.Starts [] b x (p.resolve v))
    (husable : p.Usable b (p.resolve v)) :
    InBlock (p.hold b x v) b ∧ Alongside p (p.hold b x v) b := by
  have hlater : Later p (p.hold b x v) [] [] :=
    later_hold h.sound (fun hc => absurd hc h.unlifted) (fun hc => absurd hc h.unlifted)
      fun hc => absurd hc h.unlifted
  refine ⟨⟨sound_hold h.sound husable, ?_, h.current, h.lt, h.unlifted, h.slots, h.locals,
    h.distinct, h.fits⟩, hlater, rfl, rfl, rfl, rfl, fun _ _ => rfl, fun c y u hu => ?_, rfl⟩
  · intro c y u hc hu
    rcases holds_hold.1 hu with ⟨rfl, rfl, rfl⟩ | ⟨-, hu⟩
    · exact starts_hold (fun _ => hagrees) hstarts
    · exact starts_hold (fun _ => hagrees) (h.honest c y u hc hu)
  · exact holds_hold_of_holds (fun _ => hagrees) ((Within.refl h.sound b).holds c y u hu)

section

variable (h : InBlock p p.func.entry) (hpreds : p.func.predecessors p.func.entry = [])
include h hpreds

lemma liftParameter_ensures (hfree : p.held.get? (p.func.entry, .slot slot) = none) (ty : ValueType) :
    Ensures (liftParameter s layout index slot ty) p fun _ p' =>
      InBlock p' p.func.entry ∧ Alongside p p' p.func.entry ∧ p'.stack = p.stack ∧ ∃ i v,
        (p'.func.block p.func.entry).insns = (p.func.block p.func.entry).insns ++ [i] ∧
        (p'.func.insn i).op = .argument index ∧ (p'.func.insn i).dest = some v ∧
        p'.held = p.held.insert (p.func.entry, .slot slot) v := by
  refine .bind (.get (.bind (.build ?_)))
  have happ : p.func.Appends
      (p.func.appendValue p.func.entry (.argument index) ty (.derived 0)).2 p.func.entry
      (.argument index) (some ⟨p.func.values.size⟩) :=
    Function.appends_appendValue (.derived 0) h.sound.flow.exact h.lt (by simp [Op.operands]) ty
  have h1 := h.append happ (by simp [Op.operands])
  have hwithin1 := within_append h happ
  have husable := usable_dest (p := p) happ rfl
  refine .seq (nameValue_ensures s layout h1 slot 0 ⟨p.func.values.size⟩) ?_
  rintro _ _ ⟨g, rfl, h2, hwithin2, hinsns2⟩
  set p1 := p.withFunc (p.func.appendValue p.func.entry (.argument index) ty (.derived 0)).2 with hp1
  have husable2 : (p1.withFunc g).Usable p.func.entry
      ((p1.withFunc g).resolve ⟨p.func.values.size⟩) := hwithin2.later.usable _ _ husable
  have hinsn : (g.insn ⟨p.func.insns.size⟩).op = .argument index ∧
      (g.insn ⟨p.func.insns.size⟩).dest = some ⟨p.func.values.size⟩ := by
    have hlt : p.func.insns.size < p1.func.insns.size := by
      rw [hp1, withFunc, happ.size_insns]
      exact Nat.lt_succ_self _
    have hop : (p1.func.insn ⟨p.func.insns.size⟩).op = .argument index := happ.insn_new.1
    rw [show g.insn ⟨p.func.insns.size⟩ = _ from hwithin2.later.insn ⟨_⟩ hlt]
    refine ⟨?_, happ.insn_new.2.1⟩
    rw [hop]
    rfl
  -- nothing leads to the entry, so whatever it holds it starts with
  have hpasses : ∀ x v, (p1.withFunc g).Passes p.func.entry x v := by
    intro x v pred hpred
    have hnone : (p1.withFunc g).func.predecessors p.func.entry = [] := by
      rw [hwithin2.later.preds, hwithin1.later.preds, hpreds]
    rw [hnone] at hpred
    cases hpred
  have hagrees : (p1.withFunc g).Agrees p.func.entry (.slot slot) ⟨p.func.values.size⟩ := by
    rintro u ⟨w, hw, -⟩
    have hheld : p.held.get? (p.func.entry, .slot slot) = some w := hw
    rw [hfree] at hheld
    cases hheld
  obtain ⟨h3, halong⟩ := h2.hold hagrees (.inr (.inr (hpasses _ _))) husable2
  refine .modifying ⟨h3, (hwithin1.trans hwithin2).toAlongside.trans halong, rfl,
    ⟨p.func.insns.size⟩, ⟨p.func.values.size⟩, ?_, hinsn.1, hinsn.2, rfl⟩
  change (g.block p.func.entry).insns = _
  rw [hinsns2, hp1, withFunc, happ.block, if_pos rfl]

lemma liftParameters_ensures (kinds : List ValueType)
    (hfree : ∀ i, slot ≤ i → p.held.get? (p.func.entry, .slot i) = none) :
    Ensures (liftParameters s layout index slot kinds) p fun _ p' =>
      InBlock p' p.func.entry ∧ Alongside p p' p.func.entry ∧ p'.stack = p.stack ∧
      (∀ x, (∀ i ∈ parameterSlots slot kinds, x ≠ (p.func.entry, .slot i)) →
        p'.held.get? x = p.held.get? x) ∧
      ∃ is, (p'.func.block p.func.entry).insns = (p.func.block p.func.entry).insns ++ is ∧
        Params p' index slot kinds is := by
  induction kinds generalizing p index slot with
  | nil =>
    exact .pure ⟨h, (Within.refl h.sound _).toAlongside, rfl, fun _ _ => rfl, [], by simp, .nil⟩
  | cons ty rest ih =>
    refine .seq (liftParameter_ensures h hpreds (hfree slot (Nat.le_refl slot)) ty) ?_
    rintro _ p1 ⟨h1, hwithin1, hstack1, i, v, hinsns1, hop, hdest, hheld1⟩
    have hpos := ty.slots_pos
    have hpreds1 : p1.func.predecessors p1.func.entry = [] := (hwithin1.later.preds _).trans hpreds
    have hfree1 : ∀ j, slot + ty.slots ≤ j → p1.held.get? (p1.func.entry, .slot j) = none := by
      intro j hj
      rw [hheld1, Assoc.get?_insert, if_neg]
      · exact hfree j (by omega)
      · intro heq
        simp only [Prod.mk.injEq, Variable.slot.injEq] at heq
        omega
    refine (ih h1 hpreds1 hfree1).mono ?_
    rintro _ p2 ⟨h2, hwithin2, hstack2, hheld2, is, hinsns2, hparams⟩
    have hsame : p2.held.get? (p.func.entry, .slot slot) = some v := by
      rw [hheld2 _ fun j hj heq => ?_, hheld1, Assoc.get?_insert, if_pos rfl]
      have := le_of_mem_parameterSlots hj
      simp only [Prod.mk.injEq, Variable.slot.injEq] at heq
      omega
    have hlt := p1.func.lt_insns_of_live (h1.sound.flow.exact.live_of_dest hdest)
    refine ⟨h2, hwithin1.trans hwithin2, hstack2.trans hstack1, ?_, i :: is, ?_,
      .cons ?_ ?_ hsame hparams⟩
    · intro x hx
      rw [hheld2 x fun j hj => hx j (mem_cons_of_mem slot hj), hheld1, Assoc.get?_insert,
        if_neg (hx slot mem_cons_self).symm]
    · have hinsns1' : (p1.func.block p1.func.entry).insns = _ := hinsns1
      rw [hinsns1', append_assoc] at hinsns2
      exact hinsns2
    · rw [hwithin2.later.insn i hlt]
      rw [hop]
      rfl
    · rw [hwithin2.later.insn i hlt]
      exact hdest

end

end Parameters

/-! ## The entry block -/

def Subject.parameterKinds (s : Subject) : List ValueType :=
  if s.isStatic then s.method.proto.params.filterMap TypeRef.valueType?
  else .object :: s.method.proto.params.filterMap TypeRef.valueType?

/-- The entry block with the parameters: `q` is the stage behind the last of them. -/
structure Begun (s : Subject) (separate : Bool) (p q p' : Progress) : Prop where
  sound : p'.Sound []
  honest : p'.Honest []
  inBlock : InBlock q p.func.entry
  within : Alongside p q p.func.entry
  later : Later q p' [] []
  blockOf : p'.blockOf = p.blockOf
  shapes : p'.shapes = p.shapes
  limit : p'.stack.maxStack = p.stack.maxStack
  done : p'.done = if separate then [p.func.entry] else []
  closed : ∀ c, c ∈ p'.closed ↔ c ∈ p.closed ∨ separate = true ∧ c ∈ p'.func.successors p.func.entry ∧
    ∀ d ∈ p.func.predecessors c, d = p.func.entry
  insns : ∀ c, c ≠ p.func.entry → (p'.func.block c).insns = []
  params : Params q 0 0 s.parameterKinds (q.func.block p.func.entry).insns
  held : ∀ x, (∀ i ∈ parameterSlots 0 s.parameterKinds, x ≠ (p.func.entry, .slot i)) →
    q.held.get? x = none
  kept : ∀ x v, q.held.get? (p.func.entry, x) = some v → p'.Holds p.func.entry x (p'.resolve v)
  unheld : ∀ x, q.held.get? (p.func.entry, x) = none → p'.held.get? (p.func.entry, x) = none
  joint : separate = false → p' = q
  apart : separate = true → ∃ i first, p.blockOf.get? 0 = some first ∧
    (p'.func.block p.func.entry).insns = (q.func.block p.func.entry).insns ++ [i] ∧
    (p'.func.insn i).op = .goto first ∧ (p'.func.insn i).dest = none
  bare : Bare p.func

section Entry

variable {s : Subject} {layout : Layout} {separate : Bool} {p : Progress}

lemma declaredKinds_ensures :
    Ensures (s.method.proto.params.mapM valueTypeOf) p fun declared p' => p = p' ∧
      s.parameterKinds = if s.isStatic then declared else .object :: declared := by
  refine (Ensures.mapM (I := fun todo kinds p' => p = p' ∧ ∃ seen,
    s.method.proto.params = seen ++ todo ∧ seen.filterMap TypeRef.valueType? = kinds)
    ⟨rfl, [], rfl, rfl⟩ ?_).mono ?_
  · rintro ty todo kinds _ ⟨rfl, seen, hseen, hkinds⟩
    refine (valueTypeOf_ensures ty).mono ?_
    rintro kind _ ⟨hkind, rfl⟩
    exact ⟨rfl, seen ++ [ty], by simp [hseen], by simp [hkinds, hkind]⟩
  · rintro kinds _ ⟨rfl, seen, hseen, hkinds⟩
    obtain rfl : s.method.proto.params = seen := by simpa using hseen
    exact ⟨rfl, by rw [← hkinds, Subject.parameterKinds]⟩

lemma inBlock_of_empty (hs : p.Sound []) (hp : p.Honest []) (hcurrent : p.current = b)
    (hlt : p.func.HasBlock b) (hdone : b ∉ p.done) (hslots : p.stack.slots = [])
    (hlocals : p.stack.locals = {}) : InBlock p b := by
  refine ⟨hs, hp, hcurrent, hlt, hdone, ?_, ?_, ?_,
    by simp [OperandStack.words, OperandStack.wordsOf, hslots]⟩
  · simp [hslots]
  · intro index v ty hv
    rw [OperandStack.local?, hlocals] at hv
    exact absurd (show none = some (v, ty) from hv) (by simp)
  · rw [hlocals]
    exact nodup_nil

/-- The parameters are defined and the entry block goes on to the first range. -/
lemma liftEntry_ensures (hs : p.Sound []) (hp : p.Honest []) (hbare : Bare p.func)
    (hpos : 0 < p.func.blocks.size) (hfirst : ∃ first, p.blockOf.get? 0 = some first)
    (hroot : p.func.entry ∈ p.closed) (hdone : p.done = []) (hheld : p.held = {}) (hslots : p.stack.slots = [])
    (hlocals : p.stack.locals = {}) :
    Ensures (liftEntry s layout separate) p fun _ p' => ∃ q, Begun s separate p q p' := by
  refine .bind (.get (.bind (.modifying ?_)))
  set p0 : Progress := { p with current := p.func.entry, offset := 0 } with hp0
  have h0 : InBlock p0 p.func.entry :=
    inBlock_of_empty
      (sound_setting hs : (p.setting p.stack p.shapes p.func.entry 0).Sound []) hp rfl hpos
      (by rw [hdone]; exact not_mem_nil) hslots hlocals
  have hwithin0 : Alongside p p0 p.func.entry :=
    (within_setting hs _ :
      Within p (p.setting p.stack p.shapes p.func.entry 0) p.func.entry).toAlongside
  have hnone : ∀ x, p0.held.get? x = none := by
    intro x
    rw [hheld]
    rfl
  refine .seq declaredKinds_ensures ?_
  rintro declared _ ⟨rfl, hkinds⟩
  dsimp only
  rw [← hkinds]
  split
  · exact .seq (Q := fun _ _ => False) (.fault _) fun _ _ h => h.elim
  refine .seq (liftParameters_ensures h0 hs.flow.entry_preds s.parameterKinds
    fun i _ => hnone _) ?_
  rintro _ q ⟨hq, hwithin, hstack, hheldq, is, hinsns, hparams⟩
  have hwithinq := hwithin0.trans hwithin
  have hempty : (p0.func.block p0.func.entry).insns = [] := hbare.block_insns _
  rw [hempty, nil_append] at hinsns
  rw [← hinsns] at hparams
  have hheldq' : ∀ x, (∀ i ∈ parameterSlots 0 s.parameterKinds, x ≠ (p.func.entry, .slot i)) →
      q.held.get? x = none := fun x hx => (hheldq x hx).trans (hnone x)
  have hother : ∀ c, c ≠ p.func.entry → (q.func.block c).insns = [] := fun c hc =>
    (hwithinq.insns c hc).trans (hbare.block_insns c)
  have hdoneq : q.done = [] := hwithinq.done.trans hdone
  split
  · next hsep =>
      obtain ⟨first, hfirst⟩ := hfirst
      refine .seq (blockOfRange_ensures ⟨first, by rw [hwithinq.blockOf, hfirst]⟩) ?_
      rintro c _ ⟨rfl, hc⟩
      obtain rfl : first = c := by
        rw [hwithinq.blockOf, hfirst] at hc
        exact Option.some.inj hc
      have happ : q.func.Appends
          (q.func.appendInsn p.func.entry (.goto first) none (.derived 0)).2 p.func.entry
          (.goto first) none :=
        Function.appends_appendInsn (.derived 0) hq.sound.flow.exact hq.lt (by simp [Op.operands])
      refine .seq (.discard (.build (Q := fun _ p' => p' = q.withFunc
        (q.func.appendInsn p.func.entry (.goto first) none (.derived 0)).2) rfl)) ?_
      rintro _ _ rfl
      have h1 := hq.append happ (by simp [Op.operands])
      have hwithin1 := within_append hq happ
      generalize (q.func.appendInsn p.func.entry (.goto first) none (.derived 0)).2 = g
        at happ h1 hwithin1 ⊢
      refine (finishLifted_ensures h1.sound
        ((later_mark h1.sound).honest_of_held_eq rfl h1.honest)).mono ?_
      rintro _ p' ⟨hs', hp', hlater', hframe, hclosed⟩
      have hlater1 : Later (q.withFunc g) p' [] [] := (later_mark h1.sound).trans hlater'
      have hinsns' : ∀ c, (p'.func.block c).insns = (g.block c).insns := hframe.insns
      have hsucc : p'.func.successors p.func.entry = g.successors p.func.entry :=
        successors_of_later h1.sound hlater1 (hinsns' _)
      have hnew : (g.insn ⟨q.func.insns.size⟩).op = .goto first ∧
          (g.insn ⟨q.func.insns.size⟩).dest = none := ⟨happ.insn_new.1, happ.insn_new.2.1⟩
      have hinsn := hlater1.insn ⟨q.func.insns.size⟩
        (show q.func.insns.size < g.insns.size by rw [happ.size_insns]; exact Nat.lt_succ_self _)
      refine ⟨q, hs', hp', hq, hwithinq, hwithin1.later.trans hlater1,
        hframe.blockOf.trans hwithinq.blockOf, hframe.shapes.trans hwithinq.shapes,
        (congrArg OperandStack.maxStack hframe.stack).trans hwithinq.limit, ?_, ?_, ?_, hparams, hheldq', fun x v hv => ?_, fun x hx => ?_,
        fun h => absurd (hsep.symm.trans h) (by simp), fun _ =>
          ⟨⟨q.func.insns.size⟩, first, hfirst, ?_, ?_, ?_⟩, hbare⟩
      · rw [if_pos hsep, hframe.done, mark]
        exact congrArg _ hdoneq
      · intro c
        have hpreds := (hwithin1.later.preds c).trans (hwithinq.later.preds c)
        have hdone1 : (q.withFunc g).done = [] := hdoneq
        have hclosed1 : (q.withFunc g).closed = p.closed := hwithinq.closed
        rw [hclosed c, hpreds, hdone1, hclosed1, hsucc]
        simp only [hsep, true_and, mem_singleton]
        rfl
      · intro c hc
        rw [hinsns', happ.block, if_neg hc, hother c hc]
      · have hholds := hlater'.holds p.func.entry (by simp [mark]) x _ ⟨v, hv, rfl⟩
        rwa [hlater'.resolve] at hholds
      · refine hlater'.unheld p.func.entry (by simp [mark]) ⟨?_, ?_⟩ x hx
        · change p.func.entry ∈ (q.withFunc g).closed
          rw [show (q.withFunc g).closed = p.closed from hwithinq.closed]
          exact hroot
        · exact ((hwithin1.later.preds _).trans (hwithinq.later.preds _)).trans hs.flow.entry_preds
      · rw [hinsns', happ.block, if_pos rfl]
      · rw [hinsn]
        change ((g.insn _).op).mapOperands _ = _
        rw [hnew.1]
        rfl
      · rw [hinsn]
        exact hnew.2
  · next hsep =>
      refine .pure ⟨q, hq.sound, hq.honest, hq, hwithinq, Later.refl hq.sound,
        hwithinq.blockOf, hwithinq.shapes, hwithinq.limit, ?_, ?_, hother, hparams, hheldq',
        fun x v hv => ⟨v, hv, rfl⟩, fun _ hx => hx, fun _ => rfl, fun h => absurd h hsep,
        hbare⟩
      · rw [if_neg hsep, hdoneq]
      · intro c
        rw [hwithinq.closed]
        simp [hsep]

end Entry

end Dissolve.Lift
