import Dissolve.Proofs.Lift.InBlock
import Dissolve.Proofs.Semantics.Execution

/-!
# Proofs.Lift.Stepping — one instruction is lifted

`Stepped s p p' b insn` says what lifting an instruction that does not end its range does in block
`b`: it keeps the invariants of lifting, appends at most one operation, and the simulated stack goes on
as the stack machine does (`Mimics`). It is proved in one environment first, in which the new value has
its content from the start (`Traced`). Most instructions pop their operands, perform one operation and
push its result; they share `Popped.emit_ensures` and `Popped.emitPushed_ensures`.
-/

namespace Dissolve.Lift

open List
open Code (Instruction)
open Semantics (assign)
open Ssa (Const Function Op)
open Progress

variable {D : Type} {st : OperandStack} {v : ValueId} {insn : Instruction}
  {count index words top below : Nat} {vs : List ValueId} {slots : List Slot} {p' : Progress}

/-- An instruction goes from a frame to the next as the simulated stack does, and performs the
operation that was emitted for it. -/
def Mimics (insn : Instruction) (st st' : OperandStack) (R : ValueId → ValueId)
    (S : Variable → Option ValueId) (node : Option (Op × Option ValueId)) : Prop :=
  ∀ (D : Type) (start : Variable → D) (env : ValueId → D), Agree R S start env →
    match node, Machine.exec (st.frame R start env) insn with
    | none, .silent frame => frame = st'.frame R start env
    | some (op, dest), .perform name args resume =>
      op.form = name ∧ (op.operands.map fun v => env (R v)) = args ∧
        ∀ d, resume d = st'.frame R start (assign env dest d)
    | _, _ => False

/-- `Mimics` in one environment, which has the result of the operation already. -/
def Follows (insn : Instruction) (st st' : OperandStack) (R : ValueId → ValueId)
    (S : Variable → Option ValueId) (node : Option (Op × Option ValueId)) : Prop :=
  ∀ (D : Type) (start : Variable → D) (env : ValueId → D), Agree R S start env →
    match node with
    | none => Machine.exec (st.frame R start env) insn = .silent (st'.frame R start env)
    | some (op, dest) => ∃ resume, Machine.exec (st.frame R start env) insn =
        .perform op.form (op.operands.map fun v => env (R v)) resume ∧
      ∀ d, (∀ v, dest = some v → env (R v) = d) → resume d = st'.frame R start env

namespace Progress

/-- The block has got the operation, if there is one. -/
def Grows (p p' : Progress) (b : BlockId) (node : Option (Op × Option ValueId)) : Prop :=
  match node with
  | none => (p'.func.block b).insns = (p.func.block b).insns
  | some (op, dest) => ∃ i, (p'.func.block b).insns = (p.func.block b).insns ++ [i] ∧
      (p'.func.insn i).op = op ∧ (p'.func.insn i).dest = dest ∧ op.isTerminator = false

/-- No value that is there already will stand for the new one. -/
def Apart (p : Progress) (b : BlockId) (R : ValueId → ValueId) (S : Variable → Option ValueId)
    (node : Option (Op × Option ValueId)) : Prop :=
  ∀ op d, node = some (op, some d) →
    R d = d ∧ (∀ w, p.Usable b w → R w ≠ d) ∧ ∀ x w, S x = some w → R w ≠ d

/-- An instruction of the body was lifted. -/
structure Stepped (s : Subject) (p p' : Progress) (b : BlockId) (insn : Instruction) : Prop where
  inBlock : InBlock p' b
  within : Within p p' b
  emits : ∃ node, Grows p p' b node ∧ (s.view = .identity → ∀ R S, Foresees p' b R S →
    Apart p b R S node → Mimics insn p.stack p'.stack R S node)

/-- `Stepped`, in one environment. -/
structure Traced (s : Subject) (p p' : Progress) (b : BlockId) (insn : Instruction) : Prop where
  inBlock : InBlock p' b
  within : Within p p' b
  emits : ∃ node, Grows p p' b node ∧ (s.view = .identity → ∀ R S, Foresees p' b R S →
    Follows insn p.stack p'.stack R S node)

end Progress

/-! ## Environments -/

section Assign

variable {R : ValueId → ValueId} {S : Variable → Option ValueId} {start : Variable → D}
  {env : ValueId → D} {p : Progress} {b : BlockId} {op : Op} {dest : Option ValueId}

lemma assign_of_ne {w : ValueId} (d : D) (h : ∀ v, dest = some v → w ≠ v) :
    assign env dest d w = env w := by
  cases dest with
  | none => rfl
  | some v => exact Function.update_of_ne (h v rfl) d env

lemma agree_assign (hap : Apart p b R S (some (op, dest))) (hag : Agree R S start env) (d : D) :
    Agree R S start (assign env dest d) := by
  intro x w hw
  rw [hag x w hw, assign_of_ne]
  rintro v rfl
  exact (hap op v rfl).2.2 x w hw

lemma frame_assign (hres : ∀ v, R (p.resolve v) = R v)
    (hslots : ∀ slot ∈ st.slots, ∀ v, slot.source = .value v → p.Usable b (p.resolve v))
    (hlocals : ∀ index v ty, st.local? index = some (v, ty) → p.Usable b (p.resolve v))
    (hap : Apart p b R S (some (op, dest))) (d : D) :
    st.frame R start (assign env dest d) = st.frame R start env := by
  have hvalue : ∀ v, p.Usable b (p.resolve v) → assign env dest d (R v) = env (R v) := by
    intro v hv
    refine assign_of_ne d ?_
    rintro w rfl
    rw [← hres]
    exact (hap op w rfl).2.1 _ hv
  have hcell : ∀ index, st.cell R start (assign env dest d) index = st.cell R start env index := by
    intro index
    unfold OperandStack.cell
    split
    · next v ty hlocal => exact hvalue v (hlocals index v ty hlocal)
    · rfl
  have hcontent : ∀ slot ∈ st.slots, st.content R start (assign env dest d) slot.source =
      st.content R start env slot.source := by
    intro slot hslot
    cases hsource : slot.source with
    | value v => exact hvalue v (hslots slot hslot v hsource)
    | slot index => exact hcell index
    | incoming index => rfl
  unfold OperandStack.frame
  congr 1
  · refine map_congr_left fun slot hslot => ?_
    rw [hcontent slot hslot]
  · exact funext hcell

lemma Progress.Traced.stepped {s : Subject} (h : Traced s p p' b insn) (hp : InBlock p b) :
    Stepped s p p' b insn := by
  obtain ⟨node, hgrows, hfollows⟩ := h.emits
  refine ⟨h.inBlock, h.within, node, hgrows, fun hview R S hf hap D start env hag => ?_⟩
  have hfollows := hfollows hview R S hf D start
  obtain - | ⟨op, dest⟩ := node
  · rw [show Machine.exec _ insn = _ from hfollows env hag]
  · obtain ⟨resume, hexec, -⟩ := hfollows env hag
    rw [hexec]
    refine ⟨rfl, rfl, fun d => ?_⟩
    -- the frame does not show the new value, so it is the same when the result is known
    obtain ⟨resume', hexec', hresume⟩ := hfollows (assign env dest d) (agree_assign hap hag d)
    rw [frame_assign (hf.of_within h.within).resolve hp.slots hp.locals hap d, hexec] at hexec'
    obtain rfl : resume = resume' := by injection hexec'
    refine hresume d ?_
    rintro v rfl
    rw [(hap op v rfl).1]
    exact Function.update_self v d env

end Assign

/-! ## Operations -/

section Operation

variable {s : Subject} {p p1 : Progress} {b : BlockId} {op : Op}

lemma exec_operation {R : ValueId → ValueId} {S : Variable → Option ValueId}
    {start : Variable → D} {env : ValueId → D} {name : Op} {result : Option ValueType}
    (hpop : Popped p p1 b count vs) (hf : Foresees p1 b R S) (hag : Agree R S start env)
    (hop : Machine.operation? insn = some ⟨count, name, result⟩) :
    Machine.exec (p.stack.frame R start env) insn = .perform name (vs.map fun v => env (R v))
      ((p1.stack.frame R start env).pushed (p1.stack.frame R start env).stack result) := by
  obtain ⟨hstack, hcells⟩ := hpop.frame hf hag
  simp only [Machine.exec, hop, hstack]
  congr 1
  funext d
  simp only [Machine.Frame.pushed, hcells]

theorem Progress.Popped.emit_ensures (hpop : Popped p p1 b count vs) (hops : op.operands = vs)
    (hterm : op.isTerminator = false)
    (hop : s.view = .identity → Machine.operation? insn = some ⟨count, op.form, none⟩) :
    Ensures (emit op) p1 fun _ p' => Traced s p p' b insn := by
  have husable : ∀ v ∈ op.operands, p1.Usable b v := fun v hv => hpop.usable (hops ▸ hv)
  refine (Lift.emit_ensures hpop.inBlock husable).mono ?_
  rintro _ p' ⟨g, rfl, happ⟩
  have hwithin := within_append hpop.inBlock happ
  refine ⟨hpop.inBlock.append happ husable, hpop.within.trans hwithin, some (op, none), ?_, ?_⟩
  · refine ⟨⟨p1.func.insns.size⟩, ?_, happ.insn_new.1, happ.insn_new.2.1, hterm⟩
    rw [withFunc, happ.block, if_pos rfl, hpop.insns]
  · intro hview R S hf D start env hag
    exact ⟨_, hops ▸ exec_operation hpop (hf.of_within hwithin) hag (hop hview), fun _ _ => rfl⟩

theorem Progress.Popped.emitPushed_ensures (hpop : Popped p p1 b count vs)
    (hops : op.operands = vs) (hterm : op.isTerminator = false) {ty : ValueType}
    (hop : s.view = .identity → Machine.operation? insn = some ⟨count, op.form, some ty⟩) :
    Ensures (emitPushed op ty) p1 fun _ p' => Traced s p p' b insn := by
  have husable : ∀ v ∈ op.operands, p1.Usable b v := fun v hv => hpop.usable (hops ▸ hv)
  refine .seq (emitValue_ensures hpop.inBlock ty husable) ?_
  rintro v _ ⟨g, rfl, happ⟩
  refine pushSlot_ensures.mono ?_
  rintro _ p' ⟨rfl, hfits⟩
  have hblock := hpop.inBlock.append happ husable
  have hwithin := within_append hpop.inBlock happ
  have hwithin' := within_withStack hblock.sound
    { p1.stack with slots := ⟨.value v, ty⟩ :: p1.stack.slots } b
  have hv : (p1.withFunc g).Usable b v := usable_dest happ rfl
  refine ⟨hblock.withStack ?_ hblock.locals hblock.distinct hfits,
    (hpop.within.trans hwithin).trans hwithin', some (op, some v), ?_, ?_⟩
  · intro slot hslot w hw
    rcases mem_cons.1 hslot with rfl | hslot
    · obtain rfl := Source.value.inj hw
      rw [resolve_of_defined hblock.sound hv.1]
      exact hv
    · exact hblock.slots slot hslot w hw
  · refine ⟨⟨p1.func.insns.size⟩, ?_, happ.insn_new.1, happ.insn_new.2.1, hterm⟩
    change (g.block b).insns = _
    rw [happ.block, if_pos rfl, hpop.insns]
  · intro hview R S hf D start env hag
    have hf1 := (hf.of_within hwithin').of_within hwithin
    refine ⟨_, hops ▸ exec_operation hpop hf1 hag (hop hview), fun d hd => ?_⟩
    rw [← hd v rfl]
    rfl

end Operation

/-! ## Local variables -/

section Locals

variable {R : ValueId → ValueId} {S : Variable → Option ValueId} {start : Variable → D}
  {env : ValueId → D}

lemma cell_bindLocal (st : OperandStack) (index : Nat) (v : ValueId) (ty : ValueType) (j : Nat) :
    (st.bindLocal index v ty).cell R start env j =
      if j = index then env (R v) else st.cell R start env j := by
  unfold OperandStack.cell OperandStack.local? OperandStack.bindLocal
  simp only [Assoc.get?_insert]
  by_cases hj : j = index
  · simp [hj]
  · simp [hj, Ne.symm hj]

lemma frame_bindLocal
    (h : ∀ slot ∈ st.slots, slot.source ≠ .slot index) (v : ValueId) (ty : ValueType) :
    (st.bindLocal index v ty).frame R start env =
      (st.frame R start env).setCell index (env (R v)) := by
  unfold OperandStack.frame Machine.Frame.setCell
  congr 1
  · refine map_congr_left fun slot hslot => ?_
    have hcontent : (st.bindLocal index v ty).content R start env slot.source =
        st.content R start env slot.source := by
      cases hsource : slot.source with
      | value w => rfl
      | incoming j => rfl
      | slot j =>
        have hj : j ≠ index := by
          rintro rfl
          exact h slot hslot hsource
        rw [OperandStack.content, cell_bindLocal, if_neg hj, OperandStack.content]
    rw [hcontent]
  · funext j
    rw [cell_bindLocal, Function.update_apply]

lemma frame_materializeLocal (h : st.content R start env (.slot index) = env (R v)) :
    (st.materializeLocal index v).frame R start env = st.frame R start env := by
  unfold OperandStack.frame OperandStack.materializeLocal OperandStack.replaceSource
  congr 1
  rw [map_map]
  refine map_congr_left fun slot _ => ?_
  simp only [Function.comp_apply, OperandStack.content_slots]
  split
  · next hsource => rw [hsource, h]; rfl
  · rfl

lemma words_materializeLocal : (st.materializeLocal index v).words = st.words := by
  unfold OperandStack.words OperandStack.wordsOf OperandStack.materializeLocal
    OperandStack.replaceSource
  rw [map_map]
  congr 1
  refine map_congr_left fun slot _ => ?_
  simp only [Function.comp_apply]
  split <;> rfl

variable {p : Progress} {b : BlockId}

lemma source_ne_of_not_pending
    (h : st.hasPendingRead index = false) : ∀ slot ∈ st.slots, slot.source ≠ .slot index := by
  simpa [OperandStack.hasPendingRead] using h

lemma Progress.InBlock.bindLocal (h : InBlock p b) (index : Nat) (hv : p.Usable b (p.resolve v))
    (ty : ValueType) : InBlock (p.withStack (p.stack.bindLocal index v ty)) b := by
  refine h.withStack h.slots (fun j w kind hw => ?_) (Assoc.nodup_keys_insert _ _ _ h.distinct)
    h.fits
  simp only [OperandStack.local?, OperandStack.bindLocal, Assoc.get?_insert] at hw
  split at hw
  · obtain ⟨rfl, -⟩ := Prod.mk.inj (Option.some.inj hw)
    exact hv
  · exact h.locals j w kind hw

lemma rebindLocal_ensures (h : InBlock p b) (index : Nat) (hv : p.Usable b v) (ty : ValueType) :
    Ensures (rebindLocal index v ty) p fun _ p' => InBlock p' b ∧ Within p p' b ∧
      (p'.func.block b).insns = (p.func.block b).insns ∧
      ∀ (D : Type) (R : ValueId → ValueId) (S : Variable → Option ValueId) (start : Variable → D)
        (env : ValueId → D), Foresees p' b R S → Agree R S start env →
        p'.stack.frame R start env = (p.stack.frame R start env).setCell index (env (R v)) := by
  refine .bind (.get ?_)
  by_cases hpending : p.stack.hasPendingRead index = true
  · rw [if_pos hpending]
    refine .seq (readLocal_ensures h index ty) ?_
    rintro old p1 ⟨hs1, hread, husable, hstands⟩
    refine .bind (.modifying (.modifying ?_))
    have h1 := h.read hread hs1
    have h2 : InBlock (p1.withStack (p1.stack.materializeLocal index old)) b := by
      refine h1.withStack ?_ h1.locals h1.distinct (by rw [words_materializeLocal]; exact h1.fits)
      intro slot hslot w hw
      obtain ⟨slot', hslot', rfl⟩ := mem_map.1 hslot
      split at hw
      · obtain rfl := Source.value.inj hw
        rwa [resolve_of_defined hs1 husable.1]
      · exact h1.slots slot' hslot' w hw
    have hv2 : p1.Usable b (p1.resolve v) := hread.later.usable b v hv
    have hwithin : Within p (p1.withStack (p1.stack.materializeLocal index old)) b :=
      (hread.within b).trans (within_withStack hs1 _ b)
    refine ⟨h2.bindLocal index hv2 ty, hwithin.trans (within_withStack h2.sound _ b),
      hread.frame.insns b, ?_⟩
    intro D R S start env hf hag
    have hf1 : Foresees p1 b R S :=
      hf.of_within ((within_withStack hs1 _ b).trans (within_withStack h2.sound _ b))
    have hcontent := hstands.content hf1 hag
    rw [hread.frame.stack] at hcontent
    have hnot : ∀ slot ∈ (p1.stack.materializeLocal index old).slots,
        slot.source ≠ .slot index := by
      intro slot hslot
      obtain ⟨slot', -, rfl⟩ := mem_map.1 hslot
      split
      · simp
      · assumption
    rw [frame_bindLocal hnot, hread.frame.stack, frame_materializeLocal hcontent]
  · rw [if_neg hpending]
    refine .modifying ?_
    have hres := resolve_of_defined h.sound hv.1
    refine ⟨h.bindLocal index (by rwa [hres]) ty, within_withStack h.sound _ b, rfl, ?_⟩
    intro D R S start env hf hag
    exact frame_bindLocal (source_ne_of_not_pending (by simpa using hpending)) v ty

lemma nameValue_ensures (s : Subject) (layout : Layout) (h : InBlock p b) (slot offset : Nat)
    (v : ValueId) :
    Ensures (Lift.nameValue s layout slot offset v) p fun _ p' => ∃ g, p' = p.withFunc g ∧
      InBlock (p.withFunc g) b ∧ Within p (p.withFunc g) b ∧
      (g.block b).insns = (p.func.block b).insns := by
  unfold Lift.nameValue
  split
  · exact .build ⟨_, rfl, h.name v _, within_name h.sound v _ b, rfl⟩
  · exact .pure ⟨p.func, rfl, h, Within.refl h.sound b, rfl⟩

lemma checkLocal_ensures (s : Subject) (slot : Nat) (ty : ValueType) :
    Ensures (checkLocal s slot ty) p fun _ p' => p = p' := by
  unfold checkLocal
  split
  · exact .pure rfl
  · exact .fault _

end Locals

/-! ## Shuffles -/

section Shuffle

variable {p : Progress} {b : BlockId} {s : Subject}

lemma popSlots_ensures (words fuel : Nat) (taken : List Slot) :
    Ensures (popSlots words fuel taken) p fun slots p' =>
      ∃ more rest, slots = more ++ taken ∧ p.stack.slots = more.reverse ++ rest ∧
        p' = p.withStack { p.stack with slots := rest } := by
  induction fuel generalizing p taken with
  | zero => exact .pure ⟨[], p.stack.slots, rfl, rfl, rfl⟩
  | succ fuel ih =>
    rw [popSlots]
    split
    · exact .pure ⟨[], p.stack.slots, rfl, rfl, rfl⟩
    · refine .seq popSlot_ensures ?_
      rintro slot p1 ⟨rest, hrest, rfl⟩
      refine (ih (slot :: taken)).mono ?_
      rintro slots p' ⟨more, rest', rfl, hrest', rfl⟩
      refine ⟨more ++ [slot], rest', by simp, ?_, rfl⟩
      rw [hrest, reverse_append, reverse_singleton, singleton_append, cons_append]
      exact congrArg _ hrest'

lemma popWords_ensures (words : Nat) :
    Ensures (popWords words) p fun slots p' =>
      ∃ rest, p.stack.slots = slots.reverse ++ rest ∧ OperandStack.wordsOf slots = words ∧
        p' = p.withStack { p.stack with slots := rest } := by
  refine .seq (popSlots_ensures words words []) ?_
  rintro slots p' ⟨more, rest, hslots, hrest, rfl⟩
  rw [append_nil] at hslots
  subst hslots
  split
  · exact .seq (Q := fun _ _ => False) (.fault _) fun _ _ h => h.elim
  · next hwords => exact .pure ⟨rest, hrest, not_not.1 hwords, rfl⟩

lemma pushSlots_ensures (slots : List Slot) :
    Ensures (slots.forM pushSlot) p fun _ p' =>
      p' = p.withStack { p.stack with slots := slots.reverse ++ p.stack.slots } ∧
        (p.stack.words ≤ p.stack.maxStack → p'.stack.words ≤ p'.stack.maxStack) := by
  induction slots generalizing p with
  | nil => exact .pure ⟨rfl, id⟩
  | cons slot rest ih =>
    refine .seq pushSlot_ensures ?_
    rintro _ _ ⟨rfl, hfits⟩
    refine ih.mono ?_
    rintro _ _ ⟨rfl, hfits'⟩
    exact ⟨by simp [withStack], fun _ => hfits' hfits⟩

lemma takeWords_append {α : Type} {taken rest : List (α × ValueType)}
    (h : (taken.map fun slot => slot.2.slots).sum = words) :
    Machine.takeWords words (taken ++ rest) = some (taken, rest) := by
  induction taken generalizing words with
  | nil =>
    obtain rfl : words = 0 := h.symm
    simp [Machine.takeWords]
  | cons slot taken ih =>
    rw [map_cons, sum_cons] at h
    have hpos := slot.2.slots_pos
    obtain ⟨words, rfl⟩ : ∃ n, words = n + 1 := ⟨words - 1, by omega⟩
    rw [cons_append, Machine.takeWords, if_pos (by omega), ih (by omega)]
    rfl

/-- What a frame shows of a slot. -/
abbrev shown (content : Source → D) (slot : Slot) : D × ValueType :=
  (content slot.source, slot.ty)

lemma takeWords_frame {rest : List Slot} (content : Source → D)
    (h : OperandStack.wordsOf slots = words) :
    Machine.takeWords words ((slots.reverse ++ rest).map (shown content)) =
      some (slots.reverse.map (shown content), rest.map (shown content)) := by
  rw [map_append]
  refine takeWords_append ?_
  rw [map_map, map_reverse, sum_reverse]
  exact h

lemma traced_withSlots (h : InBlock p b) (hsub : slots ⊆ p.stack.slots)
    (hfits : OperandStack.wordsOf slots ≤ p.stack.maxStack)
    (hexec : ∀ (D : Type) (R : ValueId → ValueId) (start : Variable → D) (env : ValueId → D),
      Machine.exec (p.stack.frame R start env) insn =
        .silent { p.stack.frame R start env with
          stack := slots.map (shown (p.stack.content R start env)) }) :
    Traced s p (p.withStack { p.stack with slots }) b insn := by
  refine ⟨h.withSlots hsub hfits, within_withStack h.sound _ b, none, rfl, ?_⟩
  exact fun _ R S _ D start env _ => hexec D R start env

/-- Two groups of slots are popped, and slots of them are pushed. -/
lemma shuffle_ensures (h : InBlock p b) {pushed : List Slot → List Slot → List Slot}
    (hpushed : ∀ upper lower, pushed upper lower ⊆ upper ++ lower)
    (hexec : ∀ (D : Type) (content : Source → D) (cells : Nat → D) (upper lower rest : List Slot),
      OperandStack.wordsOf upper = top → OperandStack.wordsOf lower = below →
      Machine.exec ⟨(upper.reverse ++ (lower.reverse ++ rest)).map (shown content), cells⟩ insn =
        .silent ⟨((pushed upper lower).reverse ++ rest).map (shown content), cells⟩) :
    Ensures (do
      let upper ← popWords top
      let lower ← popWords below
      (pushed upper lower).forM pushSlot) p fun _ p' => Traced s p p' b insn := by
  refine .seq (popWords_ensures top) ?_
  rintro upper _ ⟨rest1, hrest1, hupper, rfl⟩
  refine .seq (popWords_ensures below) ?_
  rintro lower _ ⟨rest2, hrest2, hlower, rfl⟩
  obtain rfl : rest1 = lower.reverse ++ rest2 := hrest2
  refine (pushSlots_ensures (pushed upper lower)).mono ?_
  rintro _ p' ⟨rfl, hfits⟩
  refine traced_withSlots h ?_ (hfits (.trans ?_ h.fits)) fun D R start env => ?_
  · intro slot hslot
    have hslot' := hpushed upper lower (a := slot)
    rw [hrest1]
    simp only [withStack, mem_append, mem_reverse] at hslot hslot' ⊢
    tauto
  · refine OperandStack.wordsOf_le_of_suffix ?_
    rw [hrest1, ← append_assoc]
    exact suffix_append _ _
  · have hmoved := hexec D (p.stack.content R start env) (p.stack.cell R start env) upper lower rest2
      hupper hlower
    rwa [← hrest1] at hmoved

lemma copyUnder_ensures (h : InBlock p b)
    (hexec : ∀ (D : Type) (frame : Machine.Frame D), Machine.exec frame insn =
      match Machine.copiedUnder top below frame.stack with
      | some stack => .silent { frame with stack }
      | none => .finish .stuck) :
    Ensures (copyUnder top below) p fun _ p' => Traced s p p' b insn := by
  refine shuffle_ensures h (fun upper lower slot hslot => ?_) fun D content cells upper lower rest
    hupper hlower => ?_
  · simp only [mem_append] at hslot ⊢
    tauto
  · simp only [hexec, Machine.copiedUnder, takeWords_frame content hupper, Option.bind_eq_bind,
      Option.bind_some, takeWords_frame content hlower]
    simp

end Shuffle

/-! ## All instructions -/

section Instructions

variable {s : Subject} {layout : Layout} {p p1 : Progress} {b : BlockId}

lemma valueTypeOf_ensures (ty : TypeRef) :
    Ensures (valueTypeOf ty) p fun kind p' => ty.valueType? = some kind ∧ p = p' := by
  unfold valueTypeOf
  split
  · next hkind => exact .pure ⟨hkind, rfl⟩
  · exact .fault _

lemma emitConst_ensures (h : InBlock p b) {value : Const}
    (hop : s.view = .identity → Machine.operation? insn = some (Machine.constant value)) :
    Ensures (emitConst value) p fun _ p' => Traced s p p' b insn :=
  (Popped.refl h).emitPushed_ensures rfl rfl hop

lemma emitCall_ensures {op : Op} (hpop : Popped p p1 b count vs) (hops : op.operands = vs)
    (hterm : op.isTerminator = false) (ret : TypeRef)
    (hop : s.view = .identity → Machine.operation? insn =
      (Machine.resultKind? ret).map fun result => ⟨count, op.form, result⟩) :
    Ensures (emitCall op ret) p1 fun _ p' => Traced s p p' b insn := by
  unfold emitCall
  split
  · next hvoid =>
      refine hpop.emit_ensures hops hterm fun hview => ?_
      rw [hop hview, Machine.resultKind?, if_pos hvoid]
      rfl
  · next hvoid =>
      refine .seq (valueTypeOf_ensures ret) ?_
      rintro kind _ ⟨hkind, rfl⟩
      refine hpop.emitPushed_ensures hops hterm fun hview => ?_
      rw [hop hview, Machine.resultKind?, if_neg hvoid, hkind]
      rfl

lemma form_replicate (count : Nat) (h : vs.length = count) :
    vs.map (fun _ => (⟨0⟩ : ValueId)) = replicate count ⟨0⟩ := by
  rw [map_const', h]

lemma Progress.Popped.length (h : Popped p p' b count vs) : vs.length = count := by
  rw [← h.values.length_eq, length_reverse, length_take]
  exact Nat.min_eq_left h.depth

section

variable (h : InBlock p b)
include h

lemma load_ensures (ty : ValueType) (slot : Nat) :
    Ensures (liftStep s layout (.load ty slot)) p fun _ p' => Traced s p p' b (.load ty slot) := by
  refine .seq (checkLocal_ensures s slot ty) ?_
  rintro _ _ rfl
  refine pushSlot_ensures.mono ?_
  rintro _ _ ⟨rfl, hfits⟩
  refine ⟨h.withStack ?_ h.locals h.distinct hfits, within_withStack h.sound _ b, none, rfl, ?_⟩
  · intro slot' hslot v hv
    rcases mem_cons.1 hslot with rfl | hslot
    · simp at hv
    · exact h.slots slot' hslot v hv
  · intro _ R S _ D start env _
    rfl

lemma store_ensures (ty : ValueType) (slot : Nat) :
    Ensures (liftStep s layout (.store ty slot)) p fun _ p' =>
      Traced s p p' b (.store ty slot) := by
  refine .seq (checkLocal_ensures s slot ty) ?_
  rintro _ _ rfl
  refine .seq (popValue_ensures h) ?_
  intro v p1 hpop
  refine .seq (rebindLocal_ensures hpop.inBlock slot (hpop.usable mem_cons_self) ty) ?_
  rintro _ p2 ⟨h2, hwithin, hinsns, hframe⟩
  refine .bind (.get ?_)
  refine (nameValue_ensures s layout h2 slot _ v).mono ?_
  rintro _ _ ⟨g, rfl, h3, hwithin', hinsns'⟩
  refine ⟨h3, (hpop.within.trans hwithin).trans hwithin', none,
    hinsns'.trans (hinsns.trans hpop.insns), ?_⟩
  intro _ R S hf D start env hag
  have hf2 := hf.of_within hwithin'
  obtain ⟨hpopped, hcells⟩ := hpop.frame (hf2.of_within hwithin) hag
  obtain ⟨kind, hslots⟩ := Machine.popValues?_one hpopped
  have hexec : Machine.exec (p.stack.frame R start env) (.store ty slot) =
      .silent ((p1.stack.frame R start env).setCell slot (env (R v))) := by
    rw [Machine.exec_eq_steer rfl, Machine.Frame.steer, Machine.Frame.withTop, hslots]
    simp only [← hcells]
  exact hexec.trans (congrArg _ (hframe D R S start env hf2 hag).symm)

lemma iinc_ensures (slot : Nat) (delta : Int32) :
    Ensures (liftStep s layout (.iinc slot delta)) p fun _ p' =>
      Traced s p p' b (.iinc slot delta) := by
  refine .seq (checkLocal_ensures s slot .int) ?_
  rintro _ _ rfl
  refine .seq (readLocal_ensures h slot .int) ?_
  rintro old p1 ⟨hs1, hread, husable, hstands⟩
  have h1 := h.read hread hs1
  have hops : ∀ v ∈ (Op.addLiteral .int old delta).operands, p1.Usable b v := by
    intro v hv
    rwa [mem_singleton.1 hv]
  refine .seq (emitValue_ensures h1 .int hops) ?_
  rintro v _ ⟨g, rfl, happ⟩
  have h2 := h1.append happ hops
  refine (rebindLocal_ensures h2 slot (usable_dest happ rfl) .int).mono ?_
  rintro _ p' ⟨h', hwithin, hinsns, hframe⟩
  have hnew : p1.func.insns.size < g.insns.size := by rw [happ.size_insns]; omega
  have hinsn := hwithin.later.insn ⟨p1.func.insns.size⟩ hnew
  have hop : (p'.func.insn ⟨p1.func.insns.size⟩).op =
      .addLiteral .int (p'.resolve old) delta := by
    rw [hinsn]
    change (g.insn ⟨p1.func.insns.size⟩).op.mapOperands p'.resolve = _
    rw [happ.insn_new.1]
    rfl
  have hdest : (p'.func.insn ⟨p1.func.insns.size⟩).dest = some v := by
    rw [hinsn]
    exact happ.insn_new.2.1
  have hwithin2 := within_append h1 happ
  refine ⟨h', ((hread.within b).trans hwithin2).trans hwithin,
    some (.addLiteral .int (p'.resolve old) delta, some v), ?_, ?_⟩
  · refine ⟨⟨p1.func.insns.size⟩, ?_, hop, hdest, rfl⟩
    rw [hinsns, ← hread.frame.insns b, withFunc, happ.block, if_pos rfl]
  · intro _ R S hf D start env hag
    have hold := hstands.content ((hf.of_within hwithin).of_within hwithin2) hag
    rw [hread.frame.stack] at hold
    refine ⟨(p.stack.frame R start env).setCell slot, ?_, fun d hd => ?_⟩
    · simp only [Op.operands, map_cons, map_nil, hf.resolve, ← hold]
      rfl
    · rw [hframe D R S start env hf hag, hd v rfl]
      change _ = (p1.stack.frame R start env).setCell slot d
      rw [hread.frame.stack]

lemma popTwo_ensures {β : Type} {k : ValueId → ValueId → Lifting β} {Q : β → Progress → Prop}
    (hk : ∀ left right p', Popped p p' b 2 [left, right] → Ensures (k right left) p' Q) :
    Ensures (do let right ← popValue; let left ← popValue; k right left) p Q := by
  refine .seq (popValue_ensures h) fun right p1 h1 => ?_
  exact .seq (popValue_ensures h1.inBlock) fun left p2 h2 => hk left right p2 (h1.cons h2)

lemma swap_ensures : Ensures (liftStep s layout .swap) p fun _ p' => Traced s p p' b .swap := by
  refine shuffle_ensures h (fun _ _ => Subset.refl _) fun D content cells upper lower rest
    hupper hlower => ?_
  rw [Machine.exec_eq_steer rfl]
  simp only [Machine.Frame.steer, Machine.shuffled?, takeWords_frame content hupper,
    Option.bind_eq_bind, Option.bind_some, takeWords_frame content hlower]
  simp

lemma drop_ensures (hexec : ∀ (D : Type) (frame : Machine.Frame D), Machine.exec frame insn =
      match (Machine.takeWords words frame.stack).map Prod.snd with
      | some stack => .silent { frame with stack }
      | none => .finish .stuck) :
    Ensures (discard (popWords words)) p fun _ p' => Traced s p p' b insn := by
  refine .discard ((popWords_ensures words).mono ?_)
  rintro slots _ ⟨rest, hrest, hwords, rfl⟩
  have hsuffix : rest <:+ p.stack.slots := hrest ▸ suffix_append _ _
  refine traced_withSlots h hsuffix.subset
    ((OperandStack.wordsOf_le_of_suffix hsuffix).trans h.fits) fun D R start env => ?_
  have hstack : (p.stack.frame R start env).stack =
      (slots.reverse ++ rest).map (shown (p.stack.content R start env)) := by
    rw [OperandStack.frame, hrest]
  rw [hexec, hstack, takeWords_frame _ hwords]
  rfl

/-- Every instruction behind which its range can go on is lifted as the stack machine runs it. -/
lemma liftStep_traces (insn : Instruction) (hends : insn.endsBlock = false) :
    Ensures (liftStep s layout insn) p fun _ p' => Traced s p p' b insn := by
  cases insn with
  | constNull | constInt value | constLong value | constFloat bits | constDouble bits
  | constString value =>
    exact emitConst_ensures h fun _ => rfl
  | constClass ty => exact emitConst_ensures h fun hview => by rw [hview]; rfl
  | constMethodType proto => exact emitConst_ensures h fun _ => rfl
  | constMethodHandle method =>
    exact emitConst_ensures h fun hview => by rw [Subject.methodName, hview]; rfl
  | load ty slot => exact load_ensures h ty slot
  | store ty slot => exact store_ensures h ty slot
  | iinc slot delta => exact iinc_ensures h slot delta
  | arrayLoad elem =>
    exact popTwo_ensures h fun _ _ _ hpop => hpop.emitPushed_ensures rfl rfl fun _ => rfl
  | arrayStore elem =>
    refine .seq (popValue_ensures h) fun value p1 h1 => ?_
    refine .seq (popValue_ensures h1.inBlock) fun index p2 h2 => ?_
    refine .seq (popValue_ensures h2.inBlock) fun array p3 h3 => ?_
    exact ((h1.cons h2).cons h3).emit_ensures rfl rfl fun _ => rfl
  | arrayLength =>
    exact .seq (popValue_ensures h) fun _ _ hpop =>
      hpop.emitPushed_ensures rfl rfl fun _ => rfl
  | arith op ty =>
    exact popTwo_ensures h fun _ _ _ hpop => hpop.emitPushed_ensures rfl rfl fun _ => rfl
  | neg ty | convert source target =>
    exact .seq (popValue_ensures h) fun _ _ hpop =>
      hpop.emitPushed_ensures rfl rfl fun _ => rfl
  | cmp ty bias =>
    exact popTwo_ensures h fun _ _ _ hpop => hpop.emitPushed_ensures rfl rfl fun _ => rfl
  | new ty =>
    exact (Popped.refl h).emitPushed_ensures rfl rfl fun hview => by rw [hview]; rfl
  | newArray ty =>
    exact .seq (popValue_ensures h) fun _ _ hpop =>
      hpop.emitPushed_ensures rfl rfl fun hview => by rw [hview]; rfl
  | multiNewArray ty dims =>
    refine .seq (popValues_ensures h dims) fun vs p1 hpop => ?_
    refine hpop.emitPushed_ensures rfl rfl fun hview => ?_
    rw [hview, Op.form, Op.mapOperands, form_replicate dims hpop.length]
    rfl
  | checkCast ty | instanceOf ty =>
    exact .seq (popValue_ensures h) fun _ _ hpop =>
      hpop.emitPushed_ensures rfl rfl fun hview => by rw [hview]; rfl
  | getField field =>
    refine .seq (popValue_ensures h) fun object p1 hpop => ?_
    refine .seq (valueTypeOf_ensures _) ?_
    rintro kind _ ⟨hkind, rfl⟩
    refine hpop.emitPushed_ensures rfl rfl fun hview => ?_
    rw [hview] at hkind ⊢
    have hkind : field.ty.valueType? = some kind := hkind
    change field.ty.valueType?.map _ = _
    rw [hkind]
    rfl
  | putField field =>
    exact popTwo_ensures h fun _ _ _ hpop =>
      hpop.emit_ensures rfl rfl fun hview => by rw [hview]; rfl
  | getStatic field =>
    refine .seq (valueTypeOf_ensures _) ?_
    rintro kind _ ⟨hkind, rfl⟩
    refine (Popped.refl h).emitPushed_ensures rfl rfl fun hview => ?_
    rw [hview] at hkind ⊢
    have hkind : field.ty.valueType? = some kind := hkind
    change field.ty.valueType?.map _ = _
    rw [hkind]
    rfl
  | putStatic field =>
    exact .seq (popValue_ensures h) fun _ _ hpop =>
      hpop.emit_ensures rfl rfl fun hview => by rw [hview]; rfl
  | invoke kind method =>
    refine .seq (popValues_ensures h _) fun vs p1 hpop => ?_
    refine emitCall_ensures hpop rfl rfl _ fun hview => ?_
    rw [hview, Op.form, Op.mapOperands, form_replicate _ hpop.length]
    rfl
  | invokeDynamic name proto bootstrap =>
    refine .seq (popValues_ensures h _) fun vs p1 hpop => ?_
    refine emitCall_ensures hpop rfl rfl _ fun hview => ?_
    rw [Subject.methodName, hview, Op.form, Op.mapOperands, form_replicate _ hpop.length]
    rfl
  | pop | pop2 => exact drop_ensures h fun D frame => Machine.exec_eq_steer rfl
  | dup | dupX1 | dupX2 | dup2 | dup2X1 | dup2X2 =>
    exact copyUnder_ensures h fun D frame => Machine.exec_eq_steer rfl
  | swap => exact swap_ensures h
  | monitorEnter | monitorExit =>
    exact .seq (popValue_ensures h) fun _ _ hpop => hpop.emit_ensures rfl rfl fun _ => rfl
  | label name | nop =>
    exact .pure (traced_withSlots h (List.Subset.refl _) h.fits fun _ _ _ _ =>
      Machine.exec_eq_steer rfl)
  | _ => exact Bool.noConfusion (show true = false from hends)

lemma liftStep_ensures (insn : Instruction) (hends : insn.endsBlock = false) :
    Ensures (liftStep s layout insn) p fun _ p' => Stepped s p p' b insn :=
  (liftStep_traces h insn hends).mono fun _ _ htraced => htraced.stepped h

end

end Instructions

end Dissolve.Lift
