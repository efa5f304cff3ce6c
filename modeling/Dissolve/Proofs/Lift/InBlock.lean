import Dissolve.Proofs.Lift.Emission
import Dissolve.Proofs.Semantics.Machine

/-!
# Proofs.Lift.InBlock — the simulated stack while one block is lifted

`Progress.InBlock p b` says that block `b` is being lifted and that every value on the simulated
stack and in the local variables is available there. Popping resolves slots to values that stand for
them (`Progress.Stands`).

What a slot stands for is said by `OperandStack.frame`: given what the variables hold at the start of
the block and an environment of the values, the simulated stack describes a frame of the stack
machine. Values are replaced while lifting goes on, so the frame is read through a map `R` from values
to those that stand for them in the end.
-/

namespace Dissolve.Lift

open List
open Ssa (Function Op)

variable {p p' : Progress} {b : BlockId} {v : ValueId} {op : Op} {count : Nat} {vs : List ValueId}
  {slot : Slot} {slots : List Slot} {src : Source}

/-! ## Frames described by a simulated stack -/

namespace OperandStack

lemma wordsOf_cons (slot : Slot) (slots : List Slot) :
    wordsOf (slot :: slots) = slot.ty.slots + wordsOf slots := rfl

lemma wordsOf_append (slots slots' : List Slot) :
    wordsOf (slots ++ slots') = wordsOf slots + wordsOf slots' := by
  induction slots with
  | nil => simp [wordsOf]
  | cons slot rest ih => rw [cons_append, wordsOf_cons, wordsOf_cons, ih, Nat.add_assoc]

lemma wordsOf_le_of_suffix {slots' : List Slot} (h : slots <:+ slots') :
    wordsOf slots ≤ wordsOf slots' := by
  obtain ⟨front, rfl⟩ := h
  rw [wordsOf_append]
  exact Nat.le_add_left _ _

variable {D : Type} (st : OperandStack) (R : ValueId → ValueId) (start : Variable → D)
  (env : ValueId → D)

def cell (index : Nat) : D :=
  match st.local? index with
  | some (v, _) => env (R v)
  | none => start (.slot index)

def content : Source → D
  | .value v => env (R v)
  | .slot index => st.cell R start env index
  | .incoming index => start (.stackPlace index)

/-- The frame of the stack machine that a simulated stack describes. -/
def frame : Machine.Frame D where
  stack := st.slots.map fun slot => (st.content R start env slot.source, slot.ty)
  cells := st.cell R start env

end OperandStack

namespace Progress

def Stands (p : Progress) (b : BlockId) (v : ValueId) : Source → Prop
  | .value w => p.resolve w = v
  | .slot index =>
    match p.stack.local? index with
    | some (w, _) => p.resolve w = v
    | none => p.Holds b (.slot index) v
  | .incoming index => p.Holds b (.stackPlace index) v

/-- Block `b` is being lifted. -/
structure InBlock (p : Progress) (b : BlockId) : Prop where
  sound : p.Sound []
  honest : p.Honest []
  current : p.current = b
  lt : b.index < p.func.blocks.size
  unlifted : b ∉ p.done
  slots : ∀ slot ∈ p.stack.slots, ∀ v, slot.source = .value v → p.Usable b (p.resolve v)
  locals : ∀ index v ty, p.stack.local? index = some (v, ty) → p.Usable b (p.resolve v)
  distinct : p.stack.locals.keys.Nodup
  fits : p.stack.words ≤ p.stack.maxStack

/-- A later stage of work on block `b`. -/
structure Alongside (p p' : Progress) (b : BlockId) : Prop where
  later : Later p p' [] []
  blockOf : p'.blockOf = p.blockOf
  shapes : p'.shapes = p.shapes
  done : p'.done = p.done
  closed : p'.closed = p.closed
  insns : ∀ c, c ≠ b → (p'.func.block c).insns = (p.func.block c).insns
  holds : ∀ c x v, p.Holds c x v → p'.Holds c x (p'.resolve v)
  limit : p'.stack.maxStack = p.stack.maxStack

/-- A later stage of lifting the instructions of block `b`. -/
structure Within (p p' : Progress) (b : BlockId) : Prop extends Alongside p p' b where
  unheld : ∀ c, p.IsRoot c → ∀ x, p.held.get? (c, x) = none → p'.held.get? (c, x) = none

section Within

variable {p'' : Progress} {c : BlockId}

lemma Alongside.trans (h : Alongside p p' b) (h' : Alongside p' p'' b) : Alongside p p'' b :=
  ⟨h.later.trans h'.later, h'.blockOf.trans h.blockOf, h'.shapes.trans h.shapes,
    h'.done.trans h.done, h'.closed.trans h.closed,
    fun c hc => (h'.insns c hc).trans (h.insns c hc), fun c x v hv => by
      rw [← h'.later.resolve]
      exact h'.holds c x _ (h.holds c x v hv), h'.limit.trans h.limit⟩

lemma Within.of_held_eq (h : Alongside p p' b) (hheld : p'.held = p.held) : Within p p' b :=
  ⟨h, fun _ _ _ hnone => by rw [hheld, hnone]⟩

lemma Within.refl (h : p.Sound []) (b : BlockId) : Within p p b :=
  .of_held_eq ⟨Later.refl h, rfl, rfl, rfl, rfl, fun _ _ => rfl, (Read.refl h).holds, rfl⟩ rfl

lemma Within.trans (h : Within p p' b) (h' : Within p' p'' b) : Within p p'' b :=
  ⟨h.toAlongside.trans h'.toAlongside, fun c hroot x hnone =>
    h'.unheld c (h.later.isRoot hroot) x (h.unheld c hroot x hnone)⟩

lemma Read.within (h : Read p p' [] []) (b : BlockId) : Within p p' b :=
  ⟨⟨h.later, h.frame.blockOf, h.frame.shapes, h.frame.done, h.closed, fun c _ => h.frame.insns c,
    h.holds, by rw [h.frame.stack]⟩, h.unheld⟩

lemma InBlock.read (h : InBlock p b) (hread : Read p p' [] []) (hs : p'.Sound []) :
    InBlock p' b where
  sound := hs
  honest := hread.honest h.honest
  current := hread.frame.current.trans h.current
  lt := hread.later.size_blocks ▸ h.lt
  unlifted := hread.frame.done ▸ h.unlifted
  slots slot hslot v hv := by
    rw [hread.frame.stack] at hslot
    rw [← hread.later.resolve]
    exact hread.later.usable b _ (h.slots slot hslot v hv)
  locals index v ty hv := by
    rw [hread.frame.stack] at hv
    rw [← hread.later.resolve]
    exact hread.later.usable b _ (h.locals index v ty hv)
  distinct := hread.frame.stack ▸ h.distinct
  fits := hread.frame.stack ▸ h.fits

lemma Usable.read (h : p.Usable c v) (hread : Read p p' [] []) (hs : p'.Sound []) :
    p'.Usable c v := by
  have husable := hread.later.usable c v h
  rwa [hread.resolve_kept hs h] at husable

lemma Stands.read (h : p.Stands b v src) (hv : p.Usable b v)
    (hread : Read p p' [] []) (hs : p'.Sound []) : p'.Stands b v src := by
  have hkept := hread.resolve_kept hs hv
  have hres : ∀ w, p.resolve w = v → p'.resolve w = v := by
    intro w hw
    rw [← hread.later.resolve, hw, hkept]
  have hholds : ∀ x, p.Holds b x v → p'.Holds b x v := by
    intro x hx
    have := hread.holds b x v hx
    rwa [hkept] at this
  cases src with
  | value w => exact hres w h
  | incoming index => exact hholds _ h
  | slot index =>
    simp only [Stands, hread.frame.stack] at h ⊢
    split at h
    · exact hres _ h
    · exact hholds _ h

/-! ## Changes of the stack -/

def setting (p : Progress) (stack : OperandStack) (shapes : Assoc Nat (List ValueType))
    (current : BlockId) (offset : Nat) : Progress :=
  { p with stack, shapes, current, offset }

section Setting

variable {gaps : List Gap} {stack : OperandStack} {shapes : Assoc Nat (List ValueType)}
  {current : BlockId} {offset : Nat}

lemma sound_setting (hs : p.Sound gaps) : (p.setting stack shapes current offset).Sound gaps :=
  { hs with }

lemma later_setting (hs : p.Sound gaps) :
    Later p (p.setting stack shapes current offset) gaps gaps :=
  { Later.refl hs with }

lemma within_setting (hs : p.Sound []) (b : BlockId)
    (hlimit : stack.maxStack = p.stack.maxStack := by rfl) :
    Within p (p.setting stack p.shapes current offset) b :=
  .of_held_eq ⟨later_setting hs, rfl, rfl, rfl, rfl, fun _ _ => rfl,
    fun _ _ _ hv => (later_setting hs).holds_of_held_eq rfl hv, hlimit⟩ rfl

end Setting

def withStack (p : Progress) (st : OperandStack) : Progress :=
  { p with stack := st }

lemma within_withStack (hs : p.Sound []) (st : OperandStack) (b : BlockId)
    (hlimit : st.maxStack = p.stack.maxStack := by rfl) : Within p (p.withStack st) b :=
  within_setting hs b hlimit

lemma InBlock.withStack (h : InBlock p b) {st : OperandStack}
    (hslots : ∀ slot ∈ st.slots, ∀ v, slot.source = .value v → p.Usable b (p.resolve v))
    (hlocals : ∀ index v ty, st.local? index = some (v, ty) → p.Usable b (p.resolve v))
    (hdistinct : st.locals.keys.Nodup) (hfits : st.words ≤ st.maxStack) :
    InBlock (p.withStack st) b :=
  { h with
    sound := sound_setting h.sound
    slots := hslots
    locals := hlocals
    distinct := hdistinct
    fits := hfits }

lemma InBlock.withSlots (h : InBlock p b) (hsub : slots ⊆ p.stack.slots)
    (hfits : OperandStack.wordsOf slots ≤ p.stack.maxStack) :
    InBlock (p.withStack { p.stack with slots }) b :=
  h.withStack (fun slot hslot => h.slots slot (hsub hslot)) h.locals h.distinct hfits

lemma InBlock.dropSlots (h : InBlock p b) (hdrop : slots <:+ p.stack.slots) :
    InBlock (p.withStack { p.stack with slots }) b :=
  h.withSlots hdrop.subset ((OperandStack.wordsOf_le_of_suffix hdrop).trans h.fits)

end Within

/-! ## Popping -/

/-- The top `count` slots are popped and resolved, the lowest first. -/
structure Popped (p p' : Progress) (b : BlockId) (count : Nat) (vs : List ValueId) : Prop where
  origin : InBlock p b
  inBlock : InBlock p' b
  within : Within p p' b
  insns : (p'.func.block b).insns = (p.func.block b).insns
  stack : p'.stack = { p.stack with slots := p.stack.slots.drop count }
  depth : count ≤ p.stack.slots.length
  values : List.Forall₂ (fun slot v => p'.Usable b v ∧ p'.Stands b v slot.source)
    (p.stack.slots.take count).reverse vs
  kept : ∀ v src, p.Usable b v → p.Stands b v src → p'.Usable b v ∧ p'.Stands b v src

lemma Popped.refl (h : InBlock p b) : Popped p p b 0 [] :=
  ⟨h, h, Within.refl h.sound b, rfl, by simp, Nat.zero_le _, by simp, fun _ _ hv hst => ⟨hv, hst⟩⟩

lemma Popped.usable (h : Popped p p' b count vs) (hv : v ∈ vs) : p'.Usable b v := by
  obtain ⟨j, hj, rfl⟩ := getElem_of_mem hv
  have hj' := h.values.length_eq ▸ hj
  exact (h.values.get hj' hj).1

end Progress

open Progress

section Pop

variable {p'' : Progress}

lemma readLocal_ensures (h : InBlock p b) (index : Nat) (ty : ValueType) :
    Ensures (readLocal index ty) p fun v p' =>
      p'.Sound [] ∧ Read p p' [] [] ∧ p'.Usable b v ∧ p'.Stands b v (.slot index) := by
  refine .bind (.get ?_)
  cases hlocal : p.stack.local? index with
  | some w =>
    obtain ⟨w, kind⟩ := w
    refine .pure ⟨h.sound, Read.refl h.sound, h.locals index w kind hlocal, ?_⟩
    simp [Stands, hlocal]
  | none =>
    simp only [h.current]
    refine (readFrom_ensures (.slot index) ty p [] b h.sound h.lt).mono ?_
    rintro v p' ⟨hs', hread, hv⟩
    refine ⟨hs', hread, hs'.held_usable b _ v hv, ?_⟩
    simp only [Stands, hread.frame.stack, hlocal]
    exact hv

lemma resolveSlot_ensures (h : InBlock p b)
    (hslot : ∀ v, slot.source = .value v → p.Usable b (p.resolve v)) :
    Ensures (resolveSlot slot) p fun v p' =>
      p'.Sound [] ∧ Read p p' [] [] ∧ p'.Usable b v ∧ p'.Stands b v slot.source := by
  refine .bind (.get ?_)
  cases hsource : slot.source with
  | value w => exact .pure ⟨h.sound, Read.refl h.sound, hslot w hsource, rfl⟩
  | slot index => exact readLocal_ensures h index slot.ty
  | incoming index =>
    simp only [h.current]
    refine (readFrom_ensures (.stackPlace index) slot.ty p [] b h.sound h.lt).mono ?_
    rintro v p' ⟨hs', hread, hv⟩
    exact ⟨hs', hread, hs'.held_usable b _ v hv, hv⟩

lemma resolveSlots_ensures (h : InBlock p b)
    (hslots : ∀ slot ∈ slots, ∀ v, slot.source = .value v → p.Usable b (p.resolve v)) :
    Ensures (slots.mapM resolveSlot) p fun vs p' => p'.Sound [] ∧ Read p p' [] [] ∧
      List.Forall₂ (fun slot v => p'.Usable b v ∧ p'.Stands b v slot.source) slots vs := by
  refine (Ensures.mapM (I := fun rest vs p' => p'.Sound [] ∧ Read p p' [] [] ∧
    ∃ seen, slots = seen ++ rest ∧
      List.Forall₂ (fun slot v => p'.Usable b v ∧ p'.Stands b v slot.source) seen vs)
    ⟨h.sound, Read.refl h.sound, [], rfl, List.Forall₂.nil⟩ ?_).mono ?_
  · rintro slot rest vs p' ⟨hs', hread, seen, hseen, hall⟩
    have hslot : ∀ v, slot.source = .value v → p'.Usable b (p'.resolve v) := by
      intro v hv
      rw [← hread.later.resolve]
      exact hread.later.usable b _ (hslots slot (by simp [hseen]) v hv)
    refine (resolveSlot_ensures (h.read hread hs') hslot).mono ?_
    rintro v p'' ⟨hs'', hread', husable, hstands⟩
    refine ⟨hs'', hread.trans hread', seen ++ [slot], by simp [hseen], ?_⟩
    refine rel_append (hall.imp fun slot v hv => ?_)
      (List.Forall₂.cons ⟨husable, hstands⟩ List.Forall₂.nil)
    exact ⟨hv.1.read hread' hs'', hv.2.read hv.1 hread' hs''⟩
  · rintro vs p' ⟨hs', hread, seen, hseen, hall⟩
    rw [append_nil] at hseen
    exact ⟨hs', hread, hseen ▸ hall⟩

lemma popped_of_read (h : InBlock p b) (hdepth : count ≤ p.stack.slots.length) (hs' : p'.Sound [])
    (hread : Read (p.withStack { p.stack with slots := p.stack.slots.drop count }) p' [] [])
    (hvs : List.Forall₂ (fun slot v => p'.Usable b v ∧ p'.Stands b v slot.source)
      (p.stack.slots.take count).reverse vs) : Popped p p' b count vs := by
  refine ⟨h, (h.dropSlots (drop_suffix _ _)).read hread hs',
    (within_withStack h.sound _ b).trans (hread.within b), hread.frame.insns b, hread.frame.stack,
    hdepth, hvs, fun v src hv hst => ?_⟩
  have hst' : (p.withStack { p.stack with slots := p.stack.slots.drop count }).Stands b v src := by
    cases src <;> exact hst
  have hv' : (p.withStack { p.stack with slots := p.stack.slots.drop count }).Usable b v := hv
  exact ⟨hv'.read hread hs', hst'.read hv' hread hs'⟩

lemma popSlot_ensures : Ensures popSlot p fun slot p' =>
    ∃ rest, p.stack.slots = slot :: rest ∧ p' = p.withStack { p.stack with slots := rest } := by
  refine .bind (.get ?_)
  cases hslots : p.stack.slots with
  | nil =>
    refine .bind (.liftExcept (fun a ha => ?_) fun e he => ?_)
    · simp [OperandStack.pop, hslots] at ha
    · simp only [OperandStack.pop, hslots, Except.error.injEq] at he
      rw [← he]
      trivial
  | cons slot rest =>
    refine .bind (.liftExcept (fun a ha => ?_) fun e he => ?_)
    · simp only [OperandStack.pop, hslots, Except.ok.injEq] at ha
      subst ha
      exact .bind (.set (.pure ⟨rest, rfl, rfl⟩))
    · simp [OperandStack.pop, hslots] at he

lemma popValue_ensures (h : InBlock p b) : Ensures popValue p fun v p' => Popped p p' b 1 [v] := by
  refine .seq popSlot_ensures ?_
  rintro slot p1 ⟨rest, hslots, rfl⟩
  have hdrop : rest = p.stack.slots.drop 1 := by rw [hslots]; rfl
  have hblock : InBlock (p.withStack { p.stack with slots := rest }) b :=
    h.dropSlots (by rw [hslots]; exact suffix_cons _ _)
  refine (resolveSlot_ensures hblock (h.slots slot (by simp [hslots]))).mono ?_
  rintro v p' ⟨hs', hread, husable, hstands⟩
  refine popped_of_read h (by simp [hslots]) hs' (hdrop ▸ hread) ?_
  rw [hslots]
  exact List.Forall₂.cons ⟨husable, hstands⟩ List.Forall₂.nil

lemma popValues_ensures (h : InBlock p b) (count : Nat) :
    Ensures (popValues count) p fun vs p' => Popped p p' b count vs := by
  refine .bind (.get ?_)
  refine .bind (.liftExcept (fun a ha => ?_) fun e he => ?_)
  · unfold OperandStack.popMany at ha
    split at ha
    · next hdepth =>
        obtain rfl := Except.ok.inj ha
        refine .bind (.set ?_)
        have hblock : InBlock (p.withStack { p.stack with slots := p.stack.slots.drop count }) b :=
          h.dropSlots (drop_suffix _ _)
        refine (resolveSlots_ensures hblock fun slot hslot => ?_).mono ?_
        · exact h.slots slot (mem_of_mem_take (mem_reverse.1 hslot))
        · rintro vs p' ⟨hs', hread, hvs⟩
          exact popped_of_read h hdepth hs' hread hvs
    · exact absurd ha (by simp)
  · unfold OperandStack.popMany at he
    split at he
    · exact absurd he (by simp)
    · rw [← Except.error.inj he]
      trivial

lemma Progress.Popped.cons (h : Popped p p' b count vs) (h' : Popped p' p'' b 1 [v]) :
    Popped p p'' b (count + 1) (v :: vs) := by
  have hdrop : p'.stack.slots = p.stack.slots.drop count := by rw [h.stack]
  have hlt : count < p.stack.slots.length := by
    have hdepth := h'.depth
    rw [hdrop, length_drop] at hdepth
    omega
  have htop : p'.stack.slots.take 1 = [p.stack.slots[count]] := by
    rw [hdrop, drop_eq_getElem_cons hlt]
    rfl
  refine ⟨h.origin, h'.inBlock, h.within.trans h'.within, h'.insns.trans h.insns, ?_, hlt, ?_, ?_⟩
  · rw [h'.stack, h.stack]
    simp
  · have hv := h'.values
    rw [htop, reverse_singleton] at hv
    rw [take_succ_eq_append_getElem hlt, reverse_append, reverse_singleton]
    exact rel_append hv (h.values.imp fun slot w hw => h'.kept w slot.source hw.1 hw.2)
  · intro w src hw hst
    obtain ⟨hw', hst'⟩ := h.kept w src hw hst
    exact h'.kept w src hw' hst'

end Pop

/-! ## What the values stand for in the end -/

section Foresight

variable {D : Type} {R : ValueId → ValueId} {S : Variable → Option ValueId} {start : Variable → D}
  {env : ValueId → D}

/-- Variables hold at the start of a block what the environment gives to the values recorded for
them. -/
def Agree (R : ValueId → ValueId) (S : Variable → Option ValueId) (start : Variable → D)
    (env : ValueId → D) : Prop :=
  ∀ x w, S x = some w → start x = env (R w)

namespace Progress

/-- `R` and `S` are what values stand for and what a block starts with, seen from a later stage. -/
structure Foresees (p : Progress) (b : BlockId) (R : ValueId → ValueId)
    (S : Variable → Option ValueId) : Prop where
  resolve : ∀ v, R (p.resolve v) = R v
  held : ∀ x v, p.Holds b x v → ∃ w, S x = some w ∧ R w = R v

lemma Foresees.of_within (h : Foresees p' b R S) (hw : Within p p' b) : Foresees p b R S where
  resolve v := by rw [← h.resolve (p.resolve v), hw.later.resolve, h.resolve]
  held x v hv := by
    obtain ⟨w, hw', heq⟩ := h.held x _ (hw.holds b x v hv)
    exact ⟨w, hw', heq.trans (h.resolve v)⟩

lemma Stands.content (h : p.Stands b v src) (hf : Foresees p b R S) (hag : Agree R S start env) :
    p.stack.content R start env src = env (R v) := by
  have hres : ∀ w, p.resolve w = v → env (R w) = env (R v) := by
    rintro w rfl
    rw [hf.resolve]
  have hheld : ∀ x, p.Holds b x v → start x = env (R v) := by
    intro x hx
    obtain ⟨w, hw, heq⟩ := hf.held x v hx
    rw [hag x w hw, heq]
  cases src with
  | value w => exact hres w h
  | incoming index => exact hheld _ h
  | slot index =>
    simp only [Stands] at h
    simp only [OperandStack.content, OperandStack.cell]
    split at h
    · exact hres _ h
    · exact hheld _ h

end Progress

lemma OperandStack.content_slots (st : OperandStack) (slots : List Slot) (src : Source) :
    ({ st with slots } : OperandStack).content R start env src = st.content R start env src := by
  cases src <;> rfl

/-- What was popped is what the frame had on top. -/
theorem Progress.Popped.frame (h : Popped p p' b count vs)
    (hf : Foresees p' b R S) (hag : Agree R S start env) :
    Machine.popValues? count (p.stack.frame R start env).stack =
        some (vs.map fun v => env (R v), (p'.stack.frame R start env).stack) ∧
      (p'.stack.frame R start env).cells = (p.stack.frame R start env).cells := by
  have hcontent : ∀ src, p'.stack.content R start env src = p.stack.content R start env src := by
    intro src
    rw [h.stack]
    exact p.stack.content_slots _ src
  have hvalues : ((p.stack.slots.take count).reverse.map fun slot =>
      p.stack.content R start env slot.source) = vs.map fun v => env (R v) := by
    refine forall₂_eq_eq_eq ▸ ?_
    rw [forall₂_map_left_iff, forall₂_map_right_iff]
    exact h.values.imp fun slot v hv => by rw [← hcontent, hv.2.content hf hag]
  refine ⟨?_, ?_⟩
  · have hlen : count ≤ (p.stack.frame R start env).stack.length := by
      simpa [OperandStack.frame] using h.depth
    rw [Machine.popValues?, if_pos hlen, ← hvalues]
    simp only [OperandStack.frame, h.stack, OperandStack.content_slots, ← map_take,
      map_map, map_drop, map_reverse]
    rfl
  · rw [h.stack]
    rfl

end Foresight

/-! ## Pushing and emitting -/

section Emit

lemma pushSlot_ensures : Ensures (pushSlot slot) p fun _ p' =>
    p' = p.withStack { p.stack with slots := slot :: p.stack.slots } ∧
      OperandStack.wordsOf (slot :: p.stack.slots) ≤ p.stack.maxStack := by
  refine .bind (.get ?_)
  refine .bind (.liftExcept (fun a ha => ?_) fun e he => ?_)
  · unfold OperandStack.push at ha
    split at ha
    · next hfits =>
        obtain rfl := Except.ok.inj ha
        refine .set ⟨rfl, ?_⟩
        rwa [OperandStack.wordsOf_cons, Nat.add_comm]
    · exact absurd ha (by simp)
  · unfold OperandStack.push at he
    split at he
    · exact absurd he (by simp)
    · rw [← Except.error.inj he]
      trivial

namespace Progress

variable {g : Function} {dest : Option ValueId}

def withFunc (p : Progress) (g : Function) : Progress :=
  { p with func := g }

lemma InBlock.append (h : InBlock p b) (happ : p.func.Appends g b op dest)
    (hops : ∀ v ∈ op.operands, p.Usable b v) : InBlock (p.withFunc g) b where
  sound := sound_append happ h.sound hops
  honest := (later_append happ h.sound).honest_of_held_eq rfl h.honest
  current := h.current
  lt := happ.size_blocks ▸ h.lt
  unlifted := h.unlifted
  slots slot hslot v hv := (keeps_append happ).usable h.sound (h.slots slot hslot v hv)
  locals index v ty hv := (keeps_append happ).usable h.sound (h.locals index v ty hv)
  distinct := h.distinct
  fits := h.fits

lemma within_append (h : InBlock p b) (happ : p.func.Appends g b op dest) :
    Within p (p.withFunc g) b := by
  have hlater := later_append happ h.sound
  refine .of_held_eq ⟨hlater, rfl, rfl, rfl, rfl, fun c hc => ?_, fun c x v hv =>
    hlater.holds_of_held_eq rfl hv, rfl⟩ rfl
  rw [withFunc, happ.block, if_neg hc]

lemma InBlock.name (h : InBlock p b) (v : ValueId) (name : String) :
    InBlock (p.nameValue v name) b where
  sound := sound_nameValue v name h.sound
  honest := (later_nameValue v name h.sound).honest_of_held_eq rfl h.honest
  current := h.current
  lt := h.lt
  unlifted := h.unlifted
  slots slot hslot w hw := (keeps_nameValue v name).usable h.sound (h.slots slot hslot w hw)
  locals index w ty hw := (keeps_nameValue v name).usable h.sound (h.locals index w ty hw)
  distinct := h.distinct
  fits := h.fits

lemma within_name (hs : p.Sound []) (v : ValueId) (name : String) (b : BlockId) :
    Within p (p.nameValue v name) b :=
  .of_held_eq ⟨later_nameValue v name hs, rfl, rfl, rfl, rfl, fun _ _ => rfl, fun _ _ _ hv =>
    (later_nameValue v name hs).holds_of_held_eq rfl hv, rfl⟩ rfl

end Progress

lemma emit_ensures (h : InBlock p b) (hops : ∀ v ∈ op.operands, p.Usable b v) :
    Ensures (emit op) p fun _ p' =>
      ∃ g, p' = p.withFunc g ∧ p.func.Appends g b op none := by
  refine .bind (.get (.discard (.build ?_)))
  obtain rfl := h.current
  exact ⟨_, rfl, Function.appends_appendInsn _ h.sound.flow.exact h.lt fun v hv => (hops v hv).lt⟩

lemma emitValue_ensures (h : InBlock p b) (ty : ValueType)
    (hops : ∀ v ∈ op.operands, p.Usable b v) :
    Ensures (emitValue op ty) p fun v p' =>
      ∃ g, p' = p.withFunc g ∧ p.func.Appends g b op (some v) := by
  refine .bind (.get (.bind (.build (.pure ?_))))
  obtain rfl := h.current
  exact ⟨_, rfl, Function.appends_appendValue _ h.sound.flow.exact h.lt
    (fun v hv => (hops v hv).lt) ty⟩

end Emit

end Dissolve.Lift
