import Dissolve.Proofs.Lift.RangeSteps

/-!
# Proofs.Lift.Leaving — a lifted range is left

When the last instruction of a range is lifted, the block records what the variables hold at its
end, passes the shape of its stack on to its successors and is marked as lifted. `Recorded` says what
is recorded: the slots of the stack, the local variables that were written, and for the others what
the block started with. `leaveRange_ensures` says what holds afterwards.
-/

namespace Dissolve.Lift

open List
open Ssa (Function Op)
open Progress

variable {st : OperandStack} {v : ValueId} {x : Variable} {values : List ValueId}

/-! ## Recording values -/

namespace Progress

def record (b : BlockId) (entries : List (Variable × ValueId)) (p : Progress) : Progress :=
  entries.foldl (fun p e => p.hold b e.1 e.2) p

variable {p : Progress} {b c : BlockId} {entries : List (Variable × ValueId)}

lemma record_cons (e : Variable × ValueId) :
    p.record b (e :: entries) = (p.hold b e.1 e.2).record b entries := rfl

lemma record_append (more : List (Variable × ValueId)) :
    p.record b (entries ++ more) = (p.record b entries).record b more :=
  foldl_append

lemma record_same (b : BlockId) (entries : List (Variable × ValueId)) (p : Progress) :
    p.record b entries = { p with held := (p.record b entries).held } := by
  induction entries generalizing p with
  | nil => rfl
  | cons e rest ih =>
    rw [record_cons, ih (p.hold b e.1 e.2)]
    rfl

lemma get?_record_ne (hc : c ≠ b) (x : Variable) :
    (p.record b entries).held.get? (c, x) = p.held.get? (c, x) := by
  induction entries generalizing p with
  | nil => rfl
  | cons e rest ih =>
    rw [record_cons, ih, hold, Assoc.get?_insert, if_neg]
    rintro heq
    exact hc (Prod.mk.inj heq).1.symm

lemma get?_record_of_not_mem (hx : x ∉ entries.map Prod.fst) :
    (p.record b entries).held.get? (b, x) = p.held.get? (b, x) := by
  induction entries generalizing p with
  | nil => rfl
  | cons e rest ih =>
    rw [map_cons, mem_cons, not_or] at hx
    rw [record_cons, ih hx.2, hold, Assoc.get?_insert, if_neg]
    rintro heq
    exact hx.1 (Prod.mk.inj heq).2.symm

lemma get?_record_of_mem (hnodup : (entries.map Prod.fst).Nodup)
    (hx : (x, v) ∈ entries) : (p.record b entries).held.get? (b, x) = some v := by
  induction entries generalizing p with
  | nil => simp at hx
  | cons e rest ih =>
    obtain ⟨hnot, hrest⟩ := nodup_cons.1 hnodup
    rw [record_cons]
    rcases mem_cons.1 hx with rfl | hx
    · rw [get?_record_of_not_mem hnot, hold, Assoc.get?_insert, if_pos rfl]
    · exact ih hrest hx

lemma resolve_record (v : ValueId) : (p.record b entries).resolve v = p.resolve v := by
  rw [record_same]
  rfl

lemma func_record : (p.record b entries).func = p.func := by
  rw [record_same]

lemma record_spec (hs : p.Sound []) (hb : b ∉ p.done)
    (hentries : ∀ e ∈ entries, p.Usable b (p.resolve e.2)) :
    (p.record b entries).Sound [] ∧ Later p (p.record b entries) [] [] := by
  induction entries generalizing p with
  | nil => exact ⟨hs, Later.refl hs⟩
  | cons e rest ih =>
    have hs' := sound_hold (x := e.1) hs (hentries e mem_cons_self)
    have hlater : Later p (p.hold b e.1 e.2) [] [] :=
      later_hold hs (fun hc => absurd hc hb) (fun hc => absurd hc hb) fun hc => absurd hc hb
    obtain ⟨hsound, hlater'⟩ := ih hs' hb fun e' he' => hentries e' (mem_cons_of_mem e he')
    exact ⟨hsound, hlater.trans hlater'⟩

lemma honest_mark_record (hs : p.Sound []) (hp : p.Honest []) (hb : b ∉ p.done)
    (hentries : ∀ e ∈ entries, p.Usable b (p.resolve e.2)) :
    ((p.record b entries).mark b).Honest [] := by
  obtain ⟨hsound, hlater⟩ := record_spec hs hb hentries
  have hall := hlater.trans (later_mark (b := b) hsound)
  rintro c x v hc ⟨w, hw, rfl⟩
  have hdone : (p.record b entries).done = p.done := by rw [record_same]
  rw [mark, mem_cons, not_or, hdone] at hc
  have hw' : p.held.get? (c, x) = some w := (get?_record_ne hc.1 x).symm.trans hw
  have hstarts := hall.starts c x _ (hp c x _ hc.2 ⟨w, hw', rfl⟩)
  rwa [hall.resolve] at hstarts

end Progress

def stackEntries (values : List ValueId) : List (Variable × ValueId) :=
  values.zipIdx.map fun e => (.stackPlace e.2, e.1)

def localEntries (p : Progress) (written : List (Nat × ValueId × ValueType)) :
    List (Variable × ValueId) :=
  written.map fun e => (.slot e.1, p.resolve e.2.1)

section Record

variable {p p1 : Progress} {b : BlockId}

lemma foldl_stackEntries (values : List ValueId) (b : BlockId) (p : Progress) :
    values.zipIdx.foldl (fun p (v, index) => p.hold b (.stackPlace index) v) p =
      p.record b (stackEntries values) := by
  rw [record, stackEntries, foldl_map]

lemma foldl_localEntries (written : List (Nat × ValueId × ValueType)) (b : BlockId) (p : Progress) :
    written.foldl (fun p (slot, v, _) => p.hold b (.slot slot) (p.resolve v)) p =
      p.record b (localEntries p written) := by
  induction written generalizing p with
  | nil => rfl
  | cons e rest ih => exact ih (p.hold b (.slot e.1) (p.resolve e.2.1))

lemma mem_stackEntries :
    (x, v) ∈ stackEntries values ↔ ∃ i, x = .stackPlace i ∧ values[i]? = some v := by
  simp only [stackEntries, mem_map, Prod.exists, mem_zipIdx_iff_getElem?, Prod.mk.injEq]
  constructor
  · rintro ⟨w, i, hi, rfl, rfl⟩
    exact ⟨i, rfl, hi⟩
  · rintro ⟨i, rfl, hi⟩
    exact ⟨v, i, hi, rfl, rfl⟩

lemma OperandStack.mem_writtenLocals (h : st.locals.keys.Nodup) {i : Nat}
    {e : ValueId × ValueType} : (i, e) ∈ st.writtenLocals ↔ st.local? i = some e := by
  rw [OperandStack.local?, Assoc.get?_eq_some_iff_mem h]
  exact (perm_sortBy _ _).mem_iff

lemma mem_localEntries (h : st.locals.keys.Nodup) : (x, v) ∈ localEntries p st.writtenLocals ↔
      ∃ i w ty, x = .slot i ∧ st.local? i = some (w, ty) ∧ p.resolve w = v := by
  simp only [localEntries, mem_map, Prod.exists, OperandStack.mem_writtenLocals h, Prod.mk.injEq]
  constructor
  · rintro ⟨i, w, ty, hi, rfl, rfl⟩
    exact ⟨i, w, ty, rfl, hi, rfl⟩
  · rintro ⟨i, w, ty, rfl, hi, rfl⟩
    exact ⟨i, w, ty, hi, rfl, rfl⟩

lemma nodup_entries (values : List ValueId) (h : st.locals.keys.Nodup) :
    ((stackEntries values ++ localEntries p st.writtenLocals).map Prod.fst).Nodup := by
  rw [map_append]
  refine nodup_append.2 ⟨?_, ?_, fun x hx y hy => ?_⟩
  · have hindex : (values.zipIdx.map Prod.snd).Nodup := by
      rw [zipIdx_map_snd]
      exact nodup_range'
    have hinj : Function.Injective Variable.stackPlace := fun a b hab => by injection hab
    have hmap := hindex.map hinj
    rw [map_map] at hmap
    rwa [stackEntries, map_map]
  · have hkeys : (st.writtenLocals.map Prod.fst).Nodup :=
      ((perm_sortBy _ st.locals.pairs).map Prod.fst).nodup_iff.2 h
    have hinj : Function.Injective Variable.slot := fun a b hab => by injection hab
    have hmap := hkeys.map hinj
    rw [map_map] at hmap
    rwa [localEntries, map_map]
  · obtain ⟨⟨x, v⟩, hxv, rfl⟩ := mem_map.1 hx
    obtain ⟨⟨y, w⟩, hyw, rfl⟩ := mem_map.1 hy
    obtain ⟨i, rfl, -⟩ := mem_stackEntries.1 hxv
    obtain ⟨j, -, -, rfl, -⟩ := (mem_localEntries h).1 hyw
    exact fun heq => by cases heq

/-- Block `b` has recorded what its variables hold at its end: `p` is the stage at which its last
instruction was lifted, `p1` the one at which the slots of the stack are resolved. -/
structure Recorded (p p1 p2 : Progress) (b : BlockId) : Prop where
  read : Read p p1 [] []
  inBlock : InBlock p1 b
  func : p2.func = p1.func
  replaced : p2.replaced = p1.replaced
  stack : ∀ i slot, p.stack.bottomUp[i]? = some slot → ∃ v, p1.Usable b v ∧
    p1.Stands b v slot.source ∧ p2.held.get? (b, .stackPlace i) = some v
  written : ∀ i w ty, p.stack.local? i = some (w, ty) →
    p2.held.get? (b, .slot i) = some (p1.resolve w)
  kept : ∀ i, p.stack.local? i = none →
    p2.held.get? (b, .slot i) = p1.held.get? (b, .slot i)

lemma recorded_record (hread : Read p p1 [] []) (h1 : InBlock p1 b)
    (hvalues : List.Forall₂ (fun slot v => p1.Usable b v ∧ p1.Stands b v slot.source)
      p.stack.bottomUp values) :
    Recorded p p1 (p1.record b (stackEntries values ++ localEntries p1 p1.stack.writtenLocals))
      b := by
  have hdistinct := h1.distinct
  have hnodup := nodup_entries (p := p1) values hdistinct
  have hstack : p1.stack = p.stack := hread.frame.stack
  refine ⟨hread, h1, func_record, by rw [record_same], ?_, ?_, ?_⟩
  · intro i slot hslot
    have hi : i < values.length := by
      rw [← hvalues.length_eq]
      exact (List.getElem?_eq_some_iff.1 hslot).1
    obtain ⟨slot', hslot', hv⟩ := exists_of_forall₂ hvalues (List.getElem?_eq_getElem hi)
    obtain rfl := Option.some.inj (hslot.symm.trans hslot')
    refine ⟨values[i], hv.1, hv.2, get?_record_of_mem hnodup (mem_append_left _ ?_)⟩
    exact mem_stackEntries.2 ⟨i, rfl, getElem?_eq_getElem hi⟩
  · intro i w ty hlocal
    refine get?_record_of_mem hnodup (mem_append_right _ ?_)
    exact (mem_localEntries hdistinct).2 ⟨i, w, ty, rfl, by rw [hstack, hlocal], rfl⟩
  · intro i hlocal
    refine get?_record_of_not_mem fun hmem => ?_
    obtain ⟨⟨x, v⟩, hmem, rfl⟩ := mem_map.1 hmem
    rcases mem_append.1 hmem with hmem | hmem
    · obtain ⟨j, ⟨⟩, -⟩ := mem_stackEntries.1 hmem
    · obtain ⟨j, w, ty, ⟨⟩, hlocal', -⟩ := (mem_localEntries hdistinct).1 hmem
      rw [hstack, hlocal] at hlocal'
      cases hlocal'

end Record

/-! ## Shapes of stacks -/

section Shapes

variable {s : Subject} {layout : Layout} {k j : Nat} {p p' : Progress} {b : BlockId}

/-- The shape of a stack was passed on to ranges. -/
structure Passed (shape : List ValueType) (targets : List Nat) (p p' : Progress) : Prop where
  same : p' = { p with shapes := p'.shapes }
  kept : ∀ j sh, p.shapes.get? j = some sh → p'.shapes.get? j = some sh
  new : ∀ j sh, p'.shapes.get? j = some sh → p.shapes.get? j = some sh ∨ j ∈ targets ∧ sh = shape
  length : ∀ j ∈ targets, ∃ sh, p'.shapes.get? j = some sh ∧ sh.length = shape.length

lemma passShape_ensures {shape : List ValueType} {targets : List Nat}
    (h : Passed shape targets p p') :
    Ensures (passShape s layout shape j) p' fun _ p'' => Passed shape (targets ++ [j]) p p'' := by
  refine .bind (.get ?_)
  cases hj : p'.shapes.get? j with
  | none =>
    refine .modifying ⟨?_, ?_, ?_, ?_⟩
    · rw [h.same]
    · intro i sh hi
      have hi' := h.kept i sh hi
      rw [Assoc.get?_insert, if_neg, hi']
      rintro rfl
      simp [hj] at hi'
    · intro i sh hi
      rcases Assoc.of_get?_insert hi with ⟨rfl, rfl⟩ | hi
      · exact .inr ⟨by simp, rfl⟩
      · rcases h.new i sh hi with hi | ⟨hmem, rfl⟩
        · exact .inl hi
        · exact .inr ⟨mem_append_left _ hmem, rfl⟩
    · intro i hi
      rw [Assoc.get?_insert]
      split
      · exact ⟨shape, rfl, rfl⟩
      · next hij =>
          rcases mem_append.1 hi with hi | hi
          · exact h.length i hi
          · exact absurd (mem_singleton.1 hi).symm hij
  | some expected =>
    dsimp only
    split
    · exact .throw trivial
    · next hlen =>
        refine .pure ⟨h.same, h.kept, fun i sh hi => ?_, fun i hi => ?_⟩
        · exact (h.new i sh hi).imp_right fun hi => ⟨mem_append_left _ hi.1, hi.2⟩
        · rcases mem_append.1 hi with hi | hi
          · exact h.length i hi
          · rw [mem_singleton.1 hi]
            exact ⟨expected, hj, by simpa using hlen⟩

lemma passShapes_ensures (shape : List ValueType) (targets : List Nat) :
    Ensures (targets.forM (passShape s layout shape)) p fun _ p' => Passed shape targets p p' := by
  refine (Ensures.forM (I := fun rest p' => ∃ seen, targets = seen ++ rest ∧
    Passed shape seen p p') ⟨[], rfl, rfl, fun _ _ h => h, fun _ _ h => Or.inl h, by simp⟩ ?_).mono ?_
  · rintro j rest p' ⟨seen, hseen, h⟩
    refine (passShape_ensures h).mono ?_
    intro _ p'' h'
    exact ⟨seen ++ [j], by simp [hseen], h'⟩
  · rintro _ p' ⟨seen, hseen, h⟩
    obtain rfl : targets = seen := by simpa using hseen
    exact h

/-! ## The range is left -/

lemma successors_of_later {gaps gaps' : List Gap} (hs : p.Sound gaps)
    (h : Later p p' gaps gaps') (hinsns : (p'.func.block b).insns = (p.func.block b).insns) :
    p'.func.successors b = p.func.successors b := by
  have hop : ∀ i ∈ (p.func.block b).insns, (p'.func.insn i).op =
      (p.func.insn i).op.mapOperands p'.resolve := by
    intro i hi
    have hlive := ((hs.flow.exact.insns_iff b i).1 hi).1
    rw [h.insn i (p.func.lt_insns_of_live hlive)]
  have hnormal : p'.func.normalSuccessors b = p.func.normalSuccessors b := by
    unfold Function.normalSuccessors Function.terminator?
    rw [hinsns]
    cases hlast : (p.func.block b).insns.getLast? with
    | none => rfl
    | some i =>
      have hi := hop i (mem_of_getLast? hlast)
      simp only [Option.filter_some, hi, Ssa.Op.isTerminator_mapOperands]
      by_cases hterm : (p.func.insn i).op.isTerminator = true
      · simp only [hterm, if_true, hi, Ssa.Op.targets_mapOperands]
      · simp only [hterm]
        rfl
  rw [Function.successors, Function.successors, hnormal, h.handlers]

/-- Block `b` of range `k` is left; `p` is the stage at which its last instruction was lifted. -/
structure Leaves (layout : Layout) (k : Nat) (p p' : Progress) (b : BlockId) : Prop where
  sound : p'.Sound []
  honest : p'.Honest []
  later : Later p p' [] []
  blockOf : p'.blockOf = p.blockOf
  done : p'.done = b :: p.done
  closed : ∀ c, c ∈ p'.closed ↔ c ∈ p.closed ∨ c ∈ p.func.successors b ∧
    ∀ d ∈ p.func.predecessors c, d ∈ b :: p.done
  insns : ∀ c, (p'.func.block c).insns = (p.func.block c).insns
  limit : p'.stack.maxStack = p.stack.maxStack
  shapes_kept : ∀ j sh, p.shapes.get? j = some sh → p'.shapes.get? j = some sh
  shapes_new : ∀ j sh, p'.shapes.get? j = some sh → p.shapes.get? j = some sh ∨
    j ∈ layout.normal k ∧ sh = p.stack.bottomUp.map Slot.ty
  shapes_length : ∀ j ∈ layout.normal k, ∃ sh, p'.shapes.get? j = some sh ∧
    sh.length = p.stack.slots.length
  records : ∃ p1 p2, Recorded p p1 p2 b ∧ b ∈ p2.done ∧ Later p1 p2 [] [] ∧ Later p2 p' [] []

theorem leaveRange_ensures (h : InBlock p b) :
    Ensures (leaveRange s layout k) p fun _ p' => Leaves layout k p p' b := by
  obtain rfl := h.current
  refine .bind (.get (.bind (.get ?_)))
  refine .seq (resolveSlots_ensures h fun slot hslot =>
    h.slots slot (mem_reverse.1 hslot)) ?_
  rintro values p1 ⟨hs1, hread, hvalues⟩
  have h1 := h.read hread hs1
  refine .bind (.modifying (.bind (.modifying ?_)))
  rw [foldl_stackEntries, foldl_localEntries]
  have hsplit : (p1.record p.current (stackEntries values)).record p.current
      (localEntries (p1.record p.current (stackEntries values))
        (p1.record p.current (stackEntries values)).stack.writtenLocals) =
      p1.record p.current (stackEntries values ++ localEntries p1 p1.stack.writtenLocals) := by
    have hstack : (p1.record p.current (stackEntries values)).stack = p1.stack := by
      rw [record_same]
    rw [record_append, hstack]
    simp only [localEntries, resolve_record]
  rw [hsplit]
  have hentries : ∀ e ∈ stackEntries values ++ localEntries p1 p1.stack.writtenLocals,
      p1.Usable p.current (p1.resolve e.2) := by
    rintro ⟨x, v⟩ he
    rcases mem_append.1 he with he | he
    · obtain ⟨i, -, hi⟩ := mem_stackEntries.1 he
      obtain ⟨slot, -, husable, -⟩ := exists_of_forall₂ hvalues hi
      rwa [resolve_of_defined hs1 husable.1]
    · obtain ⟨i, w, ty, -, hlocal, rfl⟩ := (mem_localEntries h1.distinct).1 he
      rw [resolve_resolve hs1]
      exact h1.locals i w ty hlocal
  have hrecorded := recorded_record hread h1 hvalues
  have hsame := record_same p.current
    (stackEntries values ++ localEntries p1 p1.stack.writtenLocals) p1
  obtain ⟨hs2, hlater2⟩ := record_spec hs1 h1.unlifted hentries
  have hhonest := honest_mark_record hs1 h1.honest h1.unlifted hentries
  generalize p1.record p.current (stackEntries values ++ localEntries p1 p1.stack.writtenLocals)
    = p2 at hrecorded hsame hs2 hlater2 hhonest ⊢
  refine .seq (passShapes_ensures (p.stack.bottomUp.map Slot.ty) (layout.normal k)) ?_
  intro _ p3 hpassed
  obtain ⟨shapes, hp3⟩ : ∃ shapes, p3 = p2.setting p2.stack shapes p2.current p2.offset :=
    ⟨p3.shapes, hpassed.same⟩
  have hs3 : p3.Sound [] := hp3 ▸ sound_setting hs2
  have hlater3 : Later p2 p3 [] [] := hp3 ▸ later_setting hs2
  have hhonest3 : (p3.mark p.current).Honest [] := by
    rw [hp3]
    exact hhonest
  refine (finishLifted_ensures hs3 hhonest3).mono ?_
  rintro _ p' ⟨hs', hp', hlater', hframe, hclosed⟩
  have hlater : Later p p3 [] [] := (hread.later.trans hlater2).trans hlater3
  have hrest : p3.func = p1.func ∧ p3.blockOf = p.blockOf ∧ p3.done = p.done ∧
      p3.closed = p.closed ∧ p2.shapes = p.shapes := by
    rw [hp3, hsame]
    exact ⟨rfl, hread.frame.blockOf, hread.frame.done, hread.closed, hread.frame.shapes⟩
  obtain ⟨hfunc3, hblockOf3, hdone3, hclosed3, hshapes2⟩ := hrest
  have hshapes' : p'.shapes = p3.shapes := hframe.shapes
  have hinsns3 : ∀ c, (p3.func.block c).insns = (p.func.block c).insns := by
    intro c
    rw [hfunc3, hread.frame.insns c]
  refine ⟨hs', hp', hlater.trans ((later_mark hs3).trans hlater'), hframe.blockOf.trans hblockOf3,
    ?_, ?_, fun c => (hframe.insns c).trans (hinsns3 c), ?_, ?_, ?_, ?_, p1, p3.mark p.current, ?_,
    mem_cons_self, (hlater2.trans hlater3).trans (later_mark hs3), hlater'⟩
  · rw [hframe.done, mark, hdone3]
  · intro c
    rw [hclosed c, hclosed3, hdone3, successors_of_later h.sound hlater (hinsns3 p.current),
      hlater.preds]
  · rw [hframe.stack, mark, hp3, hsame]
    exact congrArg OperandStack.maxStack hread.frame.stack
  · rw [hshapes', ← hshapes2]
    exact hpassed.kept
  · rw [hshapes', ← hshapes2]
    exact hpassed.new
  · rw [hshapes']
    intro j hj
    obtain ⟨sh, hsh, hlen⟩ := hpassed.length j hj
    exact ⟨sh, hsh, by simpa [OperandStack.bottomUp] using hlen⟩
  · have hheld : (p3.mark p.current).held = p2.held := by
      rw [hp3]
      rfl
    refine ⟨hread, h1, hfunc3, ?_, ?_, ?_, ?_⟩
    · rw [hp3]
      exact hrecorded.replaced
    · rw [hheld]
      exact hrecorded.stack
    · rw [hheld]
      exact hrecorded.written
    · rw [hheld]
      exact hrecorded.kept

end Shapes

end Dissolve.Lift
