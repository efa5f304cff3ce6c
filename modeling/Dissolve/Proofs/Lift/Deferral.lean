import Dissolve.Proofs.Lift.Entry
import Dissolve.Proofs.Lift.Skeleton

/-!
# Proofs.Lift.Deferral — reads that wait on the stack

Loading a local variable pushes a slot that still has to be read, and the read is made when the slot is
resolved, perhaps after the variable was bound anew. The stack machine reads at once. Both are run side
by side over instructions that move values, make constants or increment a variable: whatever values and
variables hold, the slots then resolve to what the machine has on its stack, and the bound variables
are what it has in its cells (`simulate_asEager`).

`Ran` is what one instruction after the other keeps. The operations that the machine performs are those
of the instructions that were added to the block meanwhile: they are given the same contents, and the
machine takes up their results.
-/

namespace Dissolve.Lift

open List
open Code (Instruction)
open Progress

variable {D : Type}

/-! ## Eager runs -/

/-- What an operation is given and what its result is. -/
abbrev Exchange (D : Type) := List D × D

open Classical in
/-- One instruction of the stack machine, which reads local variables at once. If an operation is
performed, it is given what the next exchange says, and its result is taken up. -/
noncomputable def advance (now : Machine.Frame D × List (Exchange D)) (insn : Instruction) :
    Option (Machine.Frame D × List (Exchange D)) :=
  match Machine.exec now.1 insn, now.2 with
  | .silent frame, rest => some (frame, rest)
  | .perform _ args resume, next :: rest => if args = next.1 then some (resume next.2, rest) else none
  | _, _ => none

/-- The instruction moves values, makes a constant or increments a local variable. -/
def moves : Instruction → Bool
  | .load .. | .store .. | .iinc .. | .constNull | .constInt _ | .constLong _ | .constFloat _
  | .constDouble _ | .constString _ | .constClass _ | .constMethodType _ | .constMethodHandle _
  | .pop | .pop2 | .dup | .dupX1 | .dupX2 | .dup2 | .dup2X1 | .dup2X2 | .swap => true
  | _ => false

variable {s : Subject} {layout : Layout} {p p' : Progress} {b : BlockId} {insn : Instruction}
  {insns : List Instruction}

/-- A frame does not show which constant was made. -/
lemma advance_constants {insn' : Instruction} {value value' : Ssa.Const}
    (h : Machine.operation? insn = some (Machine.constant value))
    (h' : Machine.operation? insn' = some (Machine.constant value'))
    (hkind : value.valueType = value'.valueType) (now : Machine.Frame D × List (Exchange D)) :
    advance now insn = advance now insn' := by
  simp only [advance, Machine.exec, h, h', Machine.constant, hkind, Machine.popValues?, Nat.zero_le,
    if_true]
  cases now.2 <;> rfl

/-- The instruction with its names seen through the view. -/
def seen (s : Subject) : Instruction → Instruction
  | .constClass ty => .constClass (s.view.lookupType ty)
  | .constMethodHandle method => .constMethodHandle (s.methodName method)
  | insn => insn

lemma advance_seen (s : Subject) (insn : Instruction) (now : Machine.Frame D × List (Exchange D)) :
    advance now (seen s insn) = advance now insn := by
  unfold seen
  split
  · exact advance_constants rfl rfl (by rfl) now
  · exact advance_constants rfl rfl (by rfl) now
  · rfl

lemma liftStep_moves (h : InBlock p b) (hmoves : moves insn) :
    Ensures (liftStep s layout insn) p fun _ p' =>
      Traced { s with view := .identity } p p' b (seen s insn) := by
  have hplain : liftStep s layout insn =
      liftStep { s with view := .identity } layout (seen s insn) := by
    cases insn <;> first | rfl | cases hmoves
  rw [hplain]
  refine liftStep_traces h (seen s insn) ?_
  cases insn <;> first | rfl | cases hmoves

/-! ## Runs -/

/-- The exchange of an operation in an environment; a result that is not kept can be anything. -/
def exchange (R : ValueId → ValueId) (env : ValueId → D) (any : D) (op : Ssa.Op)
    (dest : Option ValueId) : Exchange D :=
  (op.operands.map fun v => env (R v), dest.elim any fun v => env (R v))

def exchanges (p : Progress) (R : ValueId → ValueId) (env : ValueId → D) (any : D)
    (insns : List InsnId) : List (Exchange D) :=
  insns.map fun i => exchange R env any (p.func.insn i).op (p.func.insn i).dest

lemma Follows.advance {R : ValueId → ValueId} {S : Variable → Option ValueId} {start : Variable → D}
    {env : ValueId → D} {st st' : OperandStack} {node : Option (Ssa.Op × Option ValueId)}
    (h : Follows insn st st' R S node) (hag : Agree R S start env) (any : D)
    (more : List (Exchange D)) : advance (st.frame R start env,
        (node.toList.map fun n => exchange R env any n.1 n.2) ++ more) insn =
      some (st'.frame R start env, more) := by
  have hnext := h D start env hag
  unfold Lift.advance
  obtain - | ⟨op, dest⟩ := node
  · rw [show Machine.exec _ insn = _ from hnext]
    rfl
  · obtain ⟨resume, hexec, hresume⟩ := hnext
    rw [hexec, ← hresume (exchange R env any op dest).2 (by rintro v rfl; rfl)]
    exact if_pos rfl

/-- Lifting `ran` in block `b` led from `p` to `p'` and added the instructions `made`. -/
structure Ran (p p' : Progress) (b : BlockId) (ran : List Instruction) (made : List InsnId) : Prop where
  inBlock : InBlock p' b
  within : Within p p' b
  insns : (p'.func.block b).insns = (p.func.block b).insns ++ made
  runs : ∀ R S, Foresees p' b R S → ∀ (D : Type) (start : Variable → D) (env : ValueId → D)
    (any : D) (more : List (Exchange D)), Agree R S start env →
    ran.foldlM advance (p.stack.frame R start env, exchanges p' R env any made ++ more) =
      some (p'.stack.frame R start env, more)

lemma Ran.refl (h : InBlock p b) : Ran p p b [] [] :=
  ⟨h, .refl h.sound b, (append_nil _).symm, fun _ _ _ _ _ _ _ _ _ => rfl⟩

section

variable {p'' : Progress} {ran : List Instruction} {made : List InsnId}

/-- What was exchanged stays the same when values are replaced later. -/
lemma Ran.exchanges_eq (h : Ran p p' b ran made) (hlater : Later p' p'' [] [])
    {R : ValueId → ValueId} (hres : ∀ v, R (p''.resolve v) = R v) (env : ValueId → D) (any : D) :
    exchanges p'' R env any made = exchanges p' R env any made := by
  refine map_congr_left fun i hi => ?_
  have hlive := ((h.inBlock.sound.flow.exact.insns_iff b i).1 (by simp [h.insns, hi])).1
  rw [hlater.insn i (p'.func.lt_insns_of_live hlive), exchange, exchange, Ssa.Op.operands_mapOperands,
    map_map]
  simp only [Function.comp_def, hres]

lemma Ran.step (h : Ran p p' b ran made)
    (hlast : Traced { s with view := .identity } p' p'' b (seen s insn)) :
    ∃ new, Ran p p'' b (ran ++ [insn]) (made ++ new) := by
  obtain ⟨node, hgrows, hfollows⟩ := hlast.emits
  obtain ⟨new, hnew, hmade⟩ : ∃ new, (p''.func.block b).insns = (p'.func.block b).insns ++ new ∧
      (new.map fun i => ((p''.func.insn i).op, (p''.func.insn i).dest)) = node.toList := by
    obtain - | ⟨op, dest⟩ := node
    · exact ⟨[], hgrows.trans (append_nil _).symm, rfl⟩
    · obtain ⟨i, hi, hop, hdest, -⟩ := hgrows
      exact ⟨[i], hi, by simp [hop, hdest]⟩
  refine ⟨new, hlast.inBlock, h.within.trans hlast.within, by rw [hnew, h.insns, append_assoc], ?_⟩
  intro R S hf D start env any more hag
  have hexchanges : exchanges p'' R env any (made ++ new) = exchanges p' R env any made ++
      node.toList.map fun n => exchange R env any n.1 n.2 := by
    rw [exchanges, map_append, ← exchanges, h.exchanges_eq hlast.within.later hf.resolve, ← hmade,
      map_map]
    rfl
  rw [hexchanges, append_assoc, foldlM_append,
    h.runs R S (hf.of_within hlast.within) D start env any _ hag]
  have hnext := (hfollows rfl R S hf).advance hag any more
  rw [advance_seen] at hnext
  simp [hnext]

end

lemma liftSteps_ran (s : Subject) (layout : Layout) (h : InBlock p b)
    (hmoves : ∀ insn ∈ insns, moves insn) :
    Ensures (insns.forM (liftStep s layout)) p fun _ q => ∃ made, Ran p q b insns made := by
  refine (Ensures.forM (I := fun rest q => ∃ ran made, insns = ran ++ rest ∧ Ran p q b ran made)
    ⟨[], [], rfl, .refl h⟩ ?_).mono ?_
  · rintro insn rest q ⟨ran, made, rfl, hran⟩
    refine (liftStep_moves hran.inBlock (hmoves insn (by simp))).mono ?_
    intro _ q' htraced
    obtain ⟨new, hstep⟩ := hran.step htraced
    exact ⟨ran ++ [insn], made ++ new, by simp, hstep⟩
  · rintro _ q ⟨ran, made, hran, hq⟩
    rw [append_nil] at hran
    exact ⟨made, hran ▸ hq⟩

/-! ## Deferred reads -/

/-- Lifts instructions one after the other and resolves all slots then. -/
def simulate (s : Subject) (layout : Layout) (insns : List Instruction) :
    Lifting (Progress × List ValueId) := do
  insns.forM (liftStep s layout)
  let q ← get
  return (q, ← q.stack.slots.mapM resolveSlot)

/-- Whatever the values and the variables at the start of the block hold, the eager run performs its
operations on what the new instructions read, takes up their results and ends with the contents of the
resolved slots on its stack and those of the bound local variables in its cells. -/
def AsEager (p : Progress) (b : BlockId) (insns : List Instruction) (q : Progress)
    (values : List ValueId) (q' : Progress) : Prop :=
  ∃ made, (q'.func.block b).insns = (p.func.block b).insns ++ made ∧
    ∀ (D : Type) (start : Variable → D) (env : ValueId → D) (any : D),
      (∀ x v, q'.Holds b x v → start x = env v) → ∃ frame,
        insns.foldlM advance
          (p.stack.frame q'.resolve start env, exchanges q' q'.resolve env any made) =
            some (frame, []) ∧
        frame.stack.map Prod.fst = values.map env ∧
        ∀ index, frame.cells index = (q.stack.local? index).elim (start (.slot index)) fun bound =>
          env (q'.resolve bound.1)

/-- Deferred reads of local variables give what reading at once gives. -/
theorem simulate_asEager (s : Subject) (layout : Layout) {p : Progress} {b : BlockId}
    (h : InBlock p b) {insns : List Instruction} (hmoves : ∀ insn ∈ insns, moves insn) :
    Ensures (simulate s layout insns) p fun (q, values) q' => AsEager p b insns q values q' := by
  refine .seq (liftSteps_ran s layout h hmoves) ?_
  rintro _ q ⟨made, hran⟩
  refine .bind (.get (.seq (resolveSlots_ensures hran.inBlock hran.inBlock.slots) ?_))
  rintro values q' ⟨hs, hread, hvalues⟩
  refine .pure ⟨made, by rw [hread.frame.insns, hran.insns], fun D start env any hstart => ?_⟩
  have hf : Foresees q' b q'.resolve fun x => q'.held.get? (b, x) := by
    refine ⟨resolve_resolve hs, ?_⟩
    rintro x _ ⟨w, hw, rfl⟩
    exact ⟨w, hw, (resolve_resolve hs w).symm⟩
  have hag : Agree q'.resolve (fun x => q'.held.get? (b, x)) start env := fun x w hw =>
    hstart x _ ⟨w, hw, rfl⟩
  have hruns := hran.runs _ _ (hf.of_within (hread.within b)) D start env any [] hag
  rw [append_nil, ← hran.exchanges_eq hread.later hf.resolve] at hruns
  refine ⟨q.stack.frame q'.resolve start env, hruns, ?_, fun index => ?_⟩
  · rw [OperandStack.frame, map_map]
    refine forall₂_eq_eq_eq ▸ ?_
    rw [forall₂_map_left_iff, forall₂_map_right_iff]
    refine hvalues.imp fun slot v hv => ?_
    rw [Function.comp_apply, ← hread.frame.stack, hv.2.content hf hag,
      resolve_of_defined hs hv.1.1]
  · change q.stack.cell q'.resolve start env index = _
    unfold OperandStack.cell
    cases q.stack.local? index <;> rfl

/-! ## A block with two stores -/

def sample : Subject where
  method := ⟨⟨"LMain;"⟩, "main", ⟨⟨"V"⟩, []⟩⟩
  isStatic := true
  body := { maxStack := 4, maxLocals := 2, instructions := [] }

/-- One block, of which nothing is lifted yet. -/
def blank : Progress where
  func := (Ssa.Function.empty sample.method true).addBlock.2
  stack := .empty sample.method 4
  closed := [⟨0⟩]

/-- Two reads of a variable wait on the stack while it is incremented and stored to. -/
def reloading : List Instruction :=
  [.constInt 7, .store .int 0, .load .int 0, .dup, .iinc 0 1, .load .int 0, .swap, .store .int 0]

lemma inBlock_blank : InBlock blank ⟨0⟩ := by
  have hbare : Bare blank.func := (Bare.empty _ _).addBlock
  have hreach : ∀ b, blank.func.HasBlock b → ∃ t, blank.func.Trail (b :: t) := by
    intro b hb
    obtain rfl : b = blank.func.entry := BlockId.eq_iff.2 (Nat.lt_one_iff.1 hb)
    exact ⟨[], .start⟩
  obtain ⟨hs, hhonest⟩ := hbare.sound rfl hreach rfl rfl rfl rfl
  exact inBlock_of_empty hs hhonest rfl Nat.zero_lt_one nofun rfl rfl

lemma Ensures.of_isOk {α : Type} {m : Lifting α} {Q : α → Progress → Prop} (h : Ensures m p Q)
    (hok : (m.run p).isOk) : ∃ a p', m.run p = .ok (a, p') ∧ Q a p' := by
  unfold Ensures at h
  cases hrun : m.run p with
  | ok r =>
    rw [hrun] at h
    exact ⟨r.1, r.2, rfl, h⟩
  | error e =>
    rw [hrun] at hok
    cases hok

theorem simulate_reloading : InBlock blank ⟨0⟩ ∧ (∀ insn ∈ reloading, moves insn) ∧
    ∃ q values q', (simulate sample ⟨{}, [], {}⟩ reloading).run blank = .ok ((q, values), q') ∧
      AsEager blank ⟨0⟩ reloading q values q' := by
  -- said of any start, so that nothing is run but the last line
  have heager : ∀ p insns, InBlock p ⟨0⟩ → (∀ insn ∈ insns, moves insn) →
      ((simulate sample ⟨{}, [], {}⟩ insns).run p).isOk → ∃ q values q',
        (simulate sample ⟨{}, [], {}⟩ insns).run p = .ok ((q, values), q') ∧
          AsEager p ⟨0⟩ insns q values q' := by
    intro p insns hp hmoves hok
    obtain ⟨⟨q, values⟩, q', hrun, heager⟩ := (simulate_asEager sample _ hp hmoves).of_isOk hok
    exact ⟨q, values, q', hrun, heager⟩
  have hmoves : ∀ insn ∈ reloading, moves insn := by decide
  exact ⟨inBlock_blank, hmoves, heager blank reloading inBlock_blank hmoves (by decide +kernel)⟩

end Dissolve.Lift
