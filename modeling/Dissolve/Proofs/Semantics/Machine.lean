import Mathlib
import Dissolve.Lift.Layout
import Dissolve.Ssa.Op

/-!
# Proofs.Semantics.Machine — one instruction of the stack machine

A *frame* has one cell per local variable and the slots of the operand stack, each with the kind of
its value. The frames are over any type of contents, since an instruction never looks into a value:
what it computes is given back as an *action*, which says

* how the frame goes on, if the instruction only moves values (labels, loads, stores, shuffles),
* which operation is to be performed on which values, and how the frame takes up its result,
* where control goes or how the run ends.

An operation is named by an `Op` in which every operand and target is `⟨0⟩` (`Op.form`), so the
operations of a stack machine and of SSA form can be compared.
-/

namespace Dissolve

open List

/-- The operation without its operands and targets. -/
def Ssa.Op.form (op : Ssa.Op) : Ssa.Op :=
  (op.mapOperands fun _ => ⟨0⟩).mapTargets fun _ => ⟨0⟩

namespace Machine

open Code (Instruction)
open Ssa (Const Op SwitchKeys)

/-- The local variables and the operand stack, the top first. -/
structure Frame (α : Type) where
  stack : List (α × ValueType)
  cells : Nat → α

inductive Ending (α : Type)
  | returned (value : Option α)
  | thrown (exception : α)
  | stuck

/-- What an instruction asks for. -/
inductive Action (α : Type)
  | silent (frame : Frame α)
  /-- An operation is performed; the frame takes up the result. -/
  | perform (op : Op) (args : List α) (resume : α → Frame α)
  | jump (target : Label) (frame : Frame α)
  /-- One of the targets is chosen, else the default; without one the next instruction. -/
  | choose (op : Op) (args : List α) (targets : List Label) (default : Option Label)
      (frame : Frame α)
  | finish (ending : Ending α)

/-- An operation on the top slots. -/
structure Operation where
  pops : Nat
  op : Op
  result : Option ValueType

/-- The kind of what a call returns: nothing for `void`. -/
def resultKind? (ret : TypeRef) : Option (Option ValueType) :=
  if ret.isVoid then some none else ret.valueType?.map some

def constant (value : Const) : Operation :=
  ⟨0, .const value, some value.valueType⟩

/-- The operation of an instruction that takes its operands from the stack and leaves its result
there. -/
def operation? : Instruction → Option Operation
  | .constNull => some (constant .null)
  | .constInt value => some (constant (.int value))
  | .constLong value => some (constant (.long value))
  | .constFloat bits => some (constant (.float bits))
  | .constDouble bits => some (constant (.double bits))
  | .constString value => some (constant (.string value))
  | .constClass ty => some (constant (.classRef ty))
  | .constMethodType proto => some (constant (.methodType proto))
  | .constMethodHandle method => some (constant (.methodHandle method))
  | .arrayLoad elem => some ⟨2, .arrayLoad elem ⟨0⟩ ⟨0⟩, some elem.valueType⟩
  | .arrayStore elem => some ⟨3, .arrayStore elem ⟨0⟩ ⟨0⟩ ⟨0⟩, none⟩
  | .arrayLength => some ⟨1, .arrayLength ⟨0⟩, some .int⟩
  | .arith op ty => some ⟨2, .binary op ty ⟨0⟩ ⟨0⟩, some ty⟩
  | .neg ty => some ⟨1, .neg ty ⟨0⟩, some ty⟩
  | .convert source target => some ⟨1, .convert source target ⟨0⟩, some target⟩
  | .cmp ty bias => some ⟨2, .compare ty bias ⟨0⟩ ⟨0⟩, some .int⟩
  | .new ty => some ⟨0, .newInstance ty, some .object⟩
  | .newArray ty => some ⟨1, .newArray ty ⟨0⟩, some .object⟩
  | .multiNewArray ty dims =>
    some ⟨dims, .newMultiArray ty (List.replicate dims ⟨0⟩), some .object⟩
  | .checkCast ty => some ⟨1, .checkCast ty ⟨0⟩, some .object⟩
  | .instanceOf ty => some ⟨1, .instanceOf ty ⟨0⟩, some .int⟩
  | .getField field => field.ty.valueType?.map fun kind => ⟨1, .instanceGet field ⟨0⟩, some kind⟩
  | .putField field => some ⟨2, .instancePut field ⟨0⟩ ⟨0⟩, none⟩
  | .getStatic field => field.ty.valueType?.map fun kind => ⟨0, .staticGet field, some kind⟩
  | .putStatic field => some ⟨1, .staticPut field ⟨0⟩, none⟩
  | .invoke kind method =>
    let count := method.argumentCount (!kind.hasReceiver)
    (resultKind? method.proto.ret).map fun result =>
      ⟨count, .invoke kind method (List.replicate count ⟨0⟩), result⟩
  | .invokeDynamic name proto bootstrap =>
    let count := proto.params.length
    (resultKind? proto.ret).map fun result =>
      ⟨count, .invokeCustom name proto bootstrap (List.replicate count ⟨0⟩), result⟩
  | .monitorEnter => some ⟨1, .monitor true ⟨0⟩, none⟩
  | .monitorExit => some ⟨1, .monitor false ⟨0⟩, none⟩
  | _ => none

section Exec

variable {α : Type}

/-- The top `count` values of a stack, the lowest first, and what is below them. -/
def popValues? (count : Nat) (stack : List (α × ValueType)) :
    Option (List α × List (α × ValueType)) :=
  if count ≤ stack.length then
    some (((stack.take count).map Prod.fst).reverse, stack.drop count)
  else none

lemma popValues?_one {stack rest : List (α × ValueType)} {value : α}
    (h : popValues? 1 stack = some ([value], rest)) : ∃ kind, stack = (value, kind) :: rest := by
  cases stack with
  | nil => simp [popValues?] at h
  | cons slot stack =>
    simp only [popValues?, length_cons, Nat.le_add_left, if_true, take_succ_cons,
      take_zero, map_cons, map_nil, reverse_singleton, drop_succ_cons,
      drop_zero, Option.some.injEq, Prod.mk.injEq, cons.injEq, and_true] at h
    exact ⟨slot.2, by rw [← h.1, ← h.2]⟩

/-- The slots of the top words of a stack and what is below them; no slot may be cut in two. -/
def takeWords : Nat → List (α × ValueType) →
    Option (List (α × ValueType) × List (α × ValueType))
  | 0, stack => some ([], stack)
  | _ + 1, [] => none
  | words + 1, slot :: stack =>
    if slot.2.slots ≤ words + 1 then
      (takeWords (words + 1 - slot.2.slots) stack).map fun (taken, rest) => (slot :: taken, rest)
    else none

/-- The stack with its top words copied under the words below them. -/
def copiedUnder (top below : Nat) (stack : List (α × ValueType)) :
    Option (List (α × ValueType)) := do
  let (upper, stack) ← takeWords top stack
  let (lower, stack) ← takeWords below stack
  return upper ++ lower ++ upper ++ stack

/-- The stack after an instruction that only moves slots. -/
def shuffled? (stack : List (α × ValueType)) : Instruction → Option (List (α × ValueType))
  | .pop => (takeWords 1 stack).map Prod.snd
  | .pop2 => (takeWords 2 stack).map Prod.snd
  | .dup => copiedUnder 1 0 stack
  | .dupX1 => copiedUnder 1 1 stack
  | .dupX2 => copiedUnder 1 2 stack
  | .dup2 => copiedUnder 2 0 stack
  | .dup2X1 => copiedUnder 2 1 stack
  | .dup2X2 => copiedUnder 2 2 stack
  | .swap => do
      let (upper, stack) ← takeWords 1 stack
      let (lower, stack) ← takeWords 1 stack
      return lower ++ upper ++ stack
  | .label _ | .nop => some stack
  | _ => none

namespace Frame

def setCell (frame : Frame α) (index : Nat) (value : α) : Frame α :=
  { frame with cells := Function.update frame.cells index value }

def pushed (frame : Frame α) (stack : List (α × ValueType)) (result : Option ValueType)
    (value : α) : Frame α :=
  { frame with stack := (result.toList.map fun kind => (value, kind)) ++ stack }

end Frame

def Frame.withTop (frame : Frame α) (action : α → Frame α → Action α) : Action α :=
  match frame.stack with
  | (value, _) :: stack => action value { frame with stack }
  | [] => .finish .stuck

/-- What an instruction asks for that moves values or control only. -/
def Frame.steer (frame : Frame α) : Instruction → Action α
  | .load kind index =>
    .silent { frame with stack := (frame.cells index, kind) :: frame.stack }
  | .store _ index => frame.withTop fun value frame => .silent (frame.setCell index value)
  | .iinc index delta =>
    .perform (.addLiteral .int ⟨0⟩ delta) [frame.cells index] (frame.setCell index)
  | .goto target => .jump target frame
  | .branch cond _ target => frame.withTop fun value frame =>
    .choose (.branch cond ⟨0⟩ none ⟨0⟩ ⟨0⟩) [value] [target] none frame
  | .branchCmp cond _ target => frame.withTop fun right frame => frame.withTop fun left frame =>
    .choose (.branch cond ⟨0⟩ (some ⟨0⟩) ⟨0⟩ ⟨0⟩) [left, right] [target] none frame
  | .tableSwitch low targets default => frame.withTop fun value frame =>
    .choose (.switch ⟨0⟩ (.table low) (targets.map fun _ => ⟨0⟩) ⟨0⟩) [value] targets
      (some default) frame
  | .lookupSwitch keys targets default => frame.withTop fun value frame =>
    .choose (.switch ⟨0⟩ (.lookup keys) (targets.map fun _ => ⟨0⟩) ⟨0⟩) [value] targets
      (some default) frame
  | .ret none => .finish (.returned none)
  | .ret (some _) => frame.withTop fun value _ => .finish (.returned (some value))
  | .throw => frame.withTop fun value _ => .finish (.thrown value)
  | insn =>
    match shuffled? frame.stack insn with
    | some stack => .silent { frame with stack }
    | none => .finish .stuck

/-- What an instruction asks for in a frame. -/
def exec (frame : Frame α) (insn : Instruction) : Action α :=
  match operation? insn with
  | some operation =>
    match popValues? operation.pops frame.stack with
    | some (args, stack) => .perform operation.op args (frame.pushed stack operation.result)
    | none => .finish .stuck
  | none => frame.steer insn

lemma exec_eq_steer {frame : Frame α} {insn : Instruction} (h : operation? insn = none) :
    exec frame insn = frame.steer insn := by
  simp only [exec, h]

end Exec

end Machine

end Dissolve
