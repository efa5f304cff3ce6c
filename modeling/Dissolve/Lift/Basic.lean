import Dissolve.Lens.Chain
import Dissolve.Lift.Layout
import Dissolve.Lift.Variables
import Dissolve.Program.Class
import Dissolve.Ssa.Compact
import Dissolve.Ssa.Verify

/-!
# Lift.Basic — stack code to SSA form

`lift` turns the body of a method into a function:

1. the body is cut into ranges, and every range that control can reach becomes a block, in reverse
   postorder; block zero defines the parameters and is the first range too, unless something jumps
   back there,
2. every range is lifted by simulating the operand stack; variables that cross ranges become values
   and phis,
3. phis that merge nothing are removed, the tables are compacted and the function is checked.

Every name in the body passes through the given view, so the function is written in current names.
-/

namespace Dissolve.Lift

open Code (Body Instruction)
open Ssa (Const Function Op Position SwitchKeys)

structure LiftConfig where
  strictStack : Bool := false
  verify : Bool := true
  deriving DecidableEq

structure Subject where
  method : MethodRef
  isStatic : Bool
  body : Body
  view : Lens.View := .identity
  config : LiftConfig := {}

namespace Subject

def methodName (s : Subject) (method : MethodRef) : MethodRef :=
  (s.view.lookupMethod method s.method .static).ref

end Subject

/-! ## Blocks -/

def blockOfRange (k : Nat) : Lifting BlockId := do
  match (← get).blockOf.get? k with
  | some b => return b
  | none => throw (.malformed (.rangeNotCreated k))

def reentersFirst (layout : Layout) (order : List Nat) : Bool :=
  order.any fun k => 0 ∈ layout.graph.succ k

/-- Creates the block of a range; the first range shares the entry block unless control can come
back to it. -/
def createBlock (entry : BlockId) (separate : Bool) (k : Nat) : Lifting Unit := do
  let b ← if k = 0 ∧ !separate then pure entry else build (·.addBlock)
  modify fun p => { p with blockOf := p.blockOf.insert k b }

def connect (source target : BlockId) : Lifting Unit :=
  build fun f => ((), f.addPredecessor target source)

def connectRange (s : Subject) (layout : Layout) (k : Nat) (range : Range) : Lifting Unit := do
  let b ← blockOfRange k
  range.normal.forM fun succ => do
    if layout.isHandler succ then
      throw (.malformedCode s.method (layout.start succ) .handlerEnteredNormally)
    connect b (← blockOfRange succ)
  range.exceptional.forM fun (guard, succ) => do
    let target ← blockOfRange succ
    build fun f => ((), f.addHandler b ⟨guard.map s.view.lookupType, target⟩)
    connect b target

def createBlocks (s : Subject) (layout : Layout) (order : List Nat) (separate : Bool) :
    Lifting Unit := do
  let entry ← build (·.addBlock)
  modify fun p => { p with closed := [entry] }
  order.forM (createBlock entry separate)
  if separate then connect entry (← blockOfRange 0)
  order.forM fun k => do
    match layout.range? k with
    | some range => connectRange s layout k range
    | none => return

/-! ## Stack steps -/

def valueTypeOf (ty : TypeRef) : Lifting ValueType :=
  match ty.valueType? with
  | some kind => return kind
  | none => fault (.noRuntimeValue ty)

def readLocal (slot : Nat) (ty : ValueType) : Lifting ValueId := do
  let p ← get
  match p.stack.local? slot with
  | some (v, _) => return p.resolve v
  | none => readFrom p.current (.slot slot) ty

def resolveSlot (slot : Slot) : Lifting ValueId := do
  let p ← get
  match slot.source with
  | .value v => return p.resolve v
  | .slot index => readLocal index slot.ty
  | .incoming index => readFrom p.current (.stackPlace index) slot.ty

def pushSlot (slot : Slot) : Lifting Unit := do
  let p ← get
  let stack ← p.stack.push slot
  set { p with stack }

def popSlot : Lifting Slot := do
  let p ← get
  let (slot, stack) ← p.stack.pop
  set { p with stack }
  return slot

def popValue : Lifting ValueId := do
  resolveSlot (← popSlot)

def popValues (count : Nat) : Lifting (List ValueId) := do
  let p ← get
  let (slots, stack) ← p.stack.popMany count
  set { p with stack }
  slots.mapM resolveSlot

/-- Pops slots in front of `taken` until they take at least `words` words; each slot takes one or
two. -/
def popSlots (words : Nat) : Nat → List Slot → Lifting (List Slot)
  | 0, taken => return taken
  | fuel + 1, taken => do
      if words ≤ OperandStack.wordsOf taken then return taken
      popSlots words fuel ((← popSlot) :: taken)

/-- Pops the slots of the top words, the bottom first; no value may be cut in two. -/
def popWords (words : Nat) : Lifting (List Slot) := do
  let slots ← popSlots words words []
  if OperandStack.wordsOf slots ≠ words then fault .splitsWideValue
  return slots

def copyUnder (top below : Nat) : Lifting Unit := do
  let upper ← popWords top
  let lower ← popWords below
  (upper ++ lower ++ upper).forM pushSlot

/-! ## Emitting -/

def emit (op : Op) : Lifting Unit := do
  let p ← get
  discard (build (·.appendInsn p.current op none (.lifted p.offset)))

def emitValue (op : Op) (ty : ValueType) : Lifting ValueId := do
  let p ← get
  let (_, v) ← build (·.appendValue p.current op ty (.lifted p.offset))
  return v

def emitPushed (op : Op) (ty : ValueType) : Lifting Unit := do
  let v ← emitValue op ty
  pushSlot ⟨.value v, ty⟩

def emitConst (value : Const) : Lifting Unit :=
  emitPushed (.const value) value.valueType

def emitCall (op : Op) (ret : TypeRef) : Lifting Unit := do
  if ret.isVoid then emit op else emitPushed op (← valueTypeOf ret)

/-! ## Local variables -/

def checkLocal (s : Subject) (slot : Nat) (ty : ValueType) : Lifting Unit :=
  if slot + ty.slots ≤ s.body.maxLocals then return
  else fault (.localOutOfRange slot s.body.maxLocals)

/-- The name of the local variable that the instruction at an offset stores to. A variable is in
scope from the instruction before its first label on. -/
def debugName? (s : Subject) (layout : Layout) (slot offset : Nat) : Option String :=
  (s.body.localVariables.find? fun x =>
    x.slot = slot &&
      match layout.labelOffset? x.start, layout.labelOffset? x.stop with
      | some start, some stop => start ≤ offset + 1 && offset < stop
      | _, _ => false).map fun x => x.name

def nameValue (s : Subject) (layout : Layout) (slot offset : Nat) (v : ValueId) : Lifting Unit :=
  match debugName? s layout slot offset with
  | some name => build fun f => ((), f.setDebugName v name)
  | none => return

/-- Binds a local variable; slots that still wait to read it get its old value. -/
def rebindLocal (slot : Nat) (v : ValueId) (ty : ValueType) : Lifting Unit := do
  if (← get).stack.hasPendingRead slot then
    let old ← readLocal slot ty
    modify fun p => { p with stack := p.stack.materializeLocal slot old }
  modify fun p => { p with stack := p.stack.bindLocal slot v ty }

/-! ## Instructions -/

def jumpTarget (layout : Layout) (k index : Nat) : Lifting BlockId := do
  match (layout.normal k)[index]? with
  | some succ => blockOfRange succ
  | none => fault .missingTarget

def emitBranch (layout : Layout) (k : Nat) (cond : Cond) (left : ValueId)
    (right : Option ValueId) : Lifting Unit := do
  let thenTarget ← jumpTarget layout k 0
  let elseTarget ← jumpTarget layout k 1
  emit (.branch cond left right thenTarget elseTarget)

def emitSwitch (layout : Layout) (k : Nat) (keys : SwitchKeys) : Lifting Unit := do
  let selector ← popValue
  match (layout.normal k).getLast? with
  | none => fault .switchWithoutTargets
  | some default =>
    let targets ← (layout.normal k).dropLast.mapM blockOfRange
    emit (.switch selector keys targets (← blockOfRange default))

def liftTerminator (s : Subject) (layout : Layout) (k : Nat) : Instruction → Lifting Unit
  | .branch cond _ _ => do
      let left ← popValue
      emitBranch layout k cond left none
  | .branchCmp cond _ _ => do
      let right ← popValue
      let left ← popValue
      emitBranch layout k cond left (some right)
  | .goto _ => do emit (.goto (← jumpTarget layout k 0))
  | .tableSwitch low _ _ => emitSwitch layout k (.table low)
  | .lookupSwitch keys targets _ => do
      if keys.length ≠ targets.length then fault (.keyCount keys.length targets.length)
      emitSwitch layout k (.lookup keys)
  | .ret ty => do
      let value ← if ty.isSome then some <$> popValue else pure none
      let left := (← get).stack.depth
      if s.config.strictStack ∧ left ≠ 0 then fault (.valuesLeft left)
      emit (.ret value)
  | .throw => do
      let exception ← popValue
      modify fun p => { p with stack := p.stack.clear }
      emit (.throw exception)
  | _ => return

def liftStep (s : Subject) (layout : Layout) : Instruction → Lifting Unit
  | .constNull => emitConst .null
  | .constInt value => emitConst (.int value)
  | .constLong value => emitConst (.long value)
  | .constFloat bits => emitConst (.float bits)
  | .constDouble bits => emitConst (.double bits)
  | .constString value => emitConst (.string value)
  | .constClass ty => emitConst (.classRef (s.view.lookupType ty))
  | .constMethodType proto => emitConst (.methodType proto)
  | .constMethodHandle method => emitConst (.methodHandle (s.methodName method))
  | .load ty slot => do
      checkLocal s slot ty
      pushSlot ⟨.slot slot, ty⟩
  | .store ty slot => do
      checkLocal s slot ty
      let v ← popValue
      rebindLocal slot v ty
      nameValue s layout slot (← get).offset v
  | .iinc slot delta => do
      checkLocal s slot .int
      let old ← readLocal slot .int
      let v ← emitValue (.addLiteral .int old delta) .int
      rebindLocal slot v .int
  | .arrayLoad elem => do
      let index ← popValue
      let array ← popValue
      emitPushed (.arrayLoad elem array index) elem.valueType
  | .arrayStore elem => do
      let value ← popValue
      let index ← popValue
      let array ← popValue
      emit (.arrayStore elem array index value)
  | .arrayLength => do emitPushed (.arrayLength (← popValue)) .int
  | .arith op ty => do
      let right ← popValue
      let left ← popValue
      emitPushed (.binary op ty left right) ty
  | .neg ty => do emitPushed (.neg ty (← popValue)) ty
  | .convert source target => do emitPushed (.convert source target (← popValue)) target
  | .cmp ty bias => do
      let right ← popValue
      let left ← popValue
      emitPushed (.compare ty bias left right) .int
  | .new ty => emitPushed (.newInstance (s.view.lookupType ty)) .object
  | .newArray ty => do emitPushed (.newArray (s.view.lookupType ty) (← popValue)) .object
  | .multiNewArray ty dims => do
      emitPushed (.newMultiArray (s.view.lookupType ty) (← popValues dims)) .object
  | .checkCast ty => do emitPushed (.checkCast (s.view.lookupType ty) (← popValue)) .object
  | .instanceOf ty => do emitPushed (.instanceOf (s.view.lookupType ty) (← popValue)) .int
  | .getField field => do
      let object ← popValue
      let field := s.view.lookupField field
      emitPushed (.instanceGet field object) (← valueTypeOf field.ty)
  | .putField field => do
      let value ← popValue
      let object ← popValue
      emit (.instancePut (s.view.lookupField field) object value)
  | .getStatic field => do
      let field := s.view.lookupField field
      emitPushed (.staticGet field) (← valueTypeOf field.ty)
  | .putStatic field => do emit (.staticPut (s.view.lookupField field) (← popValue))
  | .invoke kind method => do
      let args ← popValues (method.argumentCount (!kind.hasReceiver))
      let found := s.view.lookupMethod method s.method kind
      emitCall (.invoke found.kind found.ref args) found.ref.proto.ret
  | .invokeDynamic name proto bootstrap => do
      let args ← popValues proto.params.length
      emitCall (.invokeCustom name proto (s.methodName bootstrap) args) proto.ret
  | .pop => discard (popWords 1)
  | .pop2 => discard (popWords 2)
  | .dup => copyUnder 1 0
  | .dupX1 => copyUnder 1 1
  | .dupX2 => copyUnder 1 2
  | .dup2 => copyUnder 2 0
  | .dup2X1 => copyUnder 2 1
  | .dup2X2 => copyUnder 2 2
  | .swap => do
      let upper ← popWords 1
      let lower ← popWords 1
      (upper ++ lower).forM pushSlot
  | .monitorEnter => do emit (.monitor true (← popValue))
  | .monitorExit => do emit (.monitor false (← popValue))
  | _ => return

def liftInsn (s : Subject) (layout : Layout) (k offset : Nat) (insn : Instruction) :
    Lifting Unit := do
  modify fun p => { p with offset, stack := p.stack.setOffset offset }
  if insn.endsBlock then liftTerminator s layout k insn else liftStep s layout insn

/-! ## Ranges -/

/-- Sets the stack up at the start of a range; a handler starts with the caught exception. -/
def enterRange (s : Subject) (layout : Layout) (k : Nat) : Lifting Unit := do
  match layout.handlerGuards.get? k with
  | some guard =>
    modify fun p => { p with stack := p.stack.enterBlock [] }
    emitPushed (.moveException (guard.map s.view.lookupType)) .object
  | none =>
    match (← get).shapes.get? k with
    | some shape => modify fun p => { p with stack := p.stack.enterBlock shape }
    | none => throw (.malformed (.noStackShape k))

/-- Passes the stack of a finished range on to a successor: the first predecessor fixes the shape
and the others have to arrive at the same depth. -/
def passShape (s : Subject) (layout : Layout) (shape : List ValueType) (succ : Nat) :
    Lifting Unit := do
  match (← get).shapes.get? succ with
  | none => modify fun p => { p with shapes := p.shapes.insert succ shape }
  | some expected =>
    if expected.length ≠ shape.length then
      throw (.stackMismatch s.method (layout.start succ) expected.length shape.length)

def leaveRange (s : Subject) (layout : Layout) (k : Nat) : Lifting Unit := do
  let b := (← get).current
  let slots := (← get).stack.bottomUp
  let values ← slots.mapM resolveSlot
  modify fun p =>
    values.zipIdx.foldl (fun p (v, index) => p.hold b (.stackPlace index) v) p
  modify fun p =>
    p.stack.writtenLocals.foldl (fun p (slot, v, _) => p.hold b (.slot slot) (p.resolve v)) p
  (layout.normal k).forM (passShape s layout (slots.map Slot.ty))
  finishLifted b

def endsItself (s : Subject) (range : Range) : Bool :=
  range.start < range.stop && (insnAt s.body.instructions (range.stop - 1)).endsBlock

def liftRange (s : Subject) (layout : Layout) (k : Nat) (range : Range) : Lifting Unit := do
  let b ← blockOfRange k
  modify fun p => { p with current := b, offset := range.start }
  if range.fallsOff then
    modify fun p => { p with offset := range.stop - 1 }
    fault .fallsOffEnd
  enterRange s layout k
  (List.range (range.stop - range.start)).forM fun i =>
    liftInsn s layout k (range.start + i) (insnAt s.body.instructions (range.start + i))
  if !endsItself s range then
    emit (.goto (← jumpTarget layout k 0))
  leaveRange s layout k

/-! ## Methods -/

def liftParameter (s : Subject) (layout : Layout) (index slot : Nat) (ty : ValueType) :
    Lifting Unit := do
  let entry := (← get).func.entry
  let (_, v) ← build (·.appendValue entry (.argument index) ty (.derived 0))
  nameValue s layout slot 0 v
  modify fun p => p.hold entry (.slot slot) v

def liftParameters (s : Subject) (layout : Layout) : Nat → Nat → List ValueType → Lifting Unit
  | _, _, [] => return
  | index, slot, ty :: rest => do
      liftParameter s layout index slot ty
      liftParameters s layout (index + 1) (slot + ty.slots) rest

/-- Defines the parameters in the entry block and, if that is not the first range, goes there. -/
def liftEntry (s : Subject) (layout : Layout) (separate : Bool) : Lifting Unit := do
  let entry := (← get).func.entry
  modify fun p => { p with current := entry, offset := 0 }
  let declared ← s.method.proto.params.mapM valueTypeOf
  let kinds := if s.isStatic then declared else .object :: declared
  let needed := (kinds.map ValueType.slots).foldr (· + ·) 0
  if s.body.maxLocals < needed then fault (.parameterSlots needed s.body.maxLocals)
  liftParameters s layout 0 0 kinds
  if separate then
    let first ← blockOfRange 0
    discard (build (·.appendInsn entry (.goto first) none (.derived 0)))
    finishLifted entry

def finishFunction (s : Subject) : Lifting Function := do
  let p ← get
  if let some b := p.func.blockIds.find? fun b => b ∉ p.closed then
    throw (.malformed (.neverSealed b s.method))
  edit (do discard Ssa.cleanUpPhis; Ssa.compact)
  let f := { (← get).func with lens := s.view.target <|> s.body.lens }
  if s.config.verify then Ssa.verify f
  return f

def liftCode (s : Subject) (layout : Layout) (order : List Nat) : Lifting Unit := do
  let separate := reentersFirst layout order
  createBlocks s layout order separate
  liftEntry s layout separate
  order.forM fun k => do
    match layout.range? k with
    | some range => liftRange s layout k range
    | none => return

def lift (s : Subject) : Except Error Function := do
  let layout ← Layout.build s.method s.body
  if layout.isHandler 0 then throw (.malformedCode s.method 0 .handlerFirst)
  let start : Progress :=
    { func := .empty s.method s.isStatic
      stack := .empty s.method s.body.maxStack
      shapes := Assoc.empty.insert 0 [] }
  (do liftCode s layout (layout.graph.reversePostorder 0); finishFunction s).run' start

def liftMethod (method : MethodDef) (config : LiftConfig) (view : Lens.View) :
    Except Error Function :=
  match method.code with
  | some body => lift ⟨method.ref, method.isStatic, body, view, config⟩
  | none => throw (.notFound s!"{method.ref} has no code")

end Dissolve.Lift
