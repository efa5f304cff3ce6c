import Dissolve.Code.Operator
import Dissolve.Ident
import Dissolve.Ssa.Const
import Dissolve.Text.Listing

/-!
# Ssa.Op — operations of SSA form

`Op` is the closed set of operations. An operation carries the values it reads and, where it ends a
block, the blocks it can continue at; its result, if any, belongs to the instruction.
-/

namespace Dissolve.Ssa

inductive SwitchKeys
  /-- The keys `low`, `low + 1`, …, one per target. -/
  | table (low : Int32)
  | lookup (keys : List Int32)
  deriving DecidableEq

/-- The key of target number `index`; there is none behind the largest 32-bit number. -/
def SwitchKeys.key? : SwitchKeys → Nat → Option Int32
  | .table low, index =>
    let key := low.toInt + (index : Int)
    if index < 0x80000000 ∧ key < 0x80000000 then some (Int32.ofInt key) else none
  | .lookup keys, index => keys[index]?

inductive Op
  | const (value : Const)
  /-- Defines a parameter; the receiver of an instance method is number zero. -/
  | argument (index : Nat)
  | binary (op : ArithOp) (ty : ValueType) (left right : ValueId)
  | addLiteral (ty : ValueType) (value : ValueId) (literal : Int32)
  | neg (ty : ValueType) (value : ValueId)
  | convert (source target : ValueType) (value : ValueId)
  | compare (ty : ValueType) (bias : CmpBias) (left right : ValueId)
  | arrayLoad (elem : ArrayElem) (array index : ValueId)
  | arrayStore (elem : ArrayElem) (array index value : ValueId)
  | arrayLength (array : ValueId)
  | newInstance (ty : TypeRef)
  | newArray (ty : TypeRef) (size : ValueId)
  | newMultiArray (ty : TypeRef) (dims : List ValueId)
  | checkCast (ty : TypeRef) (object : ValueId)
  | instanceOf (ty : TypeRef) (object : ValueId)
  | instanceGet (field : FieldRef) (object : ValueId)
  | instancePut (field : FieldRef) (object value : ValueId)
  | staticGet (field : FieldRef)
  | staticPut (field : FieldRef) (value : ValueId)
  /-- A call; the first argument is the receiver unless the call is static. -/
  | invoke (kind : InvokeKind) (method : MethodRef) (args : List ValueId)
  | invokeCustom (name : String) (proto : Proto) (bootstrap : MethodRef) (args : List ValueId)
  | monitor (enter : Bool) (object : ValueId)
  /-- Defines the caught exception at the start of a handler block. -/
  | moveException (guard : Option TypeRef)
  | goto (target : BlockId)
  /-- A two-way branch; without a right operand the left one is compared with zero or null. -/
  | branch (cond : Cond) (left : ValueId) (right : Option ValueId)
      (thenTarget elseTarget : BlockId)
  | switch (selector : ValueId) (keys : SwitchKeys) (targets : List BlockId) (default : BlockId)
  | ret (value : Option ValueId)
  | throw (exception : ValueId)
  /-- Does nothing; removed instructions hold it. -/
  | nop
  deriving DecidableEq

instance : Inhabited Op := ⟨.nop⟩

namespace Op

def operands : Op → List ValueId
  | .const _ | .argument _ | .newInstance _ | .staticGet _ | .moveException _ | .goto _ | .nop => []
  | .binary _ _ left right | .compare _ _ left right => [left, right]
  | .addLiteral _ value _ | .neg _ value | .convert _ _ value | .staticPut _ value => [value]
  | .arrayLoad _ array index => [array, index]
  | .arrayStore _ array index value => [array, index, value]
  | .arrayLength array => [array]
  | .newArray _ size => [size]
  | .newMultiArray _ dims => dims
  | .checkCast _ object | .instanceOf _ object | .instanceGet _ object | .monitor _ object =>
    [object]
  | .instancePut _ object value => [object, value]
  | .invoke _ _ args | .invokeCustom _ _ _ args => args
  | .branch _ left right _ _ => left :: right.toList
  | .switch selector _ _ _ => [selector]
  | .ret value => value.toList
  | .throw exception => [exception]

def mapOperands (f : ValueId → ValueId) : Op → Op
  | .binary op ty left right => .binary op ty (f left) (f right)
  | .compare ty bias left right => .compare ty bias (f left) (f right)
  | .addLiteral ty value literal => .addLiteral ty (f value) literal
  | .neg ty value => .neg ty (f value)
  | .convert source target value => .convert source target (f value)
  | .staticPut field value => .staticPut field (f value)
  | .arrayLoad elem array index => .arrayLoad elem (f array) (f index)
  | .arrayStore elem array index value => .arrayStore elem (f array) (f index) (f value)
  | .arrayLength array => .arrayLength (f array)
  | .newArray ty size => .newArray ty (f size)
  | .newMultiArray ty dims => .newMultiArray ty (dims.map f)
  | .checkCast ty object => .checkCast ty (f object)
  | .instanceOf ty object => .instanceOf ty (f object)
  | .instanceGet field object => .instanceGet field (f object)
  | .monitor enter object => .monitor enter (f object)
  | .instancePut field object value => .instancePut field (f object) (f value)
  | .invoke kind method args => .invoke kind method (args.map f)
  | .invokeCustom name proto bootstrap args => .invokeCustom name proto bootstrap (args.map f)
  | .branch cond left right thenTarget elseTarget =>
    .branch cond (f left) (right.map f) thenTarget elseTarget
  | .switch selector keys targets default => .switch (f selector) keys targets default
  | .ret value => .ret (value.map f)
  | .throw exception => .throw (f exception)
  | op => op

/-- The blocks an operation can continue at, in edge order, the default of a switch last. -/
def targets : Op → List BlockId
  | .goto target => [target]
  | .branch _ _ _ thenTarget elseTarget => [thenTarget, elseTarget]
  | .switch _ _ targets default => targets ++ [default]
  | _ => []

def mapTargets (f : BlockId → BlockId) : Op → Op
  | .goto target => .goto (f target)
  | .branch cond left right thenTarget elseTarget =>
    .branch cond left right (f thenTarget) (f elseTarget)
  | .switch selector keys targets default => .switch selector keys (targets.map f) (f default)
  | op => op

def uses (op : Op) (value : ValueId) : Bool :=
  decide (value ∈ op.operands)

def isTerminator : Op → Bool
  | .goto _ | .branch .. | .switch .. | .ret _ | .throw _ => true
  | _ => false

def mayThrow : Op → Bool
  | .const value => value.mayThrow
  | .binary op ty _ _ => op.failsOnZero ty
  | .arrayLoad .. | .arrayStore .. | .arrayLength _ | .newInstance _ | .newArray ..
  | .newMultiArray .. | .checkCast .. | .instanceOf .. | .instanceGet .. | .instancePut ..
  | .staticGet _ | .staticPut .. | .invoke .. | .invokeCustom .. | .monitor .. | .throw _ => true
  | _ => false

def mnemonic : Op → String
  | .const _ => "const"
  | .argument _ => "arg"
  | .binary op _ _ _ => op.text
  | .addLiteral .. => "add-lit"
  | .neg .. => "neg"
  | .convert .. => "convert"
  | .compare .. => "cmp"
  | .arrayLoad .. => "aget"
  | .arrayStore .. => "aput"
  | .arrayLength _ => "array-length"
  | .newInstance _ => "new-instance"
  | .newArray .. => "new-array"
  | .newMultiArray .. => "new-multi-array"
  | .checkCast .. => "check-cast"
  | .instanceOf .. => "instance-of"
  | .instanceGet .. => "iget"
  | .instancePut .. => "iput"
  | .staticGet _ => "sget"
  | .staticPut .. => "sput"
  | .invoke .. => "invoke"
  | .invokeCustom .. => "invoke-custom"
  | .monitor true _ => "monitor-enter"
  | .monitor false _ => "monitor-exit"
  | .moveException _ => "move-exception"
  | .goto _ => "goto"
  | .branch .. => "if"
  | .switch .. => "switch"
  | .ret _ => "return"
  | .throw _ => "throw"
  | .nop => "nop"

def valueList (values : List ValueId) : String :=
  Text.commaSeparated (values.map toString)

def text (op : Op) : String :=
  let mnemonic := op.mnemonic
  match op with
  | .const value => s!"{mnemonic} {value}"
  | .argument index => s!"{mnemonic} {index}"
  | .addLiteral _ value literal => s!"{mnemonic} {value}, {literal}"
  | .convert source target value => s!"{source}-to-{target} {value}"
  | .newInstance ty => s!"{mnemonic} {ty}"
  | .newArray ty size => s!"{mnemonic} {ty}[{size}]"
  | .checkCast ty object | .instanceOf ty object => s!"{mnemonic} {object}, {ty}"
  | .instanceGet field object => s!"{mnemonic} {object}.{field.name}"
  | .instancePut field object value => s!"{mnemonic} {object}.{field.name} = {value}"
  | .staticGet field => s!"{mnemonic} {field}"
  | .staticPut field value => s!"{mnemonic} {field} = {value}"
  | .invoke kind method args => s!"{mnemonic}-{kind} {method}({valueList args})"
  | .invokeCustom name _ _ args => s!"{mnemonic} {name}({valueList args})"
  | .moveException (some ty) => s!"{mnemonic} {ty}"
  | .goto target => s!"{mnemonic} {target}"
  | .branch cond left right thenTarget elseTarget =>
    let compared :=
      match right with
      | some right => s!"{left}, {right}"
      | none => toString left
    s!"if-{cond} {compared} then {thenTarget} else {elseTarget}"
  | .switch selector _ targets default =>
    let shown := Text.bracketed (targets.map toString)
    s!"{mnemonic} {selector} {shown} default {default}"
  | op => if op.operands.isEmpty then mnemonic else s!"{mnemonic} {valueList op.operands}"

instance : ToString Op := ⟨text⟩

def agrees : Op → Op → Bool
  | .const a, .const b => a.agrees b
  | a, b => a = b

@[simp] theorem operands_mapOperands (f : ValueId → ValueId) (op : Op) :
    (op.mapOperands f).operands = op.operands.map f := by
  cases op with
  | branch cond left right thenTarget elseTarget => cases right <;> rfl
  | ret value => cases value <;> rfl
  | _ => rfl

@[simp] theorem targets_mapTargets (f : BlockId → BlockId) (op : Op) :
    (op.mapTargets f).targets = op.targets.map f := by
  cases op with
  | switch selector keys targets default => simp [mapTargets, Op.targets]
  | _ => rfl

@[simp] theorem targets_mapOperands (f : ValueId → ValueId) (op : Op) :
    (op.mapOperands f).targets = op.targets := by
  cases op <;> rfl

@[simp] theorem operands_mapTargets (f : BlockId → BlockId) (op : Op) :
    (op.mapTargets f).operands = op.operands := by
  cases op <;> rfl

@[simp] theorem isTerminator_mapOperands (f : ValueId → ValueId) (op : Op) :
    (op.mapOperands f).isTerminator = op.isTerminator := by
  cases op <;> rfl

@[simp] theorem isTerminator_mapTargets (f : BlockId → BlockId) (op : Op) :
    (op.mapTargets f).isTerminator = op.isTerminator := by
  cases op <;> rfl

end Op

end Dissolve.Ssa
