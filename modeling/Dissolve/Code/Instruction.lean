import Dissolve.Code.Kind
import Dissolve.Code.Operator
import Dissolve.Decimal.Shortest
import Dissolve.Ident
import Dissolve.Signature.Reference
import Dissolve.Text.Listing
import Dissolve.Text.Quoted

/-!
# Code.Instruction — instructions of the stack machine

`Instruction` is the closed set of instructions. Jumps name labels; the pseudo-instruction `label`
marks the position it names and does nothing. Floating-point constants are kept as their bits.
-/

namespace Dissolve.Code

inductive Instruction
  | label (name : Label)
  | constNull
  | constInt (value : Int32)
  | constLong (value : Int64)
  | constFloat (bits : UInt32)
  | constDouble (bits : UInt64)
  | constString (value : String)
  | constClass (ty : TypeRef)
  | constMethodType (proto : Proto)
  | constMethodHandle (method : MethodRef)
  | load (ty : ValueType) (slot : Nat)
  | store (ty : ValueType) (slot : Nat)
  | iinc (slot : Nat) (delta : Int32)
  | arrayLoad (elem : ArrayElem)
  | arrayStore (elem : ArrayElem)
  | arrayLength
  | arith (op : ArithOp) (ty : ValueType)
  | neg (ty : ValueType)
  | convert (source target : ValueType)
  | cmp (ty : ValueType) (bias : CmpBias)
  | branch (cond : Cond) (ty : ValueType) (target : Label)
  | branchCmp (cond : Cond) (ty : ValueType) (target : Label)
  | goto (target : Label)
  | tableSwitch (low : Int32) (targets : List Label) (default : Label)
  | lookupSwitch (keys : List Int32) (targets : List Label) (default : Label)
  | ret (ty : Option ValueType)
  | throw
  | new (ty : TypeRef)
  | newArray (ty : TypeRef)
  | multiNewArray (ty : TypeRef) (dims : Nat)
  | checkCast (ty : TypeRef)
  | instanceOf (ty : TypeRef)
  | getField (field : FieldRef)
  | putField (field : FieldRef)
  | getStatic (field : FieldRef)
  | putStatic (field : FieldRef)
  | invoke (kind : InvokeKind) (method : MethodRef)
  | invokeDynamic (name : String) (proto : Proto) (bootstrap : MethodRef)
  | pop
  | pop2
  | dup
  | dupX1
  | dupX2
  | dup2
  | dup2X1
  | dup2X2
  | swap
  | monitorEnter
  | monitorExit
  | nop
  deriving DecidableEq

namespace Instruction

def kind : Instruction → Kind
  | .label _ => .label
  | .constNull => .constNull
  | .constInt _ => .constInt
  | .constLong _ => .constLong
  | .constFloat _ => .constFloat
  | .constDouble _ => .constDouble
  | .constString _ => .constString
  | .constClass _ => .constClass
  | .constMethodType _ => .constMethodType
  | .constMethodHandle _ => .constMethodHandle
  | .load .. => .load
  | .store .. => .store
  | .iinc .. => .iinc
  | .arrayLoad _ => .arrayLoad
  | .arrayStore _ => .arrayStore
  | .arrayLength => .arrayLength
  | .arith .. => .arith
  | .neg _ => .neg
  | .convert .. => .convert
  | .cmp .. => .cmp
  | .branch .. => .branch
  | .branchCmp .. => .branchCmp
  | .goto _ => .goto
  | .tableSwitch .. => .tableSwitch
  | .lookupSwitch .. => .lookupSwitch
  | .ret _ => .ret
  | .throw => .throw
  | .new _ => .new
  | .newArray _ => .newArray
  | .multiNewArray .. => .multiNewArray
  | .checkCast _ => .checkCast
  | .instanceOf _ => .instanceOf
  | .getField _ => .getField
  | .putField _ => .putField
  | .getStatic _ => .getStatic
  | .putStatic _ => .putStatic
  | .invoke .. => .invoke
  | .invokeDynamic .. => .invokeDynamic
  | .pop => .pop
  | .pop2 => .pop2
  | .dup => .dup
  | .dupX1 => .dupX1
  | .dupX2 => .dupX2
  | .dup2 => .dup2
  | .dup2X1 => .dup2X1
  | .dup2X2 => .dup2X2
  | .swap => .swap
  | .monitorEnter => .monitorEnter
  | .monitorExit => .monitorExit
  | .nop => .nop

def semantics (insn : Instruction) : Semantics :=
  insn.kind.semantics

/-- Whether an instruction may transfer control abnormally: as the table says, and for integral
division and remainder. -/
def mayThrow : Instruction → Bool
  | .arith op ty => op.failsOnZero ty
  | insn => insn.semantics.mayThrow

def endsBlock (insn : Instruction) : Bool :=
  insn.semantics.flow.endsBlock

def fallsThrough (insn : Instruction) : Bool :=
  insn.semantics.flow.fallsThrough

/-- The labels an instruction can jump to, the default of a switch last. -/
def branchTargets : Instruction → List Label
  | .branch _ _ target | .branchCmp _ _ target | .goto target => [target]
  | .tableSwitch _ targets default | .lookupSwitch _ targets default => targets ++ [default]
  | _ => []

def isLabel : Instruction → Bool
  | .label _ => true
  | _ => false

def labelList (labels : List Label) : String :=
  Text.bracketed (labels.map Label.debugText)

def text (insn : Instruction) : String :=
  let mnemonic := insn.semantics.mnemonic
  match insn with
  | .label name => s!"{name}:"
  | .constInt value => s!"{mnemonic} {value}"
  | .constLong value => s!"{mnemonic} {value}"
  | .constFloat bits => mnemonic ++ " " ++ Decimal.single.text bits.toNat
  | .constDouble bits => mnemonic ++ " " ++ Decimal.double.text bits.toNat
  | .constString value => mnemonic ++ " " ++ Text.quoted value
  | .constClass ty | .new ty | .newArray ty | .checkCast ty | .instanceOf ty => s!"{mnemonic} {ty}"
  | .constMethodType proto => s!"{mnemonic} {proto}"
  | .constMethodHandle method => s!"{mnemonic} {method}"
  | .load ty slot | .store ty slot => s!"{mnemonic}_{ty} {slot}"
  | .iinc slot delta => s!"{mnemonic} {slot} {delta}"
  | .arrayLoad elem | .arrayStore elem => s!"{mnemonic} {elem}"
  | .arith op ty => s!"{op}_{ty}"
  | .neg ty => s!"{mnemonic}_{ty}"
  | .convert source target => s!"{source}2{target}"
  | .cmp ty bias => s!"{mnemonic}_{ty} {bias}"
  | .branch cond ty target => s!"if{cond}_{ty} {target}"
  | .branchCmp cond ty target => s!"if_cmp{cond}_{ty} {target}"
  | .goto target => s!"{mnemonic} {target}"
  | .tableSwitch low targets default =>
    s!"{mnemonic} {low} {labelList targets} default {default}"
  | .lookupSwitch keys targets default =>
    let shown := Text.bracketed (keys.map toString)
    s!"{mnemonic} {shown} {labelList targets} default {default}"
  | .ret (some ty) => s!"{mnemonic}_{ty}"
  | .multiNewArray ty dims => s!"{mnemonic} {ty} {dims}"
  | .getField field | .putField field | .getStatic field | .putStatic field =>
    s!"{mnemonic} {field}"
  | .invoke kind method => s!"{mnemonic}{kind} {method}"
  | .invokeDynamic name proto bootstrap => s!"{mnemonic} {name}{proto} via {bootstrap}"
  | _ => mnemonic

instance : ToString Instruction := ⟨text⟩

end Instruction

end Dissolve.Code
