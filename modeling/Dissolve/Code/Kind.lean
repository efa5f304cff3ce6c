/-!
# Code.Kind — what all stack instructions of one kind have in common

`Kind.semantics` is the table of instruction kinds: the mnemonic, how control leaves an instruction
of the kind, the group it belongs to, and whether every instruction of the kind may throw.
-/

namespace Dissolve.Code

inductive Flow
  | sequential
  | conditionalBranch
  | unconditionalBranch
  | call
  | switch
  | ret
  | throw
  deriving DecidableEq

namespace Flow

def text : Flow → String
  | .sequential => "Sequential"
  | .conditionalBranch => "ConditionalBranch"
  | .unconditionalBranch => "UnconditionalBranch"
  | .call => "Call"
  | .switch => "Switch"
  | .ret => "Return"
  | .throw => "Throw"

instance : ToString Flow := ⟨text⟩

def endsBlock : Flow → Bool
  | .sequential | .call => false
  | _ => true

def fallsThrough : Flow → Bool
  | .sequential | .call | .conditionalBranch => true
  | _ => false

end Flow

inductive Category
  | pseudo
  | constant
  | local
  | array
  | arithmetic
  | controlFlow
  | objectModel
  | invoke
  | stack
  deriving DecidableEq

def Category.text : Category → String
  | .pseudo => "Pseudo"
  | .constant => "Constant"
  | .local => "Local"
  | .array => "Array"
  | .arithmetic => "Arithmetic"
  | .controlFlow => "ControlFlow"
  | .objectModel => "ObjectModel"
  | .invoke => "Invoke"
  | .stack => "Stack"

instance : ToString Category := ⟨Category.text⟩

inductive Kind
  | label
  | constNull
  | constInt
  | constLong
  | constFloat
  | constDouble
  | constString
  | constClass
  | constMethodType
  | constMethodHandle
  | load
  | store
  | iinc
  | arrayLoad
  | arrayStore
  | arrayLength
  | arith
  | neg
  | convert
  | cmp
  | branch
  | branchCmp
  | goto
  | tableSwitch
  | lookupSwitch
  | ret
  | throw
  | new
  | newArray
  | multiNewArray
  | checkCast
  | instanceOf
  | getField
  | putField
  | getStatic
  | putStatic
  | invoke
  | invokeDynamic
  | pop
  | pop2
  | dup
  | dupX1
  | dupX2
  | dup2
  | dup2X1
  | dup2X2
  | swap
  | monitorEnter
  | monitorExit
  | nop
  deriving DecidableEq

structure Semantics where
  mnemonic : String
  flow : Flow
  category : Category
  mayThrow : Bool

namespace Kind

def all : List Kind :=
  [.label, .constNull, .constInt, .constLong, .constFloat, .constDouble, .constString, .constClass,
    .constMethodType, .constMethodHandle, .load, .store, .iinc, .arrayLoad, .arrayStore,
    .arrayLength, .arith, .neg, .convert, .cmp, .branch, .branchCmp, .goto, .tableSwitch,
    .lookupSwitch, .ret, .throw, .new, .newArray, .multiNewArray, .checkCast, .instanceOf,
    .getField, .putField, .getStatic, .putStatic, .invoke, .invokeDynamic, .pop, .pop2, .dup,
    .dupX1, .dupX2, .dup2, .dup2X1, .dup2X2, .swap, .monitorEnter, .monitorExit, .nop]

def text : Kind → String
  | .label => "Label"
  | .constNull => "ConstNull"
  | .constInt => "ConstInt"
  | .constLong => "ConstLong"
  | .constFloat => "ConstFloat"
  | .constDouble => "ConstDouble"
  | .constString => "ConstString"
  | .constClass => "ConstClass"
  | .constMethodType => "ConstMethodType"
  | .constMethodHandle => "ConstMethodHandle"
  | .load => "Load"
  | .store => "Store"
  | .iinc => "Iinc"
  | .arrayLoad => "ArrayLoad"
  | .arrayStore => "ArrayStore"
  | .arrayLength => "ArrayLength"
  | .arith => "Arith"
  | .neg => "Neg"
  | .convert => "Convert"
  | .cmp => "Cmp"
  | .branch => "If"
  | .branchCmp => "IfCmp"
  | .goto => "Goto"
  | .tableSwitch => "TableSwitch"
  | .lookupSwitch => "LookupSwitch"
  | .ret => "Return"
  | .throw => "Throw"
  | .new => "New"
  | .newArray => "NewArray"
  | .multiNewArray => "MultiANewArray"
  | .checkCast => "CheckCast"
  | .instanceOf => "InstanceOf"
  | .getField => "GetField"
  | .putField => "PutField"
  | .getStatic => "GetStatic"
  | .putStatic => "PutStatic"
  | .invoke => "Invoke"
  | .invokeDynamic => "InvokeDynamic"
  | .pop => "Pop"
  | .pop2 => "Pop2"
  | .dup => "Dup"
  | .dupX1 => "DupX1"
  | .dupX2 => "DupX2"
  | .dup2 => "Dup2"
  | .dup2X1 => "Dup2X1"
  | .dup2X2 => "Dup2X2"
  | .swap => "Swap"
  | .monitorEnter => "MonitorEnter"
  | .monitorExit => "MonitorExit"
  | .nop => "Nop"

instance : ToString Kind := ⟨text⟩

/-- The table of kinds. Loading a pooled constant may throw, because resolving it may fail. -/
def semantics : Kind → Semantics
  | .label => ⟨"label", .sequential, .pseudo, false⟩
  | .nop => ⟨"nop", .sequential, .pseudo, false⟩
  | .constNull => ⟨"aconst_null", .sequential, .constant, false⟩
  | .constInt => ⟨"iconst", .sequential, .constant, false⟩
  | .constLong => ⟨"lconst", .sequential, .constant, false⟩
  | .constFloat => ⟨"fconst", .sequential, .constant, false⟩
  | .constDouble => ⟨"dconst", .sequential, .constant, false⟩
  | .constString => ⟨"ldc_string", .sequential, .constant, true⟩
  | .constClass => ⟨"ldc_class", .sequential, .constant, true⟩
  | .constMethodType => ⟨"ldc_method_type", .sequential, .constant, true⟩
  | .constMethodHandle => ⟨"ldc_method_handle", .sequential, .constant, true⟩
  | .load => ⟨"load", .sequential, .local, false⟩
  | .store => ⟨"store", .sequential, .local, false⟩
  | .iinc => ⟨"iinc", .sequential, .local, false⟩
  | .arrayLoad => ⟨"arrayload", .sequential, .array, true⟩
  | .arrayStore => ⟨"arraystore", .sequential, .array, true⟩
  | .arrayLength => ⟨"arraylength", .sequential, .array, true⟩
  | .arith => ⟨"arith", .sequential, .arithmetic, false⟩
  | .neg => ⟨"neg", .sequential, .arithmetic, false⟩
  | .convert => ⟨"convert", .sequential, .arithmetic, false⟩
  | .cmp => ⟨"cmp", .sequential, .arithmetic, false⟩
  | .branch => ⟨"if", .conditionalBranch, .controlFlow, false⟩
  | .branchCmp => ⟨"if_cmp", .conditionalBranch, .controlFlow, false⟩
  | .goto => ⟨"goto", .unconditionalBranch, .controlFlow, false⟩
  | .tableSwitch => ⟨"tableswitch", .switch, .controlFlow, false⟩
  | .lookupSwitch => ⟨"lookupswitch", .switch, .controlFlow, false⟩
  | .ret => ⟨"return", .ret, .controlFlow, false⟩
  | .throw => ⟨"athrow", .throw, .controlFlow, true⟩
  | .new => ⟨"new", .sequential, .objectModel, true⟩
  | .newArray => ⟨"newarray", .sequential, .objectModel, true⟩
  | .multiNewArray => ⟨"multianewarray", .sequential, .objectModel, true⟩
  | .checkCast => ⟨"checkcast", .sequential, .objectModel, true⟩
  | .instanceOf => ⟨"instanceof", .sequential, .objectModel, true⟩
  | .getField => ⟨"getfield", .sequential, .objectModel, true⟩
  | .putField => ⟨"putfield", .sequential, .objectModel, true⟩
  | .getStatic => ⟨"getstatic", .sequential, .objectModel, true⟩
  | .putStatic => ⟨"putstatic", .sequential, .objectModel, true⟩
  | .invoke => ⟨"invoke", .call, .invoke, true⟩
  | .invokeDynamic => ⟨"invokedynamic", .call, .invoke, true⟩
  | .pop => ⟨"pop", .sequential, .stack, false⟩
  | .pop2 => ⟨"pop2", .sequential, .stack, false⟩
  | .dup => ⟨"dup", .sequential, .stack, false⟩
  | .dupX1 => ⟨"dup_x1", .sequential, .stack, false⟩
  | .dupX2 => ⟨"dup_x2", .sequential, .stack, false⟩
  | .dup2 => ⟨"dup2", .sequential, .stack, false⟩
  | .dup2X1 => ⟨"dup2_x1", .sequential, .stack, false⟩
  | .dup2X2 => ⟨"dup2_x2", .sequential, .stack, false⟩
  | .swap => ⟨"swap", .sequential, .stack, false⟩
  | .monitorEnter => ⟨"monitorenter", .sequential, .objectModel, true⟩
  | .monitorExit => ⟨"monitorexit", .sequential, .objectModel, true⟩

end Kind

end Dissolve.Code
