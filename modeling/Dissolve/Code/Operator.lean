import Dissolve.Signature.ValueType

/-!
# Code.Operator — operators shared by stack code and SSA form
-/

namespace Dissolve

inductive ArithOp
  | add
  | sub
  | mul
  | div
  | rem
  | shl
  | shr
  | ushr
  | and
  | or
  | xor
  deriving DecidableEq, Inhabited

namespace ArithOp

def all : List ArithOp :=
  [.add, .sub, .mul, .div, .rem, .shl, .shr, .ushr, .and, .or, .xor]

def text : ArithOp → String
  | .add => "add"
  | .sub => "sub"
  | .mul => "mul"
  | .div => "div"
  | .rem => "rem"
  | .shl => "shl"
  | .shr => "shr"
  | .ushr => "ushr"
  | .and => "and"
  | .or => "or"
  | .xor => "xor"

instance : ToString ArithOp := ⟨text⟩

/-- Whether the right operand is a shift distance, which is always an `int`. -/
def isShift : ArithOp → Bool
  | .shl | .shr | .ushr => true
  | _ => false

def failsOnZero (op : ArithOp) (ty : ValueType) : Bool :=
  match op, ty with
  | .div, .int | .div, .long | .rem, .int | .rem, .long => true
  | _, _ => false

end ArithOp

inductive CmpBias
  | none
  | less
  | greater
  deriving DecidableEq, Inhabited

def CmpBias.text : CmpBias → String
  | .none => "None"
  | .less => "Less"
  | .greater => "Greater"

instance : ToString CmpBias := ⟨CmpBias.text⟩

inductive Cond
  | eq
  | ne
  | lt
  | ge
  | gt
  | le
  deriving DecidableEq, Inhabited

namespace Cond

def all : List Cond := [.eq, .ne, .lt, .ge, .gt, .le]

def text : Cond → String
  | .eq => "eq"
  | .ne => "ne"
  | .lt => "lt"
  | .ge => "ge"
  | .gt => "gt"
  | .le => "le"

instance : ToString Cond := ⟨text⟩

end Cond

/-- The kind of the elements of an accessed array. Booleans count as bytes. -/
inductive ArrayElem
  | byte
  | char
  | short
  | int
  | long
  | float
  | double
  | object
  deriving DecidableEq, Inhabited

namespace ArrayElem

def all : List ArrayElem :=
  [.byte, .char, .short, .int, .long, .float, .double, .object]

def text : ArrayElem → String
  | .byte => "Byte"
  | .char => "Char"
  | .short => "Short"
  | .int => "Int"
  | .long => "Long"
  | .float => "Float"
  | .double => "Double"
  | .object => "Object"

instance : ToString ArrayElem := ⟨text⟩

def valueType : ArrayElem → ValueType
  | .byte | .char | .short | .int => .int
  | .long => .long
  | .float => .float
  | .double => .double
  | .object => .object

end ArrayElem

end Dissolve
