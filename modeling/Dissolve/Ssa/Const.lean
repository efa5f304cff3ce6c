import Dissolve.Decimal.Shortest
import Dissolve.Signature.Reference
import Dissolve.Text.Quoted

/-!
# Ssa.Const — constants of SSA form

Floating-point constants are kept as their bits.
-/

namespace Dissolve.Ssa

inductive Const
  | null
  | int (value : Int32)
  | long (value : Int64)
  | float (bits : UInt32)
  | double (bits : UInt64)
  | string (value : String)
  | classRef (ty : TypeRef)
  | methodType (proto : Proto)
  | methodHandle (method : MethodRef)
  deriving DecidableEq

namespace Const

def zero : ValueType → Const
  | .object => .null
  | .int => .int 0
  | .long => .long 0
  | .float => .float 0
  | .double => .double 0

def valueType : Const → ValueType
  | .int _ => .int
  | .long _ => .long
  | .float _ => .float
  | .double _ => .double
  | _ => .object

/-- Whether loading the constant may fail, because it has to be resolved first. -/
def mayThrow : Const → Bool
  | .string _ | .classRef _ | .methodType _ | .methodHandle _ => true
  | _ => false

def text : Const → String
  | .null => "null"
  | .int value => toString value
  | .long value => toString value ++ "L"
  | .float bits => Decimal.single.text bits.toNat ++ "f"
  | .double bits => Decimal.double.text bits.toNat ++ "d"
  | .string value => Text.quoted value
  | .classRef ty => s!"{ty}.class"
  | .methodType proto => s!"methodtype {proto}"
  | .methodHandle method => s!"methodhandle {method}"

instance : ToString Const := ⟨text⟩

/-- Equality of constants in which floating-point numbers compare by value: the zeros are equal, and
a NaN differs from itself. -/
def agrees : Const → Const → Bool
  | .float a, .float b => Decimal.single.numericallyEqual a.toNat b.toNat
  | .double a, .double b => Decimal.double.numericallyEqual a.toNat b.toNat
  | a, b => a = b

theorem valueType_zero (ty : ValueType) : (zero ty).valueType = ty := by
  cases ty <;> rfl

end Const

end Dissolve.Ssa
