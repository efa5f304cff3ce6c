/-!
# Signature.ValueType — the kinds of values a machine computes with
-/

namespace Dissolve

/-- The kind of a value on the operand stack, in a local variable or in SSA form. Booleans, bytes,
characters and shorts are integers. -/
inductive ValueType
  | object
  | int
  | float
  | long
  | double
  deriving DecidableEq, Inhabited

namespace ValueType

def all : List ValueType := [.object, .int, .float, .long, .double]

def text : ValueType → String
  | .object => "object"
  | .int => "int"
  | .float => "float"
  | .long => "long"
  | .double => "double"

instance : ToString ValueType := ⟨text⟩

def isWide : ValueType → Bool
  | .long | .double => true
  | _ => false

def slots (ty : ValueType) : Nat :=
  if ty.isWide then 2 else 1

theorem slots_pos (ty : ValueType) : 0 < ty.slots := by
  cases ty <;> decide

end ValueType

end Dissolve
