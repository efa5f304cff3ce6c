import Dissolve.Signature.ValueType

/-!
# Signature.TypeRef — types named by descriptors

A type is named by its descriptor: one letter for a primitive type, `L…;` for a class, and `[`
before the descriptor of an element type for an array. Any text may stand as a descriptor; the
questions below only look at how it begins.
-/

namespace Dissolve

structure TypeRef where
  descriptor : String
  deriving DecidableEq, Ord, Inhabited

namespace TypeRef

instance : ToString TypeRef := ⟨TypeRef.descriptor⟩

def root : TypeRef := ⟨"Ljava/lang/Object;"⟩

def debugText (ty : TypeRef) : String :=
  s!"TypeRef({ty})"

def isVoid (ty : TypeRef) : Bool :=
  ty.descriptor = "V"

def isArray (ty : TypeRef) : Bool :=
  ty.descriptor.toList.head? = some '['

def isReference (ty : TypeRef) : Bool :=
  ty.descriptor.toList.head? = some 'L' || ty.isArray

def isWide (ty : TypeRef) : Bool :=
  ty.descriptor = "J" || ty.descriptor = "D"

def valueTypeOf? : Char → Option ValueType
  | 'Z' | 'B' | 'C' | 'S' | 'I' => some .int
  | 'J' => some .long
  | 'F' => some .float
  | 'D' => some .double
  | 'L' | '[' => some .object
  | _ => none

/-- The kind of the values of a type; there is none for `V` and for text that is no descriptor. -/
def valueType? (ty : TypeRef) : Option ValueType :=
  ty.descriptor.toList.head?.bind valueTypeOf?

def elementType? (ty : TypeRef) : Option TypeRef :=
  match ty.descriptor.toList with
  | '[' :: element => some ⟨String.ofList element⟩
  | _ => none

end TypeRef

end Dissolve
