import Dissolve.Signature.Proto

/-!
# Signature.Reference — methods and fields by name

A method is named by its holder, its name and its prototype; a field by its holder, its name and its
type. The orders are lexicographic in these components, a prototype by its result first.
-/

namespace Dissolve

structure MethodRef where
  holder : TypeRef
  name : String
  proto : Proto
  deriving DecidableEq, Ord, Inhabited

namespace MethodRef

def text (m : MethodRef) : String :=
  s!"{m.holder}->{m.name}{m.proto}"

instance : ToString MethodRef := ⟨text⟩

def debugText (m : MethodRef) : String :=
  s!"MethodRef({m})"

def isConstructor (m : MethodRef) : Bool :=
  m.name = "<init>"

def isClassInitializer (m : MethodRef) : Bool :=
  m.name = "<clinit>"

def argumentCount (m : MethodRef) (isStatic : Bool) : Nat :=
  m.proto.params.length + if isStatic then 0 else 1

def withHolder (m : MethodRef) (holder : TypeRef) : MethodRef :=
  { m with holder := holder }

end MethodRef

structure FieldRef where
  holder : TypeRef
  name : String
  ty : TypeRef
  deriving DecidableEq, Ord, Inhabited

namespace FieldRef

def text (f : FieldRef) : String :=
  s!"{f.holder}->{f.name}:{f.ty}"

instance : ToString FieldRef := ⟨text⟩

def debugText (f : FieldRef) : String :=
  s!"FieldRef({f})"

end FieldRef

inductive InvokeKind
  | static
  | virtual
  | interface
  | special
  deriving DecidableEq, Inhabited

namespace InvokeKind

def all : List InvokeKind := [.static, .virtual, .interface, .special]

def text : InvokeKind → String
  | .static => "static"
  | .virtual => "virtual"
  | .interface => "interface"
  | .special => "special"

instance : ToString InvokeKind := ⟨text⟩

/-- Whether the first argument of the call is the object it is made on. -/
def hasReceiver : InvokeKind → Bool
  | .static => false
  | _ => true

end InvokeKind

/-- Something of a program that can be pinned, that is, protected from change. -/
inductive ProgramItem
  | type (ty : TypeRef)
  | method (m : MethodRef)
  | field (f : FieldRef)
  deriving DecidableEq

end Dissolve
