import Dissolve.Program.Basic

/-!
# Inline.Verdict — classes whose instances may disappear

An instance can only be replaced by its field values if its class fully describes it and nothing
notices that it was never created. `ClassVerdict.compute` asks the class, before any use of an
instance is looked at.
-/

namespace Dissolve.Inline

inductive ClassRejection
  | undefined
  | abstract
  | interface
  | library
  | pinned
  | superclassNotRoot
  | finalizer
  | staticInitializer
  deriving DecidableEq

namespace ClassRejection

def all : List ClassRejection :=
  [.undefined, .abstract, .interface, .library, .pinned, .superclassNotRoot, .finalizer,
    .staticInitializer]

def text : ClassRejection → String
  | .undefined => "class is not defined"
  | .abstract => "class is abstract"
  | .interface => "class is an interface"
  | .library => "class is a library class"
  | .pinned => "class is pinned"
  | .superclassNotRoot => "superclass is not the root type"
  | .finalizer => "class declares a finalizer"
  | .staticInitializer => "instantiation may run a static initializer"

instance : ToString ClassRejection := ⟨text⟩

end ClassRejection

inductive ClassVerdict
  | eligible
  | ineligible (reason : ClassRejection)
  deriving DecidableEq

namespace ClassVerdict

def isEligible : ClassVerdict → Bool
  | .eligible => true
  | .ineligible _ => false

def text : ClassVerdict → String
  | .eligible => "eligible"
  | .ineligible reason => s!"ineligible ({reason})"

instance : ToString ClassVerdict := ⟨text⟩

def rejection? (program : Program) (c : ClassDef) (ty : TypeRef) : Option ClassRejection :=
  if c.isInterface then some .interface
  else if c.isAbstract then some .abstract
  else if c.isLibrary then some .library
  else if program.isPinned (.type ty) then some .pinned
  else if c.superclass ≠ some .root then some .superclassNotRoot
  else if c.hasFinalizer then some .finalizer
  else if program.canTriggerStaticInitializer ty then some .staticInitializer
  else none

def compute (program : Program) (ty : TypeRef) : ClassVerdict :=
  match program.definition? ty with
  | none => .ineligible .undefined
  | some c =>
    match rejection? program c ty with
    | some reason => .ineligible reason
    | none => .eligible

end ClassVerdict

end Dissolve.Inline
