import Dissolve.Code.Body
import Dissolve.Program.Flags

/-!
# Program.Class — definitions of classes, methods and fields
-/

namespace Dissolve

structure FieldDef where
  ref : FieldRef
  flags : FieldFlags
  deriving DecidableEq

def FieldDef.isStatic (f : FieldDef) : Bool := f.flags.isStatic

/-- A declared method; a method without code is abstract, native or outside the program. -/
structure MethodDef where
  ref : MethodRef
  flags : MethodFlags
  code : Option Code.Body
  deriving DecidableEq

namespace MethodDef

def isStatic (m : MethodDef) : Bool := m.flags.isStatic

def isAbstract (m : MethodDef) : Bool := m.flags.isAbstract

def isNative (m : MethodDef) : Bool := m.flags.isNative

def isBridge (m : MethodDef) : Bool := m.flags.isBridge

def isSynchronized (m : MethodDef) : Bool := m.flags.isSynchronized

def isConstructor (m : MethodDef) : Bool := m.ref.isConstructor

end MethodDef

structure ClassDef where
  ty : TypeRef
  flags : ClassFlags
  superclass : Option TypeRef
  interfaces : List TypeRef
  fields : List FieldDef
  methods : List MethodDef
  deriving DecidableEq

namespace ClassDef

def isInterface (c : ClassDef) : Bool := c.flags.isInterface

def isAbstract (c : ClassDef) : Bool := c.flags.isAbstract

def isLibrary (c : ClassDef) : Bool := c.flags.isLibrary

def lookupField? (c : ClassDef) (field : FieldRef) : Option FieldDef :=
  c.fields.find? (·.ref = field)

def lookupMethod? (c : ClassDef) (method : MethodRef) : Option MethodDef :=
  c.methods.find? (·.ref = method)

/-- The method a virtual call selects when it reaches this class: one of the right name and
prototype that is neither static nor abstract nor a constructor. -/
def lookupVirtual? (c : ClassDef) (name : String) (proto : Proto) : Option MethodDef :=
  c.methods.find? fun m =>
    m.ref.name = name && m.ref.proto = proto && !m.isStatic && !m.isAbstract && !m.isConstructor

def instanceFields (c : ClassDef) : List FieldDef :=
  c.fields.filter (!·.isStatic)

def hasFinalizer (c : ClassDef) : Bool :=
  c.methods.any fun m =>
    m.ref.name = "finalize" && m.ref.proto.params.isEmpty && m.ref.proto.ret.isVoid && !m.isStatic

def hasClassInitializer (c : ClassDef) : Bool :=
  c.methods.any (·.ref.isClassInitializer)

def supertypes (c : ClassDef) : List TypeRef :=
  c.superclass.toList ++ c.interfaces

end ClassDef

end Dissolve
