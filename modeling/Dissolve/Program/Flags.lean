/-!
# Program.Flags — modifiers of classes, methods and fields

Modifiers are bit sets. Reading a set keeps the bits that have a meaning and drops all others.
-/

namespace Dissolve

def hasFlag (bits flag : UInt32) : Bool :=
  bits &&& flag == flag

structure ClassFlags where
  bits : UInt32
  deriving DecidableEq

namespace ClassFlags

/-- The bits with a meaning: public, final, interface, abstract, synthetic and library. -/
def known : UInt32 := 0x80001611

def ofBits (bits : UInt32) : ClassFlags := ⟨bits &&& known⟩

def publicOnly : ClassFlags := ⟨0x1⟩

def isInterface (f : ClassFlags) : Bool := hasFlag f.bits 0x200

def isAbstract (f : ClassFlags) : Bool := hasFlag f.bits 0x400

def isLibrary (f : ClassFlags) : Bool := hasFlag f.bits 0x80000000

end ClassFlags

structure MethodFlags where
  bits : UInt32
  deriving DecidableEq

namespace MethodFlags

/-- The bits with a meaning: public, private, protected, static, final, synchronized, bridge,
varargs, native, abstract and synthetic. -/
def known : UInt32 := 0x15ff

def ofBits (bits : UInt32) : MethodFlags := ⟨bits &&& known⟩

def isStatic (f : MethodFlags) : Bool := hasFlag f.bits 0x8

def isSynchronized (f : MethodFlags) : Bool := hasFlag f.bits 0x20

def isBridge (f : MethodFlags) : Bool := hasFlag f.bits 0x40

def isNative (f : MethodFlags) : Bool := hasFlag f.bits 0x100

def isAbstract (f : MethodFlags) : Bool := hasFlag f.bits 0x400

end MethodFlags

structure FieldFlags where
  bits : UInt32
  deriving DecidableEq

namespace FieldFlags

/-- The bits with a meaning: public, private, protected, static, final and volatile. -/
def known : UInt32 := 0x5f

def ofBits (bits : UInt32) : FieldFlags := ⟨bits &&& known⟩

def isStatic (f : FieldFlags) : Bool := hasFlag f.bits 0x8

end FieldFlags

end Dissolve
