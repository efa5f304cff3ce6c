import Dissolve.Assoc
import Dissolve.Program.Class
import Dissolve.Sorted

/-!
# Program.Basic — questions about a program

A program is a set of classes, one per type, and a set of pinned items that must stay as they are.
Class hierarchies may be cyclic and may name types the program does not define; every question is
answered on such hierarchies too.
-/

namespace Dissolve

structure Program where
  classTable : Assoc TypeRef ClassDef := {}
  pinned : List ProgramItem := []

namespace Program

def addClass (p : Program) (c : ClassDef) : Program :=
  { p with classTable := p.classTable.insert c.ty c }

def pin (p : Program) (item : ProgramItem) : Program :=
  { p with pinned := item :: p.pinned }

def classCount (p : Program) : Nat :=
  p.classTable.size

def classes (p : Program) : List ClassDef :=
  sortBy (fun a b => compare a.ty b.ty) p.classTable.values

def methodsWithCode (p : Program) : List MethodDef :=
  p.classes.flatMap fun c => c.methods.filter (·.code.isSome)

def definition? (p : Program) (ty : TypeRef) : Option ClassDef :=
  p.classTable.get? ty

def isPinned (p : Program) (item : ProgramItem) : Bool :=
  decide (item ∈ p.pinned)

def methodDefinition? (p : Program) (method : MethodRef) : Option MethodDef :=
  (p.definition? method.holder).bind (·.lookupMethod? method)

/-- Walks up at most `fuel` superclasses from `ty` to the first that declares the method. -/
def resolveFrom? (p : Program) (name : String) (proto : Proto) :
    Nat → Option TypeRef → Option MethodDef
  | 0, _ => none
  | _, none => none
  | fuel + 1, some ty =>
    match p.definition? ty with
    | none => none
    | some c =>
      match c.lookupVirtual? name proto with
      | some m => some m
      | none => resolveFrom? p name proto fuel c.superclass

/-- The method that a virtual call on an object of exactly the class `ty` runs. There is none when
the walk up the superclasses leaves the program or goes round in a circle: a chain longer than the
number of classes meets some class twice. -/
def resolveExactVirtual? (p : Program) (ty : TypeRef) (name : String) (proto : Proto) :
    Option MethodDef :=
  resolveFrom? p name proto (p.classCount + 1) (some ty)

/-- Looks through the types of the work list and their supertypes for one whose first use may run
code. Types of unknown definition may run anything. -/
def findsInitializer (p : Program) : Nat → List TypeRef → List TypeRef → Bool
  | 0, _, _ => false
  | _, _, [] => false
  | fuel + 1, visited, ty :: work =>
    if ty = TypeRef.root || ty ∈ visited then findsInitializer p fuel visited work
    else
      match p.definition? ty with
      | none => true
      | some c =>
        if c.hasClassInitializer then true
        else findsInitializer p fuel (ty :: visited) (c.supertypes ++ work)

/-- Each definition puts its supertypes on the work list at most once, so this many steps suffice. -/
def initializerFuel (p : Program) : Nat :=
  (p.classTable.values.map fun c => c.supertypes.length).foldr (· + ·) 2

/-- Whether the first use of a type may run a class initializer, its own or one of a supertype. -/
def canTriggerStaticInitializer (p : Program) (ty : TypeRef) : Bool :=
  findsInitializer p p.initializerFuel [] [ty]

end Program

end Dissolve
