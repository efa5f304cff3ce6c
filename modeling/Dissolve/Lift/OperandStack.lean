import Dissolve.Assoc
import Dissolve.Error
import Dissolve.Sorted

/-!
# Lift.OperandStack — the operand stack while one block is lifted

Lifting simulates the stack machine block by block. A slot of the simulated stack does not have to
hold a value yet:

* it may be a *pending read* of a local variable, which is resolved when the slot is popped; before
  the variable is bound anew, its pending reads are given the old value,
* it may be what the predecessors of the block left at its place.

Height is measured in words, of which a `long` or `double` takes two. Slots are kept with the top
first.
-/

namespace Dissolve.Lift

inductive Source
  | value (v : ValueId)
  | slot (slot : Nat)
  /-- What the predecessors left at a place of the stack, counted from the bottom. -/
  | incoming (index : Nat)
  deriving DecidableEq

structure Slot where
  source : Source
  ty : ValueType
  deriving DecidableEq

structure OperandStack where
  method : MethodRef
  maxStack : Nat
  offset : Nat := 0
  slots : List Slot := []
  locals : Assoc Nat (ValueId × ValueType) := {}

namespace OperandStack

def empty (method : MethodRef) (maxStack : Nat) : OperandStack :=
  { method, maxStack }

/-- The stack at the start of a block that is entered with slots of the given kinds, the bottom
first. -/
def enterBlock (s : OperandStack) (incoming : List ValueType) : OperandStack :=
  { s with
    slots := (incoming.mapIdx fun i ty => ⟨.incoming i, ty⟩).reverse
    locals := {} }

def setOffset (s : OperandStack) (offset : Nat) : OperandStack :=
  { s with offset }

def depth (s : OperandStack) : Nat :=
  s.slots.length

def wordsOf (slots : List Slot) : Nat :=
  (slots.map (·.ty.slots)).foldr (· + ·) 0

def words (s : OperandStack) : Nat :=
  wordsOf s.slots

def bottomUp (s : OperandStack) : List Slot :=
  s.slots.reverse

def push (s : OperandStack) (slot : Slot) : Except Error OperandStack :=
  if s.words + slot.ty.slots ≤ s.maxStack then .ok { s with slots := slot :: s.slots }
  else .error (.stackOverflow s.method s.offset s.maxStack)

def pop (s : OperandStack) : Except Error (Slot × OperandStack) :=
  match s.slots with
  | slot :: rest => .ok (slot, { s with slots := rest })
  | [] => .error (.stackUnderflow s.method s.offset)

def popMany (s : OperandStack) (count : Nat) : Except Error (List Slot × OperandStack) :=
  if count ≤ s.depth then
    .ok ((s.slots.take count).reverse, { s with slots := s.slots.drop count })
  else .error (.stackUnderflow s.method s.offset)

def peek (s : OperandStack) (depth : Nat) : Except Error Slot :=
  match s.slots[depth]? with
  | some slot => .ok slot
  | none => .error (.stackUnderflow s.method s.offset)

def clear (s : OperandStack) : OperandStack :=
  { s with slots := [] }

def replaceSource (s : OperandStack) (old new : Source) : OperandStack :=
  { s with
    slots := s.slots.map fun slot => if slot.source = old then { slot with source := new } else slot }

def materializeLocal (s : OperandStack) (slot : Nat) (v : ValueId) : OperandStack :=
  s.replaceSource (.slot slot) (.value v)

def hasPendingRead (s : OperandStack) (slot : Nat) : Bool :=
  s.slots.any fun entry => entry.source = .slot slot

def bindLocal (s : OperandStack) (slot : Nat) (v : ValueId) (ty : ValueType) : OperandStack :=
  { s with locals := s.locals.insert slot (v, ty) }

def local? (s : OperandStack) (slot : Nat) : Option (ValueId × ValueType) :=
  s.locals.get? slot

def writtenLocals (s : OperandStack) : List (Nat × ValueId × ValueType) :=
  sortBy (fun a b => compare a.1 b.1) s.locals.pairs

end OperandStack

end Dissolve.Lift
