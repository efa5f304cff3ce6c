import Dissolve.Lift.OperandStack
import Dissolve.Ssa.PhiCleanup

/-!
# Lift.Variables — values of variables across blocks

The local variables and the places of the operand stack that live across blocks are *variables*. In
each lifted block a variable has a value at the end of the block; what it holds at the start of a
block is found on demand:

* an *open* block, of which some predecessor is still to be lifted, gets a phi whose operands are
  filled in when the block is closed,
* a closed block with one predecessor takes the value from there,
* a closed block with several predecessors gets a phi over what they hold.

A phi that turns out to merge one value only is removed at once, and `Progress.resolve` follows a
removed phi to the value that took its place.
-/

namespace Dissolve.Lift

open Ssa (Function)

inductive Variable
  | slot (index : Nat)
  | stackPlace (index : Nat)
  deriving DecidableEq

structure Progress where
  func : Function
  stack : OperandStack
  blockOf : Assoc Nat BlockId := {}
  /-- The kinds of the stack slots on entry to each range, the bottom first. -/
  shapes : Assoc Nat (List ValueType) := {}
  held : Assoc (BlockId × Variable) ValueId := {}
  waiting : Assoc BlockId (List (Variable × PhiId)) := {}
  closed : List BlockId := []
  done : List BlockId := []
  replaced : Assoc ValueId ValueId := {}
  current : BlockId := ⟨0⟩
  offset : Nat := 0

abbrev Lifting := StateT Progress (Except Error)

namespace Progress

def resolve (p : Progress) (v : ValueId) : ValueId :=
  p.replaced.chase v

def hold (p : Progress) (b : BlockId) (x : Variable) (v : ValueId) : Progress :=
  { p with held := p.held.insert (b, x) v }

end Progress

/-! ## Steps on the function -/

def fault {α : Type} (cause : CodeFault) : Lifting α := do
  let p ← get
  throw (.malformedCode p.func.method p.offset cause)

def build {α : Type} (step : Function → α × Function) : Lifting α :=
  modifyGet fun p => let (a, func) := step p.func; (a, { p with func })

def edit {α : Type} (step : Ssa.Edit α) : Lifting α := do
  let p ← get
  match step.run p.func with
  | .ok a func => set { p with func }; return a
  | .error e _ => throw e

def unassigned {α : Type} : Variable → Lifting α
  | .slot index => fault (.localUnassigned index)
  | .stackPlace index => fault (.stackSlotUnassigned index)

/-! ## Reading -/

/-- Removes a complete phi if it merges one value only, and then the phis that read it and have
become trivial in turn. The answer is the value that stands for the phi; `fuel` bounds the number of
removals that hang on each other. -/
def dropTrivial (x : Variable) : Nat → PhiId → Lifting ValueId
  | 0, phi => do
      let p ← get
      return p.resolve (p.func.phi phi).value
  | fuel + 1, phi => do
      let p ← get
      let node := p.func.phi phi
      if node.removed then return p.resolve node.value
      match node.trivialOperand? with
      | none =>
        if node.operands.all fun v => v = node.value then unassigned x
        return node.value
      | some same =>
        let dependents := p.func.dependentPhis node.value phi
        edit (Ssa.replaceTrivial phi node.value same)
        modify fun p => { p with replaced := p.replaced.insert node.value same }
        dependents.forM fun dependent => discard (dropTrivial x fuel dependent)
        return (← get).resolve same

def completePhi (x : Variable) (phi : PhiId) (operands : List ValueId) : Lifting ValueId := do
  let resolved := operands.map (← get).resolve
  build fun f => ((), f.setPhiOperands phi resolved)
  dropTrivial x ((← get).func.phis.size + 1) phi

def awaitPhi (b : BlockId) (x : Variable) (ty : ValueType) : Lifting ValueId := do
  let phi ← build (·.insertPhi b ty)
  modify fun p =>
    { p with waiting := p.waiting.insert b ((p.waiting.get? b).getD [] ++ [(x, phi)]) }
  return ((← get).func.phi phi).value

/-- What a variable holds at the end of a block, or so far in an unfinished one. A phi is recorded
before its operands are read, so a search that comes back to a block runs straight into a recorded
phi: it visits every block once and then at most every block once more, and `fuel` is never used up
when it exceeds twice the number of blocks. -/
def readVariable (x : Variable) (ty : ValueType) : Nat → BlockId → Lifting ValueId
  | 0, _ => unassigned x
  | fuel + 1, b => do
      let p ← get
      match p.held.get? (b, x) with
      | some v => return p.resolve v
      | none =>
        let v ←
          if b ∉ p.closed then awaitPhi b x ty
          else
            match p.func.predecessors b with
            | [] => unassigned x
            | [single] => readVariable x ty fuel single
            | preds => do
                let phi ← build (·.insertPhi b ty)
                modify fun p => p.hold b x (p.func.phi phi).value
                completePhi x phi (← preds.mapM (readVariable x ty fuel))
        modify fun p => p.hold b x v
        return v

def readFrom (b : BlockId) (x : Variable) (ty : ValueType) : Lifting ValueId := do
  readVariable x ty (2 * (← get).func.blocks.size + 2) b

/-! ## Finished blocks -/

def completeWaiting (b : BlockId) (x : Variable) (phi : PhiId) : Lifting Unit := do
  let f := (← get).func
  let ty := (f.value (f.phi phi).value).ty
  let operands ← (f.predecessors b).mapM fun pred => readFrom pred x ty
  discard (completePhi x phi operands)

def closeBlock (b : BlockId) : Lifting Unit := do
  let waiting := ((← get).waiting.get? b).getD []
  modify fun p => { p with closed := b :: p.closed, waiting := p.waiting.erase b }
  waiting.forM fun (x, phi) => completeWaiting b x phi

/-- Marks a block as lifted and closes its successors that wait for no other block. -/
def finishLifted (b : BlockId) : Lifting Unit := do
  modify fun p => { p with done := b :: p.done }
  let successors := dropRepeats ((← get).func.successors b)
  successors.forM fun succ => do
    let p ← get
    if succ ∉ p.closed ∧ (p.func.predecessors succ).all fun pred => pred ∈ p.done then
      closeBlock succ

end Dissolve.Lift
