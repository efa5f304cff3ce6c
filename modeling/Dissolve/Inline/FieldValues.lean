import Dissolve.Inline.Site
import Dissolve.Ssa.PhiCleanup

/-!
# Inline.FieldValues — an instance replaced by the values of its fields

Once no call on an instance is left, its fields are known everywhere. A read of a field is replaced
by what the field holds there:

* the value of the nearest write before the read in its block; the allocation itself counts as a
  write of the zero of the field's type,
* else what the field holds at the end of the only predecessor,
* else a phi over what it holds at the ends of the predecessors.

A phi is recorded before its operands are looked for, so the search ends on loops. Afterwards the
writes, the call of the root constructor and the allocation are removed.
-/

namespace Dissolve.Inline

open Ssa (Const Edit Function Op)

structure Reconstruction where
  reads : Nat := 0
  writes : Nat := 0
  phis : Nat := 0
  deriving DecidableEq

def obstruct {α : Type} (site : AllocationSite) (cause : Leftover) : Edit α := do
  throw (.inliningPostcondition (← get).method site.offset cause)

/-! ## What a field holds -/

structure Resolver where
  zero : Option ValueId := none
  incoming : Assoc BlockId ValueId := {}
  outgoing : Assoc BlockId ValueId := {}
  phis : List PhiId := []

abbrev Resolving := StateT Resolver Edit

inductive LastWrite
  | value (v : ValueId)
  | allocation

def writtenBy? (f : Function) (site : AllocationSite) (field : FieldRef) (i : InsnId) :
    Option LastWrite :=
  match (f.insn i).op with
  | .instancePut written object value =>
    if object = site.value ∧ written = field then some (.value value)
    else if i = site.insn then some .allocation
    else none
  | _ => if i = site.insn then some .allocation else none

def lastWrite? (f : Function) (site : AllocationSite) (field : FieldRef) (b : BlockId)
    (count : Nat) : Option LastWrite :=
  ((f.block b).insns.take count).reverse.findSome? (writtenBy? f site field)

def fieldKind (site : AllocationSite) (field : FieldRef) : Edit ValueType :=
  match field.ty.valueType? with
  | some ty => return ty
  | none => obstruct site (.noValueType field)

/-- The zero of a field, created once in front of the allocation. -/
def zeroOf (site : AllocationSite) (field : FieldRef) : Resolving ValueId := do
  match (← get).zero with
  | some v => return v
  | none =>
    let ty ← fieldKind site field
    let v ← (modifyGet fun f => f.addValue ty : Edit ValueId)
    discard (Ssa.insertBefore site.insn (.const (Const.zero ty)) (some v))
    modify fun r => { r with zero := some v }
    return v

def writtenValue (site : AllocationSite) (field : FieldRef) : LastWrite → Resolving ValueId
  | .value v => return v
  | .allocation => zeroOf site field

/-- What a field holds behind the first `count` instructions of a block, given how to find what it
holds at the start of the block. -/
def heldBehind (site : AllocationSite) (field : FieldRef) (atStart : BlockId → Resolving ValueId)
    (b : BlockId) (count : Nat) : Resolving ValueId := do
  let f ← getThe Function
  match lastWrite? f site field b count with
  | some write => writtenValue site field write
  | none => atStart b

def heldAtEnd (site : AllocationSite) (field : FieldRef) (atStart : BlockId → Resolving ValueId)
    (b : BlockId) : Resolving ValueId := do
  match (← get).outgoing.get? b with
  | some v => return v
  | none =>
    let f ← getThe Function
    let v ← heldBehind site field atStart b (f.block b).insns.length
    modify fun r => { r with outgoing := r.outgoing.insert b v }
    return v

def openPhi (site : AllocationSite) (field : FieldRef) (b : BlockId) : Resolving PhiId := do
  let ty ← fieldKind site field
  let phi ← (modifyGet fun f => f.insertPhi b ty : Edit PhiId)
  let v := ((← getThe Function).phi phi).value
  modify fun r => { r with incoming := r.incoming.insert b v, phis := r.phis ++ [phi] }
  return phi

/-- What a field holds at the start of a block. A search goes back along single predecessors, past no
block twice, and makes a phi where there are several, at most once per block. So `fuel` is never used up
when it is the square of a number that exceeds the number of blocks. -/
def heldAtStart (site : AllocationSite) (field : FieldRef) : Nat → BlockId → Resolving ValueId
  | 0, b => obstruct site (.readNotReached field b)
  | fuel + 1, b => do
      match (← get).incoming.get? b with
      | some v => return v
      | none =>
        match (← getThe Function).predecessors b with
        | [] => obstruct site (.readNotReached field b)
        | [pred] =>
          let v ← heldAtEnd site field (heldAtStart site field fuel) pred
          modify fun r => { r with incoming := r.incoming.insert b v }
          return v
        | preds =>
          let phi ← openPhi site field b
          let operands ← preds.mapM (heldAtEnd site field (heldAtStart site field fuel))
          modifyThe Function fun f => f.setPhiOperands phi operands
          return ((← getThe Function).phi phi).value

def heldAtRead (site : AllocationSite) (field : FieldRef) (read : InsnId) : Resolving ValueId := do
  let f ← getThe Function
  match f.positionInBlock? read with
  | none => obstruct site (.readNotInBlock read)
  | some index =>
    let atStart := heldAtStart site field ((f.blocks.size + 1) * (f.blocks.size + 1))
    heldBehind site field atStart (f.insn read).block index

/-! ## The uses of an instance -/

structure Uses where
  reads : Assoc FieldRef (List InsnId) := {}
  writes : List InsnId := []
  constructors : List InsnId := []

def isRootConstructor (root : TypeRef) (target : MethodRef) (args : List ValueId) : Bool :=
  target.isConstructor && target.holder = root && args.length = 1

/-- Sorts one use in; anything but a field access on the instance and the root constructor is in the
way. -/
def addUse (site : AllocationSite) (root : TypeRef) (uses : Uses) : Site → Edit Uses
  | .phi _ => obstruct site .flowsIntoPhi
  | .insn i => do
      match ((← get).insn i).op with
      | .instanceGet field _ =>
        let before := (uses.reads.get? field).getD []
        return { uses with reads := uses.reads.insert field (before ++ [i]) }
      | .instancePut field object value =>
        if object = site.value ∧ value ≠ site.value then
          return { uses with writes := uses.writes ++ [i] }
        else obstruct site (.unexpectedUse (Op.instancePut field object value).mnemonic)
      | .invoke kind target args =>
        if isRootConstructor root target args then
          return { uses with constructors := uses.constructors ++ [i] }
        else obstruct site (.unexpectedUse (Op.invoke kind target args).mnemonic)
      | op => obstruct site (.unexpectedUse op.mnemonic)

def resolveField (site : AllocationSite) (field : FieldRef) (reads : List InsnId) :
    Edit (List (InsnId × ValueId) × List PhiId) := do
  let resolve (read : InsnId) : Resolving (InsnId × ValueId) := do
    return (read, ← heldAtRead site field read)
  let (resolved, r) ← (reads.mapM resolve).run {}
  return (resolved, r.phis)

def checkFilled (site : AllocationSite) (p : PhiId) : Edit Unit := do
  let f ← get
  if (f.phi p).operands.length ≠ (f.predecessors (f.phi p).block).length then
    obstruct site (.phiNotFilled p)

/-! ## Replacing -/

/-- Replaces a read by its value; the value may itself be the result of a read that was replaced
before. -/
def replaceRead (site : AllocationSite) (replaced : Assoc ValueId ValueId)
    (resolved : InsnId × ValueId) : Edit (Assoc ValueId ValueId) := do
  let (read, v) := resolved
  let v := replaced.chase v
  match ((← get).insn read).dest with
  | none => return replaced
  | some dest =>
    if dest = v then obstruct site (.readOfItself read)
    modify fun f => (f.replaceAllUses dest v).2
    Ssa.removeInsn read
    return replaced.insert dest v

/-- Replaces every read of a field of the instance, and removes its writes, the call of the
constructor of `root` and the allocation. -/
def reconstruct (site : AllocationSite) (root : TypeRef) : Edit Reconstruction := do
  let users := ((← get).value site.value).users
  let uses ← users.foldlM (addUse site root) {}
  let perField ← uses.reads.pairs.mapM fun (field, reads) => resolveField site field reads
  let resolved := perField.flatMap Prod.fst
  let created := perField.flatMap Prod.snd
  created.forM (checkFilled site)
  discard (resolved.foldlM (replaceRead site) Assoc.empty)
  uses.writes.forM Ssa.removeInsn
  uses.constructors.forM Ssa.removeInsn
  discard Ssa.cleanUpPhis
  let f ← get
  if !(f.value site.value).isUnused then
    obstruct site (.usesLeft site.value (f.value site.value).users.length)
  Ssa.removeInsn site.insn
  return {
    reads := resolved.length
    writes := uses.writes.length
    phis := (created.filter fun p => !(f.phi p).removed).length }

end Dissolve.Inline
