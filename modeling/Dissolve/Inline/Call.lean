import Dissolve.Assoc
import Dissolve.Ssa.Edit

/-!
# Inline.Call — replacing a call by the body it runs

`inlineCall` replaces one call by a copy of the called function, whatever its size:

* A callee of one block that ends with a return is *spliced* in front of the call.
* Any other callee is *expanded*: the block of the call is split behind the call, the blocks of the
  callee are copied, and its returns become jumps to the part behind the call, where a phi merges
  their values if there are several.

A call under a handler and a callee with handlers are left alone.
-/

namespace Dissolve.Inline

open Ssa (Edit Function Op Position refuse)

structure InlinedCall where
  instructions : Nat
  /-- Copied blocks; there are none if the body was spliced. -/
  blocks : Nat
  deriving DecidableEq

/-- What stands for the values and blocks of the callee; anything else stands for itself. -/
structure Renaming where
  values : Assoc ValueId ValueId := {}
  blocks : Assoc BlockId BlockId := {}

namespace Renaming

def value (r : Renaming) (v : ValueId) : ValueId :=
  (r.values.get? v).getD v

def block (r : Renaming) (b : BlockId) : BlockId :=
  (r.blocks.get? b).getD b

def op (r : Renaming) (op : Op) : Op :=
  (op.mapOperands r.value).mapTargets r.block

def addValue (r : Renaming) (old new : ValueId) : Renaming :=
  { r with values := r.values.insert old new }

def addBlock (r : Renaming) (old new : BlockId) : Renaming :=
  { r with blocks := r.blocks.insert old new }

end Renaming

def argumentOf (callee : Function) (args : List ValueId) (index : Nat) : Edit ValueId :=
  match args[index]? with
  | some v => return v
  | none => refuse (.missingArgument callee.method index args.length)

def bindResult (call : InsnId) (returned : Option ValueId) : Edit Unit := do
  let f ← get
  match (f.insn call).dest, returned with
  | none, _ => return
  | some dest, some v => modify fun f => (f.replaceAllUses dest v).2
  | some dest, none =>
    if !(f.value dest).isUnused then refuse (.resultNotReturned dest call)

/-! ## Splicing -/

structure Splice where
  names : Renaming := {}
  returned : Option ValueId := none
  copied : Nat := 0

def copyDest (callee : Function) (r : Renaming) : Option ValueId → Edit (Option ValueId × Renaming)
  | none => return (none, r)
  | some dest => do
      let new ← modifyGet fun f => f.addValue (callee.value dest).ty
      return (some new, r.addValue dest new)

def spliceInsn (call : InsnId) (callee : Function) (args : List ValueId) (s : Splice)
    (i : InsnId) : Edit Splice := do
  let insn := callee.insn i
  match insn.op with
  | .argument index =>
    match insn.dest with
    | none => refuse .argumentWithoutValue
    | some dest =>
      let v ← argumentOf callee args index
      return { s with names := s.names.addValue dest v }
  | .ret value => return { s with returned := value.map s.names.value }
  | op =>
    let (dest, names) ← copyDest callee s.names insn.dest
    discard (Ssa.insertBefore call (s.names.op op) dest)
    return { s with names, copied := s.copied + 1 }

def splice (call : InsnId) (callee : Function) (args : List ValueId) : Edit InlinedCall := do
  let s ← (callee.block callee.entry).insns.foldlM (spliceInsn call callee args) {}
  bindResult call s.returned
  Ssa.removeInsn call
  return ⟨s.copied, 0⟩

/-! ## Expanding -/

def copyBlock (r : Renaming) (b : BlockId) : Edit Renaming := do
  let new ← modifyGet fun f => f.addBlock
  return r.addBlock b new

def copyPhi (callee : Function) (r : Renaming) (p : PhiId) : Edit (PhiId × Renaming) := do
  let phi := callee.phi p
  let new ← modifyGet fun f => f.insertPhi (r.block phi.block) (callee.value phi.value).ty
  return (new, r.addValue phi.value ((← get).phi new).value)

def copyPhis (callee : Function) :
    Renaming → List PhiId → Edit (List (PhiId × PhiId) × Renaming)
  | r, [] => return ([], r)
  | r, p :: rest => do
      let (new, r) ← copyPhi callee r p
      let (copies, r) ← copyPhis callee r rest
      return ((new, p) :: copies, r)

/-- Creates the value of an instruction before any instruction is copied, because loops read values
that are defined further down. -/
def renameDest (callee : Function) (args : List ValueId) (r : Renaming) (i : InsnId) :
    Edit Renaming := do
  let insn := callee.insn i
  match insn.op, insn.dest with
  | .argument index, some dest => return r.addValue dest (← argumentOf callee args index)
  | _, some dest =>
    let new ← modifyGet fun f => f.addValue (callee.value dest).ty
    return r.addValue dest new
  | _, none => return r

structure Expansion where
  returns : List (BlockId × Option ValueId) := []
  copied : Nat := 0

def expandInsn (callee : Function) (r : Renaming) (continuation b : BlockId) (position : Position)
    (e : Expansion) (i : InsnId) : Edit Expansion := do
  let insn := callee.insn i
  match insn.op with
  | .argument _ => return e
  | .ret value =>
    modify fun f => (f.appendInsn b (.goto continuation) none position).2
    return { e with returns := e.returns ++ [(b, value.map r.value)] }
  | op =>
    modify fun f => (f.appendInsn b (r.op op) (insn.dest.map r.value) position).2
    return { e with copied := e.copied + 1 }

def expandBlock (callee : Function) (r : Renaming) (continuation : BlockId) (position : Position)
    (e : Expansion) (b : BlockId) : Edit Expansion := do
  let target := r.block b
  let e ← (callee.block b).insns.foldlM (expandInsn callee r continuation target position) e
  modify fun f =>
    (callee.predecessors b).foldl (fun f pred => f.addPredecessor target (r.block pred)) f
  return e

def returnedValue : BlockId × Option ValueId → Edit ValueId
  | (_, some v) => return v
  | (b, none) => refuse (.returnWithoutValue b)

/-- The value of the call behind its returns; several returns are merged by a phi. -/
def mergeReturns (call : InsnId) (continuation : BlockId) :
    List (BlockId × Option ValueId) → Edit (Option ValueId)
  | [] => return none
  | [(_, value)] => return value
  | returns => do
      let f ← get
      match (f.insn call).dest with
      | none => return none
      | some dest =>
        let operands ← returns.mapM returnedValue
        let phi ← modifyGet fun f => f.insertPhi continuation (f.value dest).ty
        modify fun f => f.setPhiOperands phi operands
        return some ((← get).phi phi).value

/-- Copies the blocks of a callee between the block of the call and what follows the call. When the
callee never returns, what follows is removed as unreachable. -/
def expand (call : InsnId) (callee : Function) (args : List ValueId) : Edit InlinedCall := do
  let f ← get
  let block := (f.insn call).block
  let position : Position := .derived (f.insn call).position.offset
  match f.positionInBlock? call with
  | none => refuse (.notInBlock call)
  | some index =>
    let continuation ← Ssa.splitBlock block (index + 1)
    let r ← callee.blockIds.foldlM copyBlock {}
    let (phis, r) ← copyPhis callee r callee.phiIds
    let r ← callee.insnIds.foldlM (renameDest callee args) r
    let e ← callee.blockIds.foldlM (expandBlock callee r continuation position) {}
    modify fun f => phis.foldl (fun f (new, old) =>
      f.setPhiOperands new ((callee.phi old).operands.map r.value)) f
    let entry := r.block callee.entry
    modify fun f => ((f.appendInsn block (.goto entry) none position).2).addPredecessor entry block
    modify fun f => e.returns.foldl (fun f (b, _) => f.addPredecessor continuation b) f
    let result ← mergeReturns call continuation e.returns
    if e.returns.isEmpty then modify fun f => f.removeUnreachableBlocks.2
    else bindResult call result
    Ssa.removeInsn call
    return ⟨e.copied, callee.blockCount⟩

/-! ## Calls -/

def isStraight (callee : Function) : Bool :=
  callee.blockCount = 1 &&
    match (callee.terminator? callee.entry).map fun i => (callee.insn i).op with
    | some (.ret _) => true
    | _ => false

/-- Replaces a call by the body of the callee. There is no answer, and no change, when handlers
cover the call or are part of the callee. -/
def inlineCall (call : InsnId) (callee : Function) : Edit (Option InlinedCall) := do
  let f ← get
  match (f.insn call).op with
  | .invoke _ _ args =>
    let covered := !(f.block (f.insn call).block).handlers.isEmpty
    if covered || callee.blockIds.any fun b => !(callee.block b).handlers.isEmpty then return none
    if isStraight callee then some <$> splice call callee args
    else some <$> expand call callee args
  | _ => refuse (.notAnInvoke call)

end Dissolve.Inline
