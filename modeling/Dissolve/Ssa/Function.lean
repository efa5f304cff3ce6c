import Dissolve.Graph.Basic
import Dissolve.Ssa.Op
import Dissolve.Text.Lines

/-!
# Ssa.Function — methods in SSA form

A function is four tables, of blocks, values, instructions and phis, that refer to each other by
place. An entry is never moved or reused: a removed block, instruction or phi stays in its table,
marked as removed and emptied, and no listing shows it.

* A *block* lists its phis, its instructions, its predecessors (one entry per incoming edge, because
  their order is the order of the operands of its phis) and the handlers that cover it.
* A *value* knows its kind, the place that defines it and the places that read it, each place once.

A function need not make sense: predecessors may be stale, blocks may have two terminators, and
values several definitions. Looking up a place outside a table gives an empty, removed
entry.
-/

namespace Dissolve.Ssa

/-- Where an instruction comes from: the offset of a stack instruction; a synthetic instruction was
derived from the one at that offset. -/
structure Position where
  offset : Nat
  synthetic : Bool
  deriving DecidableEq

namespace Position

def lifted (offset : Nat) : Position := ⟨offset, false⟩

def derived (offset : Nat) : Position := ⟨offset, true⟩

instance : Inhabited Position := ⟨lifted 0⟩

def text (p : Position) : String :=
  if p.synthetic then s!"@{p.offset}*" else s!"@{p.offset}"

instance : ToString Position := ⟨text⟩

end Position

structure Handler where
  guard : Option TypeRef
  target : BlockId
  deriving DecidableEq

structure Block where
  phis : List PhiId := []
  insns : List InsnId := []
  preds : List BlockId := []
  handlers : List Handler := []
  removed : Bool := false
  deriving DecidableEq

def Block.gone : Block := { removed := true }

instance : Inhabited Block := ⟨Block.gone⟩

structure Value where
  ty : ValueType
  definition : Option Site := none
  /-- The places that read the value, each once, in the order in which they began to. -/
  users : List Site := []
  debugName : Option String := none
  deriving DecidableEq, Inhabited

namespace Value

def isUnused (v : Value) : Bool :=
  v.users.isEmpty

def addUser (v : Value) (user : Site) : Value :=
  if user ∈ v.users then v else { v with users := v.users ++ [user] }

def removeUser (v : Value) (user : Site) : Value :=
  { v with users := v.users.filter fun u => u ≠ user }

end Value

structure Instruction where
  op : Op
  dest : Option ValueId
  block : BlockId
  position : Position
  removed : Bool := false
  deriving DecidableEq

namespace Instruction

instance : Inhabited Instruction := ⟨⟨.nop, none, ⟨0⟩, default, true⟩⟩

def gone (i : Instruction) : Instruction :=
  { i with op := .nop, dest := none, removed := true }

def text (i : Instruction) : String :=
  match i.dest with
  | some dest => s!"{dest} = {i.op}"
  | none => toString i.op

instance : ToString Instruction := ⟨text⟩

end Instruction

/-- A value that depends on the edge by which its block was entered: operand number `i` belongs to
predecessor number `i`. -/
structure Phi where
  value : ValueId
  block : BlockId
  operands : List ValueId := []
  removed : Bool := false
  deriving DecidableEq

namespace Phi

instance : Inhabited Phi := ⟨⟨⟨0⟩, ⟨0⟩, [], true⟩⟩

def gone (p : Phi) : Phi :=
  { p with operands := [], removed := true }

/-- The only value a list holds beside `self`; there is none when it holds two, and none when it
holds no other at all. -/
def onlyOther? (self : ValueId) : List ValueId → Option ValueId
  | [] => none
  | v :: rest =>
    if v = self then onlyOther? self rest
    else if rest.all fun w => decide (w = self) || decide (w = v) then some v
    else none

def trivialOperand? (p : Phi) : Option ValueId :=
  onlyOther? p.value p.operands

def text (p : Phi) : String :=
  s!"{p.value} = phi({Op.valueList p.operands})"

instance : ToString Phi := ⟨text⟩

end Phi

structure Function where
  method : MethodRef
  isStatic : Bool
  lens : Option LensId := none
  values : Array Value := #[]
  insns : Array Instruction := #[]
  phis : Array Phi := #[]
  blocks : Array Block := #[]
  deriving DecidableEq

namespace Function

def empty (method : MethodRef) (isStatic : Bool) : Function :=
  { method, isStatic }

def entry (_ : Function) : BlockId := ⟨0⟩

/-! ## Looking up -/

def block (f : Function) (b : BlockId) : Block :=
  f.blocks[b.index]?.getD default

def value (f : Function) (v : ValueId) : Value :=
  f.values[v.index]?.getD default

def insn (f : Function) (i : InsnId) : Instruction :=
  f.insns[i.index]?.getD default

def phi (f : Function) (p : PhiId) : Phi :=
  f.phis[p.index]?.getD default

def blockIds (f : Function) : List BlockId :=
  ((List.range f.blocks.size).map BlockId.mk).filter fun b => !(f.block b).removed

def insnIds (f : Function) : List InsnId :=
  f.blockIds.flatMap fun b => (f.block b).insns

def phiIds (f : Function) : List PhiId :=
  f.blockIds.flatMap fun b => (f.block b).phis

def valueIds (f : Function) : List ValueId :=
  ((List.range f.values.size).map ValueId.mk).filter fun v => (f.value v).definition.isSome

def blockCount (f : Function) : Nat :=
  f.blockIds.length

def insnCount (f : Function) : Nat :=
  f.insnIds.length

def phiCount (f : Function) : Nat :=
  f.phiIds.length

def valueCount (f : Function) : Nat :=
  f.valueIds.length

def definingInsn? (f : Function) (v : ValueId) : Option InsnId :=
  match (f.value v).definition with
  | some (.insn i) => some i
  | _ => none

def definingBlock? (f : Function) (v : ValueId) : Option BlockId :=
  match (f.value v).definition with
  | some (.insn i) => some (f.insn i).block
  | some (.phi p) => some (f.phi p).block
  | none => none

def positionInBlock? (f : Function) (i : InsnId) : Option Nat :=
  if (f.insn i).removed then none else (f.block (f.insn i).block).insns.idxOf? i

/-! ## Edges -/

def terminator? (f : Function) (b : BlockId) : Option InsnId :=
  (f.block b).insns.getLast?.filter fun i => (f.insn i).op.isTerminator

def normalSuccessors (f : Function) (b : BlockId) : List BlockId :=
  match f.terminator? b with
  | some i => (f.insn i).op.targets
  | none => []

def successors (f : Function) (b : BlockId) : List BlockId :=
  f.normalSuccessors b ++ (f.block b).handlers.map Handler.target

def predecessors (f : Function) (b : BlockId) : List BlockId :=
  (f.block b).preds

def graph (f : Function) : Graph :=
  { size := f.blocks.size
    succ := fun n =>
      if (f.block ⟨n⟩).removed then [] else (f.successors ⟨n⟩).map BlockId.index }

/-! ## Writing -/

def modifyBlock (f : Function) (b : BlockId) (g : Block → Block) : Function :=
  { f with blocks := f.blocks.modify b.index g }

def modifyValue (f : Function) (v : ValueId) (g : Value → Value) : Function :=
  { f with values := f.values.modify v.index g }

def modifyInsn (f : Function) (i : InsnId) (g : Instruction → Instruction) : Function :=
  { f with insns := f.insns.modify i.index g }

def modifyPhi (f : Function) (p : PhiId) (g : Phi → Phi) : Function :=
  { f with phis := f.phis.modify p.index g }

/-! ## Listing -/

def blockHeader (f : Function) (b : BlockId) : String :=
  let preds := (f.block b).preds
  let shown := if preds.isEmpty then "" else " preds " ++ Text.bracketed (preds.map toString)
  let handlers := (f.block b).handlers.map fun h =>
    match h.guard with
    | some guard => s!" catch {guard} -> {h.target}"
    | none => s!" catch-all -> {h.target}"
  s!"{b}:{shown}" ++ String.join handlers

def blockLines (f : Function) (b : BlockId) : List String :=
  f.blockHeader b ::
    ((f.block b).phis.map fun p => s!"  {f.phi p}") ++
      ((f.block b).insns.map fun i => s!"  {f.insn i}")

/-- The listing of a function; every line ends with a line break. -/
def text (f : Function) : String :=
  String.join ((f.method.text :: f.blockIds.flatMap f.blockLines).map (· ++ "\n"))

/-- The lines of the listing. A name with a line break in it is spread over several. -/
def lines (f : Function) : List String :=
  Text.lines f.text

/-! ## Comparing -/

def insnsAgree (a b : Instruction) : Bool :=
  a.op.agrees b.op && ({ a with op := .nop } : Instruction) = { b with op := .nop }

def agrees (f g : Function) : Bool :=
  f.insns.size = g.insns.size &&
    (List.range f.insns.size).all (fun i => insnsAgree (f.insn ⟨i⟩) (g.insn ⟨i⟩)) &&
    ({ f with insns := #[] } : Function) = { g with insns := #[] }

end Function

end Dissolve.Ssa
