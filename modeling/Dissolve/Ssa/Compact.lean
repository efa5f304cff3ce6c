import Dissolve.Ssa.Edit

/-!
# Ssa.Compact — dropping removed entries

`rebuildDefUse` computes definitions and users afresh from the live instructions and phis.
`compact` renumbers the live entries without gaps: blocks and values in table order, instructions
and phis in block order.
-/

namespace Dissolve.Ssa

namespace Function

def clearDefUse (f : Function) : Function :=
  { f with values := f.values.map fun value => { value with definition := none, users := [] } }

def recordInsn (f : Function) (i : InsnId) : Function :=
  let insn := f.insn i
  (f.addUsers (.insn i) insn.op.operands).setDest insn.dest (some (.insn i))

def recordPhi (f : Function) (p : PhiId) : Function :=
  let phi := f.phi p
  (f.addUsers (.phi p) phi.operands).setDefinition phi.value (some (.phi p))

def recordBlock (f : Function) (b : BlockId) : Function :=
  let block := f.block b
  block.phis.foldl recordPhi (block.insns.foldl recordInsn f)

/-- Computes the definitions and users of all values from the live instructions and phis. -/
def rebuildDefUse (f : Function) : Function :=
  f.blockIds.foldl recordBlock f.clearDefUse

structure Renumbering where
  blocks : List BlockId
  values : List ValueId
  insns : List InsnId
  phis : List PhiId

namespace Renumbering

/-- The new place of an entry: its number among the live ones. What is not live keeps its place. -/
def rank {α : Type} [DecidableEq α] (live : List α) (make : Nat → α) (x : α) : α :=
  ((live.idxOf? x).map make).getD x

def block (r : Renumbering) : BlockId → BlockId := rank r.blocks BlockId.mk

def value (r : Renumbering) : ValueId → ValueId := rank r.values ValueId.mk

def insn (r : Renumbering) : InsnId → InsnId := rank r.insns InsnId.mk

def phi (r : Renumbering) : PhiId → PhiId := rank r.phis PhiId.mk

end Renumbering

def renumbering (f : Function) : Renumbering :=
  ⟨f.blockIds, f.valueIds, f.insnIds, f.phiIds⟩

def renumberInsn (r : Renumbering) (insn : Instruction) : Instruction :=
  { insn with
    op := (insn.op.mapOperands r.value).mapTargets r.block
    dest := insn.dest.map r.value
    block := r.block insn.block }

def renumberPhi (r : Renumbering) (phi : Phi) : Phi :=
  { phi with
    value := r.value phi.value
    block := r.block phi.block
    operands := phi.operands.map r.value }

def renumberBlock (r : Renumbering) (block : Block) : Block :=
  { block with
    phis := block.phis.map r.phi
    insns := block.insns.map r.insn
    preds := block.preds.map r.block
    handlers := block.handlers.map fun h => { h with target := r.block h.target } }

def renumber (f : Function) (r : Renumbering) : Function :=
  { f with
    values := (r.values.map f.value).toArray
    insns := (r.insns.map fun i => renumberInsn r (f.insn i)).toArray
    phis := (r.phis.map fun p => renumberPhi r (f.phi p)).toArray
    blocks := (r.blocks.map fun b => renumberBlock r (f.block b)).toArray }

def usedUndefined? (f : Function) : Option ValueId :=
  ((List.range f.values.size).map ValueId.mk).find? fun v =>
    (f.value v).definition.isNone && !(f.value v).isUnused

end Function

/-- Drops the removed entries of a function. The entry has to be live and every value that is read
has to be defined. -/
def compact : Edit Unit := do
  modify Function.rebuildDefUse
  let f ← get
  if f.entry ∉ f.blockIds then refuse (.entryRemoved f.method)
  if let some v := f.usedUndefined? then refuse (.usedUndefined v f.method)
  set (f.renumber f.renumbering).rebuildDefUse

end Dissolve.Ssa
