import Dissolve.Error
import Dissolve.Graph.Traversal
import Dissolve.Ssa.Function

/-!
# Ssa.Edit — building and changing functions

Every edit keeps the definitions and users of values in step with the instructions and phis: placing
an instruction makes it a user of its operands, redirecting uses moves users along, and removing a
definition that is still read is refused.

An edit that can be refused lives in `Edit`, where a failure keeps what was changed before it.
-/

namespace Dissolve.Ssa

/-- Edits of a function that can fail; the changes made before a failure stay. -/
abbrev Edit := EStateM Error Function

def refuse {α : Type} (cause : Malformation) : Edit α :=
  throw (.malformed cause)

namespace Function

/-! ## Users and definitions -/

def addUsers (f : Function) (user : Site) (values : List ValueId) : Function :=
  values.foldl (fun f v => f.modifyValue v (·.addUser user)) f

def removeUsers (f : Function) (user : Site) (values : List ValueId) : Function :=
  values.foldl (fun f v => f.modifyValue v (·.removeUser user)) f

def setDefinition (f : Function) (v : ValueId) (site : Option Site) : Function :=
  f.modifyValue v fun value => { value with definition := site }

def setDest (f : Function) (dest : Option ValueId) (site : Option Site) : Function :=
  match dest with
  | some v => f.setDefinition v site
  | none => f

/-! ## Building -/

def addBlock (f : Function) : BlockId × Function :=
  (⟨f.blocks.size⟩, { f with blocks := f.blocks.push {} })

def addValue (f : Function) (ty : ValueType) : ValueId × Function :=
  (⟨f.values.size⟩, { f with values := f.values.push { ty } })

def setDebugName (f : Function) (v : ValueId) (name : String) : Function :=
  f.modifyValue v fun value => { value with debugName := some name }

def createInsn (f : Function) (b : BlockId) (op : Op) (dest : Option ValueId)
    (position : Position) : InsnId × Function :=
  let id : InsnId := ⟨f.insns.size⟩
  let f := (f.addUsers (.insn id) op.operands).setDest dest (some (.insn id))
  (id, { f with insns := f.insns.push ⟨op, dest, b, position, false⟩ })

def insertInsn (f : Function) (b : BlockId) (index : Nat) (op : Op) (dest : Option ValueId)
    (position : Position) : InsnId × Function :=
  let (id, f) := f.createInsn b op dest position
  (id, f.modifyBlock b fun block =>
    { block with insns := block.insns.take index ++ id :: block.insns.drop index })

def appendInsn (f : Function) (b : BlockId) (op : Op) (dest : Option ValueId)
    (position : Position) : InsnId × Function :=
  let (id, f) := f.createInsn b op dest position
  (id, f.modifyBlock b fun block => { block with insns := block.insns ++ [id] })

def appendValue (f : Function) (b : BlockId) (op : Op) (ty : ValueType) (position : Position) :
    (InsnId × ValueId) × Function :=
  let (v, f) := f.addValue ty
  let (i, f) := f.appendInsn b op (some v) position
  ((i, v), f)

def replaceOp (f : Function) (i : InsnId) (op : Op) : Function :=
  let f := f.removeUsers (.insn i) (f.insn i).op.operands
  let f := f.addUsers (.insn i) op.operands
  f.modifyInsn i fun insn => { insn with op }

/-- Covers a block by a handler; the edge is recorded by `addPredecessor`. -/
def addHandler (f : Function) (b : BlockId) (handler : Handler) : Function :=
  f.modifyBlock b fun block => { block with handlers := block.handlers ++ [handler] }

def addPredecessor (f : Function) (b pred : BlockId) : Function :=
  f.modifyBlock b fun block => { block with preds := block.preds ++ [pred] }

/-- Renames a predecessor of a block and counts its entries; operands of phis stay. -/
def replacePredecessor (f : Function) (b old new : BlockId) : Nat × Function :=
  ((f.block b).preds.count old,
    f.modifyBlock b fun block =>
      { block with preds := block.preds.map fun p => if p = old then new else p })

def dropOperand (f : Function) (index : Nat) (p : PhiId) : Function :=
  match (f.phi p).operands[index]? with
  | none => f
  | some dropped =>
    let operands := (f.phi p).operands.eraseIdx index
    let f := f.modifyPhi p fun phi => { phi with operands }
    if dropped ∈ operands then f else f.modifyValue dropped (·.removeUser (.phi p))

/-- Drops predecessor number `index` of a block and the operands that belong to it. -/
def dropPredecessor (f : Function) (b : BlockId) (index : Nat) : Function :=
  let f := f.modifyBlock b fun block => { block with preds := block.preds.eraseIdx index }
  (f.block b).phis.foldl (fun f p => f.dropOperand index p) f

/-- Sends the edges of the last instruction of a block from one target to another and counts them;
predecessors stay. -/
def retarget (f : Function) (b source target : BlockId) : Nat × Function :=
  match (f.block b).insns.getLast? with
  | none => (0, f)
  | some i =>
    ((f.insn i).op.targets.count source,
      f.modifyInsn i fun insn =>
        { insn with op := insn.op.mapTargets fun t => if t = source then target else t })

def insertPhi (f : Function) (b : BlockId) (ty : ValueType) : PhiId × Function :=
  let (v, f) := f.addValue ty
  let id : PhiId := ⟨f.phis.size⟩
  let f := f.setDefinition v (some (.phi id))
  let f := { f with phis := f.phis.push { value := v, block := b } }
  (id, f.modifyBlock b fun block => { block with phis := block.phis ++ [id] })

def setPhiOperands (f : Function) (p : PhiId) (operands : List ValueId) : Function :=
  let f := f.removeUsers (.phi p) (f.phi p).operands
  let f := f.addUsers (.phi p) operands
  f.modifyPhi p fun phi => { phi with operands }

/-! ## Replacing operands and operations -/

def redirectUse (f : Function) (old new : ValueId) (user : Site) : Function :=
  let swap := fun v => if v = old then new else v
  let f :=
    match user with
    | .insn i => f.modifyInsn i fun insn => { insn with op := insn.op.mapOperands swap }
    | .phi p => f.modifyPhi p fun phi => { phi with operands := phi.operands.map swap }
  f.modifyValue new (·.addUser user)

/-- Reads `new` instead of `old` everywhere, and counts the places. -/
def replaceAllUses (f : Function) (old new : ValueId) : Nat × Function :=
  if old = new then (0, f)
  else
    let users := (f.value old).users
    let f := f.modifyValue old fun value => { value with users := [] }
    (users.length, users.foldl (fun f user => f.redirectUse old new user) f)

def moveInsns (f : Function) (insns : List InsnId) (b : BlockId) : Function :=
  insns.foldl (fun f i => f.modifyInsn i fun insn => { insn with block := b }) f

def replacePredecessors (f : Function) (blocks : List BlockId) (old new : BlockId) : Function :=
  blocks.foldl (fun f b => (f.replacePredecessor b old new).2) f

/-- Drops every predecessor entry `pred` of a block, first to last; `fuel` bounds their number. -/
def dropPredecessorEntries (f : Function) (b pred : BlockId) : Nat → Function
  | 0 => f
  | fuel + 1 =>
    match (f.block b).preds.idxOf? pred with
    | none => f
    | some index => dropPredecessorEntries (f.dropPredecessor b index) b pred fuel

/-- Takes the edges out of a dead block away from its living successors. -/
def detachBlock (f : Function) (alive : BlockId → Bool) (b : BlockId) : Function :=
  ((f.successors b).filter alive).foldl
    (fun f succ => f.dropPredecessorEntries succ b (f.predecessors succ).length) f

def discardInsn (f : Function) (i : InsnId) : Function :=
  let insn := f.insn i
  let f := (f.removeUsers (.insn i) insn.op.operands).setDest insn.dest none
  f.modifyInsn i (·.gone)

def discardPhi (f : Function) (p : PhiId) : Function :=
  let phi := f.phi p
  let f := (f.removeUsers (.phi p) phi.operands).setDefinition phi.value none
  f.modifyPhi p (·.gone)

def discardBlock (f : Function) (b : BlockId) : Function :=
  let block := f.block b
  let f := block.insns.foldl (fun f i => f.discardInsn i) f
  let f := block.phis.foldl (fun f p => f.discardPhi p) f
  f.modifyBlock b fun _ => .gone

/-- Removes the blocks that no path from the entry reaches, and counts them. -/
def removeUnreachableBlocks (f : Function) : Nat × Function :=
  let reached := f.graph.reversePostorder f.entry.index
  let alive := fun b : BlockId => decide (b.index ∈ reached)
  let dead := f.blockIds.filter fun b => !alive b
  let f := dead.foldl (fun f b => f.detachBlock alive b) f
  (dead.length, dead.foldl (fun f b => f.discardBlock b) f)

end Function

/-! ## Edits that can be refused -/

def insertBefore (anchor : InsnId) (op : Op) (dest : Option ValueId) : Edit InsnId := do
  let f ← get
  match f.positionInBlock? anchor with
  | none => refuse (.insertBeforeRemoved anchor)
  | some index =>
    let anchored := f.insn anchor
    modifyGet fun f => f.insertInsn anchored.block index op dest (.derived anchored.position.offset)

def removePredecessorAt (b : BlockId) (index : Nat) : Edit Unit := do
  let count := ((← get).predecessors b).length
  if index < count then modify fun f => f.dropPredecessor b index
  else refuse (.noPredecessor b index count)

/-- Removes a phi, which nothing but itself may read. A removed phi stays removed. -/
def removePhi (p : PhiId) : Edit Unit := do
  let f ← get
  let phi := f.phi p
  if phi.removed then return
  let foreign := ((f.value phi.value).users.filter fun user => user ≠ .phi p).length
  if foreign > 0 then refuse (.phiInUse p phi.value foreign)
  modify fun f =>
    let f := f.setPhiOperands p []
    let f := f.modifyBlock phi.block fun block =>
      { block with phis := block.phis.filter fun q => q ≠ p }
    let f := f.modifyValue phi.value fun value => { value with definition := none, users := [] }
    f.modifyPhi p (·.gone)

/-- Removes an instruction, whose value nothing may read. A removed instruction stays removed. -/
def removeInsn (i : InsnId) : Edit Unit := do
  let f ← get
  let insn := f.insn i
  if insn.removed then return
  if let some dest := insn.dest then
    let users := (f.value dest).users.length
    if users > 0 then refuse (.resultInUse i dest users)
  modify fun f =>
    let f := (f.setDest insn.dest none).removeUsers (.insn i) insn.op.operands
    let f := f.modifyBlock insn.block fun block =>
      { block with insns := block.insns.filter fun j => j ≠ i }
    f.modifyInsn i (·.gone)

/-- Moves the instructions of a block from a place on into a new block, and with the terminator the
normal successors. A block under handlers stays whole. -/
def splitBlock (b : BlockId) (index : Nat) : Edit BlockId := do
  let f ← get
  if !(f.block b).handlers.isEmpty then refuse (.splitCovered b)
  let successors := f.normalSuccessors b
  let tail := (f.block b).insns.drop index
  modifyGet fun f =>
    let (new, f) := f.addBlock
    let f := f.modifyBlock b fun block => { block with insns := block.insns.take index }
    let f := f.moveInsns tail new
    let f := f.modifyBlock new fun block => { block with insns := tail }
    (new, f.replacePredecessors successors b new)

/-- Moves the instructions of a block without phis to the end of another one and removes it; its
handlers go with it. -/
def absorbBlock (into source : BlockId) : Edit Unit := do
  let f ← get
  if !(f.block source).phis.isEmpty then refuse (.absorbWithPhis source)
  let moved := (f.block source).insns
  modify fun f =>
    let f := f.replacePredecessors (f.normalSuccessors source) source into
    let f := f.modifyBlock source fun block => { block with insns := [] }
    let f := f.moveInsns moved into
    let f := f.modifyBlock into fun block => { block with insns := block.insns ++ moved }
    f.modifyBlock source fun _ => .gone

def removeBlock (b : BlockId) : Edit Unit := do
  let block := (← get).block b
  if block.insns.isEmpty && block.phis.isEmpty && block.preds.isEmpty then
    modify fun f => f.modifyBlock b fun _ => .gone
  else refuse (.removeNonEmpty b)

end Dissolve.Ssa
