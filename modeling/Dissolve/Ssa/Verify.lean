import Dissolve.Graph.Dominators
import Dissolve.Sorted
import Dissolve.Ssa.Edit

/-!
# Ssa.Verify — the rules of SSA form

A function keeps the rules when

* its entry is live and has no predecessors,
* every live block ends in its only terminator, jumps to live blocks, and lists instructions and
  phis that belong to it, each phi with one operand per predecessor,
* every value that is read is defined, defined once, and knows exactly its users,
* predecessor lists are the incoming edges, normal and exceptional ones,
* in reachable blocks every use is dominated by the definition; an operand of a phi counts as used
  at the end of its predecessor.

`violations` lists what breaks a rule, in this order, and `verify` reports the first.
-/

namespace Dissolve.Ssa

namespace Function

def isDead (f : Function) (b : BlockId) : Bool :=
  (f.block b).removed

/-! ## Blocks -/

def entryViolations (f : Function) : List Violation :=
  if f.isDead f.entry then [.noEntry]
  else if (f.predecessors f.entry).isEmpty then []
  else [.entryHasPredecessors f.entry]

def terminatorViolations (f : Function) (b : BlockId) : List Violation :=
  match (f.block b).insns.getLast? with
  | none => [.emptyBlock b]
  | some last =>
    if (f.insn last).op.isTerminator then
      ((f.block b).insns.dropLast.filter fun i => (f.insn i).op.isTerminator).map
        (.misplacedTerminator b ·)
    else [.noTerminator b]

def targetViolations (f : Function) (b : BlockId) : List Violation :=
  ((f.successors b).filter f.isDead).map (.deadTarget b ·)

def memberViolations (f : Function) (b : BlockId) : List Violation :=
  ((f.block b).insns.filter fun i => (f.insn i).removed || (f.insn i).block ≠ b).map
    (.foreignInsn b ·)

def phiViolations (f : Function) (b : BlockId) (p : PhiId) : List Violation :=
  let phi := f.phi p
  let preds := f.predecessors b
  if phi.removed || phi.block ≠ b then [.foreignPhi b p]
  else if phi.operands.length = preds.length then []
  else [.phiArity p b phi.operands.length preds.length]

def blockViolations (f : Function) (b : BlockId) : List Violation :=
  f.terminatorViolations b ++ f.targetViolations b ++ f.memberViolations b ++
    (f.block b).phis.flatMap (f.phiViolations b)

/-! ## Definitions and users -/

def definitionViolations (f : Function) (v : ValueId) (site : Site) : List Violation :=
  if (f.value v).definition = some site then [] else [.wrongDefinition v site]

def operandViolations (f : Function) (user : Site) (v : ValueId) : List Violation :=
  if (f.value v).definition.isNone then [.undefinedRead user v]
  else if user ∈ (f.value v).users then []
  else [.missingUser v user]

def insnViolations (f : Function) (i : InsnId) : List Violation :=
  (f.insn i).dest.toList.flatMap (f.definitionViolations · (.insn i)) ++
    (f.insn i).op.operands.flatMap (f.operandViolations (.insn i))

def phiUseViolations (f : Function) (p : PhiId) : List Violation :=
  f.definitionViolations (f.phi p).value (.phi p) ++
    (f.phi p).operands.flatMap (f.operandViolations (.phi p))

def definedValues (f : Function) : List ValueId :=
  f.insnIds.filterMap (fun i => (f.insn i).dest) ++ f.phiIds.map fun p => (f.phi p).value

def repetitionViolations (f : Function) : List Violation :=
  let defined := f.definedValues
  (defined.filter fun v => 1 < defined.count v).map fun v =>
    .definedRepeatedly v (defined.count v)

def readsAt (f : Function) (v : ValueId) : Site → Bool
  | .insn i => !(f.insn i).removed && (f.insn i).op.uses v
  | .phi p => !(f.phi p).removed && decide (v ∈ (f.phi p).operands)

def staleViolations (f : Function) (v : ValueId) : List Violation :=
  ((f.value v).users.filter fun user => !f.readsAt v user).map (.staleUser v ·)

def useViolations (f : Function) : List Violation :=
  f.insnIds.flatMap f.insnViolations ++ f.phiIds.flatMap f.phiUseViolations ++
    f.repetitionViolations ++ f.valueIds.flatMap f.staleViolations

/-! ## Edges -/

/-- The blocks with an edge into `b`, one entry per edge, in ascending order. -/
def incoming (f : Function) (b : BlockId) : List BlockId :=
  f.blockIds.flatMap fun p => List.replicate ((f.successors p).count b) p

def edgeViolations (f : Function) : List Violation :=
  f.blockIds.flatMap fun b =>
    let recorded := sortBy compare (f.predecessors b)
    let incoming := f.incoming b
    if recorded = incoming then [] else [.wrongPredecessors b recorded incoming]

/-! ## Dominance -/

/-- Whether a value is there before instruction number `index` of a block; no number means the end
of the block. -/
def isAvailable (f : Function) (tree : Graph.DominatorTree) (v : ValueId) (b : BlockId)
    (index : Option Nat) : Bool :=
  match (f.value v).definition with
  | none => false
  | some (.phi p) => (f.phi p).block = b || tree.dominates (f.phi p).block.index b.index
  | some (.insn i) =>
    if (f.insn i).block = b then
      match index with
      | none => true
      | some index =>
        match f.positionInBlock? i with
        | some place => decide (place < index)
        | none => false
    else tree.dominates (f.insn i).block.index b.index

def insnDominance (f : Function) (tree : Graph.DominatorTree) (i : InsnId) : List Violation :=
  let b := (f.insn i).block
  if tree.isReachable b.index then
    let index := (f.positionInBlock? i).getD (f.block b).insns.length
    ((f.insn i).op.operands.filter fun v => !f.isAvailable tree v b (some index)).map
      (.notDominated i b ·)
  else []

def phiDominance (f : Function) (tree : Graph.DominatorTree) (p : PhiId) : List Violation :=
  let b := (f.phi p).block
  if tree.isReachable b.index then
    (((f.phi p).operands.zip (f.predecessors b)).filter fun (v, pred) =>
      tree.isReachable pred.index && !f.isAvailable tree v pred none).map
        fun (v, pred) => .notAvailable p v pred
  else []

def dominanceViolations (f : Function) : List Violation :=
  let tree := f.graph.dominators f.entry.index
  f.insnIds.flatMap (f.insnDominance tree) ++ f.phiIds.flatMap (f.phiDominance tree)

def violations (f : Function) : List Violation :=
  f.entryViolations ++ f.blockIds.flatMap f.blockViolations ++ f.useViolations ++
    f.edgeViolations ++ f.dominanceViolations

end Function

/-- Checks the rules of SSA form and reports the first that is broken. -/
def verify (f : Function) : Except Error Unit :=
  match f.violations with
  | [] => .ok ()
  | cause :: _ => .error (.ssaVerification f.method cause)

theorem verify_eq_ok_iff (f : Function) : verify f = .ok () ↔ f.violations = [] := by
  unfold verify
  cases f.violations with
  | nil => simp
  | cons cause rest => simp

end Dissolve.Ssa
