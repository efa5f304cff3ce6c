import Dissolve.Sorted
import Dissolve.Ssa.Edit

/-!
# Ssa.BlockMerging — undoing chains of jumps

* *Merging*: a block that only its predecessor jumps to becomes the tail of that predecessor.
* *Bypassing*: a block that does nothing but jump is left out, and its predecessors jump to its
  target themselves.

Neither happens where handlers cover the blocks involved, because handlers depend on where blocks
begin and end.
-/

namespace Dissolve.Ssa

structure MergeStats where
  merged : Nat := 0
  bypassed : Nat := 0
  deriving DecidableEq

namespace MergeStats

def total (stats : MergeStats) : Nat :=
  stats.merged + stats.bypassed

end MergeStats

def Function.jumpTarget? (f : Function) (b : BlockId) : Option BlockId :=
  match f.terminator? b with
  | some i =>
    match (f.insn i).op with
    | .goto target => some target
    | _ => none
  | none => none

/-- Replaces phis with one operand by that operand. Stops before a phi that reads only itself, and
says whether it came to the end. -/
def resolveSinglePhis : List PhiId → Edit Bool
  | [] => return true
  | p :: rest => do
      let phi := (← get).phi p
      match phi.operands with
      | [operand] =>
        if operand = phi.value then return false
        modify fun f => (f.replaceAllUses phi.value operand).2
        removePhi p
        resolveSinglePhis rest
      | operands => refuse (.operandsForOnePredecessor p operands.length)

def removeTerminator (b : BlockId) : Edit Bool := do
  match (← get).terminator? b with
  | some jump =>
    removeInsn jump
    return true
  | none => return false

def Function.canMerge (f : Function) (b succ : BlockId) : Bool :=
  succ ≠ b && succ ≠ f.entry && f.predecessors succ = [b] &&
    (f.block b).handlers.isEmpty && (f.block succ).handlers.isEmpty

/-- Lets a block take over the block it jumps to, if it is the only way into it. -/
def tryMerge (b : BlockId) : Edit Bool := do
  let f ← get
  match f.jumpTarget? b with
  | none => return false
  | some succ =>
    if !f.canMerge b succ then return false
    if !(← resolveSinglePhis (f.block succ).phis) then return false
    if !(← removeTerminator b) then return false
    absorbBlock b succ
    return true

def Function.isTrampoline (f : Function) (b succ : BlockId) : Bool :=
  let block := f.block b
  succ ≠ b && b ≠ f.entry && block.insns.length = 1 && block.phis.isEmpty &&
    block.handlers.isEmpty && !block.preds.isEmpty

namespace Function

def repeatOperand (f : Function) (slot : Nat) (p : PhiId) : Function :=
  let operands := (f.phi p).operands
  f.setPhiOperands p (operands ++ operands[slot]?.toList)

/-- Records one more edge into a block, with the operands that belong to edge number `slot`. -/
def repeatEdge (f : Function) (b pred : BlockId) (slot : Nat) : Function :=
  let f := f.addPredecessor b pred
  (f.block b).phis.foldl (fun f p => f.repeatOperand slot p) f

def redirectEdges (f : Function) (b succ : BlockId) (slot : Nat) (pred : BlockId) : Function :=
  let (edges, f) := f.retarget pred b succ
  (List.replicate edges pred).foldl (fun f pred => f.repeatEdge succ pred slot) f

end Function

/-- Lets the predecessors of a block that only jumps go to its target, and removes the block. Every
predecessor has to reach it by its terminator and not by a handler. -/
def tryBypass (b : BlockId) : Edit Bool := do
  let f ← get
  match f.jumpTarget? b with
  | none => return false
  | some succ =>
    if !f.isTrampoline b succ then return false
    match (f.predecessors succ).idxOf? b with
    | none => refuse (.notItsPredecessor b succ)
    | some slot =>
      let preds := dropRepeats (f.predecessors b)
      if preds.any fun p => b ∉ f.normalSuccessors p then return false
      modify fun f => preds.foldl (fun f pred => f.redirectEdges b succ slot pred) f
      removePredecessorAt succ slot
      modify fun f => f.modifyBlock b fun block => { block with preds := [] }
      if !(← removeTerminator b) then return false
      removeBlock b
      return true

def mergeAt (stats : MergeStats) (b : BlockId) : Edit MergeStats := do
  if ((← get).block b).removed then return stats
  if ← tryMerge b then return { stats with merged := stats.merged + 1 }
  if ← tryBypass b then return { stats with bypassed := stats.bypassed + 1 }
  return stats

/-- Goes over the blocks until a round changes nothing; `fuel` bounds the rounds. -/
def mergeRounds : Nat → MergeStats → Edit MergeStats
  | 0, stats => return stats
  | fuel + 1, stats => do
      let next ← (← get).blockIds.foldlM mergeAt stats
      if next.total = stats.total then return stats
      mergeRounds fuel next

/-- Merges and bypasses blocks until nothing changes. Every round but the last removes a block. -/
def mergeBlocks : Edit MergeStats := do
  mergeRounds ((← get).blocks.size + 1) {}

end Dissolve.Ssa
