import Dissolve.Assoc
import Dissolve.Code.Body
import Dissolve.Error
import Dissolve.Graph.Basic

/-!
# Lift.Layout — basic blocks of stack code

The instruction stream is cut into ranges, the basic blocks of stack code. A range starts

* at the first instruction, at every target of a jump, and at every label of the exception table,
* behind an instruction that ends a block, and
* behind an instruction that may throw where a handler covers it, so that a covered range throws at
  most at its last instruction and its handlers see the local variables as they are at its end.

A range that would start at a label starts at the first label of its run, so no range holds labels
alone because of a second name for its start.
-/

namespace Dissolve.Lift

open Code (Instruction Body HandlerEntry)

/-- An entry of the exception table with its labels resolved: it covers `start ≤ i < stop`. -/
structure Protected where
  start : Nat
  stop : Nat
  handler : Nat
  guard : Option TypeRef

def Protected.covers (p : Protected) (offset : Nat) : Bool :=
  p.start ≤ offset && offset < p.stop

/-- A basic block of stack code, the instructions `start ≤ i < stop`. -/
structure Range where
  start : Nat
  stop : Nat
  /-- The ranges control can continue at, in edge order; fall-through comes last. -/
  normal : List Nat
  exceptional : List (Option TypeRef × Nat)
  fallsOff : Bool

structure Layout where
  labels : Assoc Label Nat
  ranges : List Range
  /-- Per handler range the type it catches; entries that disagree catch anything. -/
  handlerGuards : Assoc Nat (Option TypeRef)

def insnAt (insns : List Instruction) (offset : Nat) : Instruction :=
  insns[offset]?.getD .nop

/-! ## Labels -/

def collectLabels (method : MethodRef) :
    Nat → List Instruction → Assoc Label Nat → Except Error (Assoc Label Nat)
  | _, [], labels => .ok labels
  | offset, .label name :: rest, labels =>
    if labels.contains name then
      .error (.malformedCode method offset (.labelDefinedTwice name))
    else collectLabels method (offset + 1) rest (labels.insert name offset)
  | offset, _ :: rest, labels => collectLabels method (offset + 1) rest labels

def resolveLabel (method : MethodRef) (labels : Assoc Label Nat) (user : Nat) (label : Label) :
    Except Error Nat :=
  match labels.get? label with
  | some offset => .ok offset
  | none => .error (.malformedCode method user (.undefinedLabel label))

def resolveEntry (method : MethodRef) (labels : Assoc Label Nat) (entry : HandlerEntry) :
    Except Error Protected := do
  let start ← resolveLabel method labels 0 entry.start
  let stop ← resolveLabel method labels 0 entry.stop
  let handler ← resolveLabel method labels 0 entry.handler
  if stop < start then
    throw (.malformedCode method start (.reversedRange entry.start entry.stop))
  return ⟨start, stop, handler, entry.guard⟩

/-! ## Where ranges start -/

def endsRange (table : List Protected) (offset : Nat) (insn : Instruction) : Bool :=
  insn.endsBlock || (insn.mayThrow && table.any (·.covers offset))

def collectStarts (method : MethodRef) (labels : Assoc Label Nat) (table : List Protected) :
    Nat → List Instruction → Except Error (List Nat)
  | _, [] => .ok []
  | offset, insn :: rest => do
      let targets ← insn.branchTargets.mapM (resolveLabel method labels offset)
      let behind := if endsRange table offset insn then [offset + 1] else []
      return targets ++ behind ++ (← collectStarts method labels table (offset + 1) rest)

def backOverLabels (insns : List Instruction) : Nat → Nat
  | 0 => 0
  | offset + 1 =>
    if (insnAt insns offset).isLabel then backOverLabels insns offset else offset + 1

def rangeStarts (insns : List Instruction) (starts : List Nat) : List Nat :=
  let moved := (starts.filter (· < insns.length)).map (backOverLabels insns)
  (List.range insns.length).filter fun offset => offset ∈ moved

def rangeOf (starts : List Nat) (offset : Nat) : Nat :=
  (starts.filter (· ≤ offset)).length - 1

/-! ## Edges -/

def realOffsets (insns : List Instruction) (start stop : Nat) : List Nat :=
  ((List.range (stop - start)).map (start + ·)).filter fun i => !(insnAt insns i).isLabel

def jumpEdges (method : MethodRef) (labels : Assoc Label Nat) (starts : List Nat) (offset : Nat)
    (insn : Instruction) : Except Error (List Nat) :=
  insn.branchTargets.mapM fun label => do
    return rangeOf starts (← resolveLabel method labels offset label)

/-- The handlers of a throwing range in dispatch order. A handler range is listed once, and nothing
behind an entry that catches everything. -/
def handlerEdges (starts : List Nat) :
    List Protected → List (Option TypeRef × Nat) → List (Option TypeRef × Nat)
  | [], found => found
  | entry :: rest, found =>
    let target := rangeOf starts entry.handler
    let found :=
      if found.any fun h => h.2 = target then found else found ++ [(entry.guard, target)]
    if entry.guard.isNone then found else handlerEdges starts rest found

def buildRange (method : MethodRef) (insns : List Instruction) (labels : Assoc Label Nat)
    (table : List Protected) (starts : List Nat) (k start stop : Nat) : Except Error Range := do
  let real := realOffsets insns start stop
  let last := real.getLast?.map fun offset => (offset, insnAt insns offset)
  let (jumps, continues) ←
    match last with
    | some (offset, insn) =>
      if insn.endsBlock then
        pure (← jumpEdges method labels starts offset insn, insn.fallsThrough)
      else pure ([], true)
    | none => pure ([], true)
  let isLast := k + 1 = starts.length
  let throws := real.any fun offset => (insnAt insns offset).mayThrow
  let anchor := real.head?.getD start
  return {
    start, stop
    normal := if continues && !isLast then jumps ++ [k + 1] else jumps
    exceptional :=
      if throws then handlerEdges starts (table.filter (·.covers anchor)) [] else []
    fallsOff := continues && isLast }

def noteGuard (starts : List Nat) (guards : Assoc Nat (Option TypeRef)) (entry : Protected) :
    Assoc Nat (Option TypeRef) :=
  let range := rangeOf starts entry.handler
  match guards.get? range with
  | none => guards.insert range entry.guard
  | some guard => if guard = entry.guard then guards else guards.insert range none

namespace Layout

def build (method : MethodRef) (body : Body) : Except Error Layout := do
  let insns := body.instructions
  if insns.isEmpty then throw (.malformedCode method 0 .emptyBody)
  let labels ← collectLabels method 0 insns {}
  let table ← body.handlers.mapM (resolveEntry method labels)
  let jumpStarts ← collectStarts method labels table 0 insns
  let tableStarts := table.flatMap fun p => [p.start, p.stop, p.handler]
  let starts := rangeStarts insns (0 :: jumpStarts ++ tableStarts)
  let bounds := (starts.zip (starts.drop 1 ++ [insns.length])).zipIdx
  let ranges ← bounds.mapM fun ((start, stop), k) =>
    buildRange method insns labels table starts k start stop
  return { labels, ranges, handlerGuards := table.foldl (noteGuard starts) {} }

def labelOffset? (layout : Layout) (label : Label) : Option Nat :=
  layout.labels.get? label

def range? (layout : Layout) (k : Nat) : Option Range :=
  layout.ranges[k]?

def normal (layout : Layout) (k : Nat) : List Nat :=
  ((layout.range? k).map Range.normal).getD []

def start (layout : Layout) (k : Nat) : Nat :=
  ((layout.range? k).map Range.start).getD 0

def isHandler (layout : Layout) (k : Nat) : Bool :=
  layout.handlerGuards.contains k

def graph (layout : Layout) : Graph :=
  { size := layout.ranges.length
    succ := fun k =>
      match layout.range? k with
      | some range => range.normal ++ range.exceptional.map Prod.snd
      | none => [] }

end Layout

end Dissolve.Lift
