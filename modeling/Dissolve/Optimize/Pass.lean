import Dissolve.Optimize.Bridge
import Dissolve.Optimize.ClassInlining
import Dissolve.Ssa.BlockMerging

/-!
# Optimize.Pass — steps of an optimization

A pass works on the stored function of one method at a time, or, if it is global, on the context as
a whole. Next to the context a run carries a memory of type `ρ`, in which passes remember what they
did; the passes below are `Standard` ones, which remember the forwarded bridges.
-/

namespace Dissolve.Optimize

structure Session (ρ : Type) where
  context : Context
  memory : ρ

abbrev Run (ρ : Type) := EStateM Error (Session ρ)

def onContext {ρ α : Type} (step : Work α) : Run ρ α := fun s =>
  match step s.context with
  | .ok a context => .ok a { s with context }
  | .error e context => .error e { s with context }

structure Pass (ρ : Type) where
  name : String
  description : String := "No description available"
  isGlobal : Bool := false
  applies : Context → MethodRef → Bool := fun _ _ => true
  prepare : Run ρ Unit := pure ()
  runOn : MethodRef → Run ρ Bool := fun _ => pure false
  runGlobal : Run ρ Bool := pure false
  conclude : Run ρ Unit := pure ()

abbrev Standard := List MethodRef

namespace Pass

def bridgeForwarding : Pass Standard :=
  { name := bridgeForwardingName
    description := "Maps forwarding bridge methods to their targets"
    isGlobal := true
    runGlobal := do
      let s ← get
      if !s.context.config.bridgeForwarding then return false
      let forwarded ← onContext (forwardBridges s.memory)
      modify fun s => { s with memory := forwarded }
      return s.memory.length < forwarded.length }

def classInlining : Pass Standard :=
  { name := classInliningName
    description := "Replaces non-escaping allocations by their field values"
    applies := fun c method =>
      c.config.classInlining.enabled && !c.program.isPinned (.method method)
    runOn := fun method => onContext (dissolveAllocations method) }

/-- Runs an edit on the stored function of a method. An edit that changed something says what, and
that is recorded. -/
def runEdit (pass : String) (kind : EventKind) (edit : Ssa.Edit (Option String))
    (method : MethodRef) : Work Bool := do
  match (← onStored method edit).join with
  | none => return false
  | some message =>
    record { kind, method := some method, message, pass := some pass }
    return true

def phiCleanup : Pass Standard :=
  let edit : Ssa.Edit (Option String) := do
    let removed ← Ssa.cleanUpPhis
    return if removed = 0 then none else some s!"{removed} phis removed"
  { name := "PhiCleanup"
    description := "Removes trivial and dead phis"
    runOn := fun method => onContext (runEdit "PhiCleanup" .phiSimplified edit method) }

def blockMerging : Pass Standard :=
  let edit : Ssa.Edit (Option String) := do
    let stats ← Ssa.mergeBlocks
    return if stats.total = 0 then none
      else some s!"{stats.merged} merged, {stats.bypassed} bypassed"
  { name := "BlockMerging"
    description := "Merges jump-connected blocks and removes trampolines"
    applies := fun c _ => c.config.blockMerging
    runOn := fun method => onContext (runEdit "BlockMerging" .blockMerged edit method) }

end Pass

end Dissolve.Optimize
