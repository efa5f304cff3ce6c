import Dissolve.Optimize.Pass

/-!
# Optimize.Pipeline — when passes run

A pipeline has three groups of passes. One iteration

1. runs the renaming passes until they change nothing, and brings every function up to the current
   names,
2. runs the inlining passes until they change nothing, and the normalizing passes after each change,
3. runs the normalizing passes until they change nothing.

Every loop is limited. The iterations end when several in a row changed nothing, or at their limit.
-/

namespace Dissolve.Optimize

structure Pipeline (ρ : Type) where
  maxIterations : Nat := 5
  /-- How many iterations without a change end the run; zero counts as one. -/
  stableIterations : Nat := 1
  maxPhaseIterations : Nat := 10
  renamers : List (Pass ρ) := []
  inliners : List (Pass ρ) := []
  normalizers : List (Pass ρ) := []

section

variable {ρ : Type}

def attempt {α : Type} (step : Run ρ α) : Run ρ (Except Error α) := fun s =>
  match step s with
  | .ok a s => .ok (.ok a) s
  | .error e s => .ok (.error e) s

/-- Runs a step for every method, also behind a failure, and reports the first failure. The answer is
whether something changed. -/
def runForEach (step : MethodRef → Run ρ Bool) (methods : List MethodRef) : Run ρ Bool := do
  let results ← methods.mapM fun method => attempt (step method)
  let changes ← results.mapM ofExcept
  return changes.any id

def checkStored (pass : String) (method : MethodRef) : Work Unit := do
  match (← get).functions.get? method with
  | none => return
  | some f =>
    match Ssa.verify f with
    | .error (.ssaVerification checked cause) =>
      throw (.ssaVerification method (.recheck (some pass) checked cause))
    | result => ofExcept result

/-- Runs a pass on one method, checks the result if that is asked for, and notes the change. -/
def Pass.runOnMethod (pass : Pass ρ) (method : MethodRef) : Run ρ Bool := do
  let c := (← get).context
  if !pass.applies c method || !c.functions.contains method then return false
  if !(← pass.runOn method) then return false
  if c.config.verifyAfterPasses then onContext (checkStored pass.name method)
  onContext (modify fun c => c.markChanged method)
  return true

def Pass.recorded (pass : Pass ρ) (run : Run ρ Bool) : Run ρ Bool := do
  onContext (record
    { kind := .passStarted, message := pass.description, pass := some pass.name })
  let changed ← run
  onContext (record
    { kind := .passCompleted, message := s!"changed={changed}", pass := some pass.name })
  return changed

def runOnce (passes : List (Pass ρ)) : Run ρ Bool := do
  passes.forM Pass.prepare
  let globalChanges ← (passes.filter Pass.isGlobal).mapM fun pass => pass.recorded pass.runGlobal
  let methods := (← get).context.methods
  let changes ← (passes.filter fun pass => !pass.isGlobal).mapM fun pass =>
    pass.recorded (runForEach pass.runOnMethod methods)
  passes.forM Pass.conclude
  return (globalChanges ++ changes).any id

def runToFixpoint (passes : List (Pass ρ)) : Nat → Run ρ Bool
  | 0 => return false
  | limit + 1 => do
      if !(← runOnce passes) then return false
      discard (runToFixpoint passes limit)
      return true

/-- Runs the passes of a phase until they change nothing, at most `limit` times, and `tidy` after
each change. -/
def runPhaseLoop (passes : List (Pass ρ)) (tidy : Run ρ Unit) : Nat → Run ρ Bool
  | 0 => return false
  | limit + 1 => do
      if !(← runOnce passes) then return false
      tidy
      discard (runPhaseLoop passes tidy limit)
      return true

def runPhase (passes normalizers : List (Pass ρ)) (limit : Nat) : Run ρ Bool :=
  if passes.isEmpty then return false
  else
    let tidy : Run ρ Unit :=
      if normalizers.isEmpty then pure () else discard (runToFixpoint normalizers limit)
    runPhaseLoop passes tidy limit

def refreshMethod (method : MethodRef) : Work Bool := do
  let changed := (← refreshLens method).getD false
  if changed then modify fun c => c.markChanged method
  return changed

def refreshAll : Run ρ Bool := do
  runForEach (fun method => onContext (refreshMethod method)) (← get).context.methods

namespace Pipeline

def passes (p : Pipeline ρ) : List (Pass ρ) :=
  p.renamers ++ p.inliners ++ p.normalizers

def iterate (p : Pipeline ρ) : Run ρ Bool := do
  let renamed ← runPhase p.renamers [] p.maxPhaseIterations
  let refreshed ← refreshAll
  let inlined ← runPhase p.inliners p.normalizers p.maxPhaseIterations
  let normalized ← runToFixpoint p.normalizers p.maxPhaseIterations
  return renamed || refreshed || inlined || normalized

/-- Runs at most `limit` iterations behind `stable` ones without a change, and counts them. -/
def iterations (p : Pipeline ρ) : Nat → Nat → Run ρ Nat
  | 0, _ => return 0
  | limit + 1, stable => do
      let stable := if ← p.iterate then 0 else stable + 1
      if stable ≠ 0 ∧ max p.stableIterations 1 ≤ stable then return 1
      return (← p.iterations limit stable) + 1

def run (p : Pipeline ρ) : Run ρ Nat :=
  p.iterations p.maxIterations 0

end Pipeline

end

end Dissolve.Optimize
