import Dissolve.Optimize.Pipeline

/-!
# Optimize.Compile — optimizing a program

`compile` lifts methods of a program, runs the passes that the configuration asks for, and hands
back the functions together with the record of what happened.
-/

namespace Dissolve.Optimize

open Ssa (Function)

def Config.pipeline (config : Config) : Pipeline Standard :=
  { maxIterations := config.maxIterations
    maxPhaseIterations := config.maxPhaseIterations
    renamers := if config.bridgeForwarding then [.bridgeForwarding] else []
    inliners := if config.classInlining.enabled then [.classInlining] else []
    normalizers := .phiCleanup :: if config.blockMerging then [.blockMerging] else [] }

def optimize : Work Nat := fun c =>
  match c.config.pipeline.run ⟨c, []⟩ with
  | .ok iterations s => .ok iterations s.context
  | .error e s => .error e s.context

/-- Lifts a method for optimization; it is checked here if lifting does not check it and passes are
to be checked. -/
def liftChecked (method : MethodDef) : Work (MethodRef × Function) := do
  let f ← liftMethod method
  let config := (← get).config
  if config.verifyAfterPasses && !config.lift.verify then
    match Ssa.verify f with
    | .error (.ssaVerification checked cause) =>
      throw (.ssaVerification method.ref (.recheck none checked cause))
    | result => ofExcept result
  return (method.ref, f)

def storeLifted (lifted : MethodRef × Function) : Work Unit := do
  let (method, f) := lifted
  record
    { kind := .methodLifted, method := some method
      message := s!"{f.blockCount} blocks, {f.insnCount} instructions" }
  modify fun c => c.store method f

structure Outcome where
  context : Context
  iterations : Nat

namespace Outcome

def functions (o : Outcome) : List (MethodRef × Function) :=
  sortBy (fun a b => compare a.1 b.1) o.context.functions.pairs

def stats (o : Outcome) (time : Duration) : Stats :=
  .ofLog o.context.log o.iterations time

def changedMethods (o : Outcome) : List MethodRef :=
  dropRepeats (sortBy (fun a b => compare a.text b.text)
    (o.context.log.transformations.filterMap Event.method))

end Outcome

def compile (config : Config) (program : Program) (methods : List MethodDef) :
    Except Error Outcome :=
  let work : Work Nat := do
    let lifted ← (methods.filter fun method => method.code.isSome).mapM liftChecked
    lifted.forM storeLifted
    optimize
  match work { program, config } with
  | .ok iterations context => .ok ⟨context, iterations⟩
  | .error e _ => .error e

def compileProgram (config : Config) (program : Program) : Except Error Outcome :=
  compile config program program.methodsWithCode

end Dissolve.Optimize
