import Dissolve.Inline.Summary
import Dissolve.Inline.Verdict
import Dissolve.Optimize.Config
import Dissolve.Optimize.Event

/-!
# Optimize.Context — what the passes share

The context of an optimization holds the program, the lifted functions, the lens layers and the
record of events. It also keeps answers that are looked up again and again: the verdict on each
class, and the bodies and summaries of called methods. Bodies and summaries are written in the names
of the current lens, so changing the lens forgets them.

`Work` is a step on the context; what a failed step has changed stays changed.
-/

namespace Dissolve.Optimize

open Inline (ClassVerdict MethodSummary ReceiverUse)
open Ssa (Function)

structure Context where
  program : Program
  config : Config
  functions : Assoc MethodRef Function := {}
  lenses : Lens.Chain := {}
  currentLens : Option LensId := none
  verdicts : Assoc TypeRef ClassVerdict := {}
  summaries : Assoc MethodRef MethodSummary := {}
  bodies : Assoc MethodRef Function := {}
  changed : List MethodRef := []
  log : EventLog := {}

/-- Steps on the context; the changes made before a failure stay. -/
abbrev Work := EStateM Error Context

namespace Context

def methods (c : Context) : List MethodRef :=
  sortBy (fun a b => compare a.text b.text) c.functions.keys

def store (c : Context) (method : MethodRef) (f : Function) : Context :=
  { c with functions := c.functions.insert method f }

def record (c : Context) (e : Event) : Context :=
  { c with log := c.log.record e }

def markChanged (c : Context) (method : MethodRef) : Context :=
  if method ∈ c.changed then c else { c with changed := method :: c.changed }

def setLens (c : Context) (lens : Option LensId) : Context :=
  { c with currentLens := lens, bodies := {}, summaries := {} }

def view (c : Context) (source : Option LensId) : Except Error Lens.View :=
  c.lenses.view source c.currentLens

end Context

def record (e : Event) : Work Unit :=
  modify fun c => c.record e

def onCopy {α : Type} (f : Function) (edit : Ssa.Edit α) : Work (α × Function) :=
  match edit.run f with
  | .ok a f => return (a, f)
  | .error e _ => throw e

/-- Runs an edit on the stored function of a method, which keeps what a failed edit changed. There
is no answer without such a function. -/
def onStored {α : Type} (method : MethodRef) (edit : Ssa.Edit α) : Work (Option α) := do
  match (← get).functions.get? method with
  | none => return none
  | some f =>
    match edit.run f with
    | .ok a f => modify fun c => c.store method f; return some a
    | .error e f => modify fun c => c.store method f; throw e

/-! ## Answers that are kept -/

def classVerdict (ty : TypeRef) : Work ClassVerdict := do
  let c ← get
  match c.verdicts.get? ty with
  | some verdict => return verdict
  | none =>
    let verdict := ClassVerdict.compute c.program ty
    record { kind := .classVerdictComputed, message := s!"{ty}: {verdict}" }
    modify fun c => { c with verdicts := c.verdicts.insert ty verdict }
    return verdict

def liftMethod (method : MethodDef) : Work Function := do
  let c ← get
  match method.code with
  | none => ofExcept (Lift.liftMethod method c.config.lift .identity)
  | some body =>
    let view ← ofExcept (c.view body.lens)
    ofExcept (Lift.liftMethod method c.config.lift view)

def calleeBody (method : MethodRef) : Work (Option Function) := do
  let c ← get
  match c.bodies.get? method with
  | some f => return some f
  | none =>
    match c.program.methodDefinition? method with
    | none => return none
    | some definition =>
      if definition.code.isNone then return none
      let f ← liftMethod definition
      modify fun c => { c with bodies := c.bodies.insert method f }
      return some f

/-- The summary of a method, asked for by the methods of `stack`. A method that is asked for while it
is being summarized has no summary yet. `fuel` bounds the number of methods on the way. -/
def summaryFrom : Nat → List MethodRef → MethodRef → Work (Option MethodSummary)
  | 0, _, _ => return none
  | fuel + 1, stack, method => do
      let c ← get
      if let some summary := c.summaries.get? method then return some summary
      if method ∈ stack then return none
      match c.program.methodDefinition? method, ← calleeBody method with
      | some definition, some body =>
        let ask (callee : MethodRef) : Work (Option ReceiverUse) := do
          return (← summaryFrom fuel (method :: stack) callee).map MethodSummary.receiver
        let summary ← MethodSummary.analyze ask definition body .root
        modify fun c => { c with summaries := c.summaries.insert method summary }
        return some summary
      | _, _ => return none

/-- The summary of a method that the program defines with code. No method is on the way twice, so
the number of methods bounds the way. -/
def summary (method : MethodRef) : Work (Option MethodSummary) := do
  let program := (← get).program
  summaryFrom ((program.classes.map fun c => c.methods.length).foldr (· + ·) 1) [] method

/-! ## Functions -/

def liftAndStore (method : MethodDef) : Work Function := do
  let f ← liftMethod method
  modify fun c => c.store method.ref f
  return f

def liftAll : Work Unit := do
  (← get).program.methodsWithCode.forM fun method => discard (liftAndStore method)

def currentOp (view : Lens.View) (context : MethodRef) : Ssa.Op → Ssa.Op
  | .invoke kind method args =>
    let found := view.lookupMethod method context kind
    .invoke found.kind found.ref args
  | .instanceGet field object => .instanceGet (view.lookupField field) object
  | .instancePut field object value => .instancePut (view.lookupField field) object value
  | .staticGet field => .staticGet (view.lookupField field)
  | .staticPut field value => .staticPut (view.lookupField field) value
  | .newInstance ty => .newInstance (view.lookupType ty)
  | .newArray ty size => .newArray (view.lookupType ty) size
  | .newMultiArray ty dims => .newMultiArray (view.lookupType ty) dims
  | .checkCast ty object => .checkCast (view.lookupType ty) object
  | .instanceOf ty object => .instanceOf (view.lookupType ty) object
  | .moveException guard => .moveException (guard.map view.lookupType)
  | op => op

def renamedInsns (view : Lens.View) (f : Function) : List (InsnId × Ssa.Op) :=
  f.insnIds.filterMap fun i =>
    let op := currentOp view f.method (f.insn i).op
    if op = (f.insn i).op then none else some (i, op)

/-- Brings the stored function of a method up to the current names. The answer is whether an
instruction changed. -/
def refreshLens (method : MethodRef) : Work (Option Bool) := do
  let c ← get
  match c.functions.get? method with
  | none => return none
  | some f =>
    if f.lens = c.currentLens then return some false
    let view ← ofExcept (c.view f.lens)
    let renamed := renamedInsns view f
    let f := renamed.foldl (fun f (i, op) => f.replaceOp i op) f
    modify fun c => c.store method { f with lens := c.currentLens }
    return some (!renamed.isEmpty)

end Dissolve.Optimize
