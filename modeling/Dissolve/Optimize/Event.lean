import Dissolve.Duration
import Dissolve.Signature.Reference
import Dissolve.Sorted
import Dissolve.Text.Listing

/-!
# Optimize.Event — the record of an optimization

Passes record what they did as events, in order. Statistics are counted from the record afterwards,
so no pass keeps counters of its own.
-/

namespace Dissolve.Optimize

inductive EventKind
  | methodLifted
  | allocationInlined
  | siteRejected
  | methodInlined
  | phiInserted
  | phiSimplified
  | instructionRemoved
  | blockMerged
  | lensLayerCreated
  | bridgeForwarded
  | classVerdictComputed
  | passStarted
  | passCompleted
  | info
  | warning
  | error
  deriving DecidableEq

namespace EventKind

def all : List EventKind :=
  [.methodLifted, .allocationInlined, .siteRejected, .methodInlined, .phiInserted, .phiSimplified,
    .instructionRemoved, .blockMerged, .lensLayerCreated, .bridgeForwarded, .classVerdictComputed,
    .passStarted, .passCompleted, .info, .warning, .error]

def text : EventKind → String
  | .methodLifted => "method lifted"
  | .allocationInlined => "allocation inlined"
  | .siteRejected => "site rejected"
  | .methodInlined => "method inlined"
  | .phiInserted => "phi inserted"
  | .phiSimplified => "phi simplified"
  | .instructionRemoved => "instruction removed"
  | .blockMerged => "block merged"
  | .lensLayerCreated => "lens layer created"
  | .bridgeForwarded => "bridge forwarded"
  | .classVerdictComputed => "class verdict computed"
  | .passStarted => "pass started"
  | .passCompleted => "pass completed"
  | .info => "info"
  | .warning => "warning"
  | .error => "error"

instance : ToString EventKind := ⟨text⟩

def isTransformation : EventKind → Bool
  | .allocationInlined | .methodInlined | .phiInserted | .phiSimplified | .instructionRemoved
  | .blockMerged | .lensLayerCreated | .bridgeForwarded => true
  | _ => false

def isDiagnostic : EventKind → Bool
  | .info | .warning | .error => true
  | _ => false

end EventKind

structure Event where
  kind : EventKind
  method : Option MethodRef := none
  location : Option Nat := none
  message : String := kind.text
  pass : Option String := none
  deriving DecidableEq

namespace Event

def text (e : Event) : String :=
  match e.method, e.location with
  | some method, some location => s!"[{e.kind}] {method}@{location}: {e.message}"
  | some method, none => s!"[{e.kind}] {method}: {e.message}"
  | none, _ => s!"[{e.kind}] {e.message}"

instance : ToString Event := ⟨text⟩

end Event

structure EventLog where
  events : List Event := []
  deriving DecidableEq

namespace EventLog

def record (log : EventLog) (e : Event) : EventLog :=
  ⟨log.events ++ [e]⟩

def size (log : EventLog) : Nat :=
  log.events.length

def isEmpty (log : EventLog) : Bool :=
  log.events.isEmpty

def ofKind (log : EventLog) (kind : EventKind) : List Event :=
  log.events.filter (·.kind = kind)

def has (log : EventLog) (kind : EventKind) : Bool :=
  log.events.any (·.kind = kind)

def count (log : EventLog) (kind : EventKind) : Nat :=
  (log.ofKind kind).length

def ofMethod (log : EventLog) (method : MethodRef) : List Event :=
  log.events.filter (·.method = some method)

def transformations (log : EventLog) : List Event :=
  log.events.filter (·.kind.isTransformation)

def diagnostics (log : EventLog) : List Event :=
  log.events.filter (·.kind.isDiagnostic)

def countByKind (log : EventLog) : List (EventKind × Nat) :=
  (EventKind.all.map fun kind => (kind, log.count kind)).filter fun (_, count) => count ≠ 0

def changedMethods (log : EventLog) : List MethodRef :=
  (log.transformations.filterMap Event.method).eraseDups

/-- How often each kind of change happened, or how many events there are if nothing changed. -/
def summary (log : EventLog) : String :=
  if log.isEmpty then "no events"
  else
    let changes := log.countByKind.filter fun (kind, _) => kind.isTransformation
    if changes.isEmpty then s!"{log.size} events"
    else
      Text.commaSeparated (sortBy compare (changes.map fun (kind, count) => s!"{count} {kind}"))

end EventLog

structure Stats where
  methodsTransformed : Nat
  methodsLifted : Nat
  allocationsInlined : Nat
  sitesRejected : Nat
  methodsInlined : Nat
  phisInserted : Nat
  phisSimplified : Nat
  instructionsRemoved : Nat
  blocksMerged : Nat
  lensLayers : Nat
  bridgesForwarded : Nat
  warnings : Nat
  errors : Nat
  iterations : Nat
  time : Duration
  deriving DecidableEq

namespace Stats

def ofLog (log : EventLog) (iterations : Nat) (time : Duration) : Stats :=
  { methodsTransformed := log.changedMethods.length
    methodsLifted := log.count .methodLifted
    allocationsInlined := log.count .allocationInlined
    sitesRejected := log.count .siteRejected
    methodsInlined := log.count .methodInlined
    phisInserted := log.count .phiInserted
    phisSimplified := log.count .phiSimplified
    instructionsRemoved := log.count .instructionRemoved
    blocksMerged := log.count .blockMerged
    lensLayers := log.count .lensLayerCreated
    bridgesForwarded := log.count .bridgeForwarded
    warnings := log.count .warning
    errors := log.count .error
    iterations
    time }

def listed (s : Stats) : List (Nat × String) :=
  [(s.methodsLifted, "lifted"), (s.allocationsInlined, "allocations inlined"),
    (s.sitesRejected, "sites rejected"), (s.methodsInlined, "calls inlined"),
    (s.phisInserted, "phis inserted"), (s.phisSimplified, "phis simplified"),
    (s.instructionsRemoved, "instructions removed"), (s.blocksMerged, "blocks merged"),
    (s.lensLayers, "lens layers"), (s.bridgesForwarded, "bridges forwarded"),
    (s.errors, "errors"), (s.warnings, "warnings")]

def summary (s : Stats) : String :=
  let parts := (s.listed.filter fun (count, _) => count ≠ 0).map fun (count, name) =>
    s!"{count} {name}"
  let shown := if parts.isEmpty then "no transformations" else Text.commaSeparated parts
  if s.time.milliseconds = 0 then shown
  else shown ++ " in " ++ s.time.text ++ s!" ({s.iterations} iterations)"

end Stats

end Dissolve.Optimize
