import Dissolve.Optimize.Context

/-!
# Optimize.Bridge — methods that only pass a call on

A bridge does nothing but pass its parameters, in order, to another method and return what that
method returns. Calls of a bridge can go to that method directly: a new lens layer says so, and
every function follows it when it is brought up to the current names.
-/

namespace Dissolve.Optimize

open Ssa (Function)

structure ForwardedCall where
  kind : InvokeKind
  target : MethodRef
  args : List ValueId
  result : Option ValueId

structure Forwarding where
  parameters : List (Nat × ValueId) := []
  call : Option ForwardedCall := none
  returned : Option (Option ValueId) := none

/-- Takes in the next instruction; a bridge has parameters, one call, one return behind it, and
jumps. -/
def Forwarding.step? (insn : Ssa.Instruction) (s : Forwarding) : Option Forwarding :=
  match insn.op with
  | .argument index =>
    insn.dest.map fun v => { s with parameters := s.parameters ++ [(index, v)] }
  | .goto _ | .nop => some s
  | .invoke kind target args =>
    if s.call.isNone ∧ s.returned.isNone then
      some { s with call := some ⟨kind, target, args, insn.dest⟩ }
    else none
  | .ret value =>
    if s.call.isSome ∧ s.returned.isNone then some { s with returned := some value } else none
  | _ => none

def forwardsAll (parameters : List (Nat × ValueId)) (args : List ValueId) : Bool :=
  (sortBy (fun a b => compare a.1 b.1) parameters).map Prod.snd = args

def returnsResult (call : ForwardedCall) : Option ValueId → Bool
  | some v => call.result = some v
  | none => call.target.proto.ret.isVoid

def forwardingTarget? (f : Function) : Option (InvokeKind × MethodRef) := do
  let s ← f.insnIds.foldlM (fun s i => Forwarding.step? (f.insn i) s) ({} : Forwarding)
  let call ← s.call
  let returned ← s.returned
  if forwardsAll s.parameters call.args && returnsResult call returned && call.target ≠ f.method then
    some (call.kind, call.target)
  else none

structure Bridge where
  method : MethodRef
  kind : InvokeKind
  target : MethodRef

/-- The bridge that a method is. It has to be marked as one and free to change, and its call has to
be possible from any class. -/
def bridge? (c : Context) (method : MethodRef) : Option Bridge := do
  let definition ← c.program.methodDefinition? method
  if !definition.isBridge || c.program.isPinned (.method method) then none
  let (kind, target) ← (c.functions.get? method).bind forwardingTarget?
  if kind = .special then none else some ⟨method, kind, target⟩

def bridgeForwardingName : String := "BridgeForwarding"

def bridgeLayer (parent : Option LensId) (bridges : List Bridge) : Lens.Layer :=
  bridges.foldl (fun layer b => layer.renameMethod b.method b.target (some b.kind))
    { name := bridgeForwardingName, parent }

def forwardBridges (forwarded : List MethodRef) : Work (List MethodRef) := do
  let c ← get
  let bridges := c.methods.filterMap fun method =>
    if method ∈ forwarded then none else bridge? c method
  if bridges.isEmpty then return forwarded
  let (id, lenses) ← ofExcept (c.lenses.push (bridgeLayer c.currentLens bridges))
  modify fun c => { c with lenses }.setLens (some id)
  record
    { kind := .lensLayerCreated, message := s!"{id}: {bridges.length} bridges"
      pass := some bridgeForwardingName }
  bridges.forM fun b => record
    { kind := .bridgeForwarded, method := some b.method, message := s!"{b.kind} {b.target}"
      pass := some bridgeForwardingName }
  return forwarded ++ bridges.map Bridge.method

end Dissolve.Optimize
