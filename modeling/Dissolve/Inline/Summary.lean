import Dissolve.Program.Class
import Dissolve.Ssa.Function

/-!
# Inline.Summary — what a method does with its receiver

A call on an instance can be dissolved only if the called method does not let the instance out of
its hands. `MethodSummary.analyze` looks at every use of the receiver; for calls of other methods of
the same class it asks what they do with theirs, and an unknown answer counts as leaking.
-/

namespace Dissolve.Inline

open Ssa (Function Op)

structure ReceiverUse where
  leaks : Bool
  returns : Bool
  deriving DecidableEq

structure MethodSummary where
  method : MethodRef
  /-- Whether the receiver may be stored, passed on, merged or thrown; true of static methods. -/
  leaksReceiver : Bool
  returnsReceiver : Bool
  instructionCount : Nat
  inlinable : Bool
  deriving DecidableEq

def receiverOf? (f : Function) : Option ValueId :=
  if f.isStatic then none
  else
    ((f.block f.entry).insns.find? fun i => (f.insn i).op = .argument 0).bind fun i =>
      (f.insn i).dest

/-- Whether the only use of a value among the arguments of a call is as its receiver. -/
def isReceiverOnly (v : ValueId) (kind : InvokeKind) (args : List ValueId) : Bool :=
  kind.hasReceiver && args.head? = some v && v ∉ args.drop 1

/-- Whether a call of another method of the same class keeps the receiver: the method does not leak
it, and a returned receiver is not used. -/
def keepsReceiver (f : Function) (dest : Option ValueId) : Option ReceiverUse → Bool
  | none => false
  | some use =>
    !use.leaks &&
      (!use.returns ||
        match dest with
        | some v => (f.value v).isUnused
        | none => true)

section

variable {m : Type → Type} [Monad m]

def keepsInside (ask : MethodRef → m (Option ReceiverUse)) (method : MethodRef) (root : TypeRef)
    (f : Function) (receiver : ValueId) (i : InsnId) : m Bool :=
  match (f.insn i).op with
  | .instanceGet .. | .ret _ => return true
  | .instancePut _ _ value => return value ≠ receiver
  | .invoke kind target args =>
    if !isReceiverOnly receiver kind args then return false
    else if target.isConstructor && target.holder = root then return true
    else if target.holder = method.holder && target ≠ method then do
      return keepsReceiver f (f.insn i).dest (← ask target)
    else return false
  | _ => return false

def isReturn : Op → Bool
  | .ret _ => true
  | _ => false

def receiverUse (ask : MethodRef → m (Option ReceiverUse)) (method : MethodRef) (root : TypeRef)
    (f : Function) (receiver : ValueId) : Bool → List Site → m ReceiverUse
  | returns, [] => return ⟨false, returns⟩
  | returns, .phi _ :: _ => return ⟨true, returns⟩
  | returns, .insn i :: rest => do
      let returns := returns || isReturn (f.insn i).op
      if ← keepsInside ask method root f receiver i then
        receiverUse ask method root f receiver returns rest
      else return ⟨true, returns⟩

end

namespace MethodSummary

def unknown (method : MethodRef) : MethodSummary :=
  { method, leaksReceiver := true, returnsReceiver := false, instructionCount := 0
    inlinable := false }

def receiver (s : MethodSummary) : ReceiverUse :=
  ⟨s.leaksReceiver, s.returnsReceiver⟩

def isReceiverSafe (s : MethodSummary) : Bool :=
  s.inlinable && !s.leaksReceiver

def operations (f : Function) : List Op :=
  f.insnIds.map fun i => (f.insn i).op

def isParameter : Op → Bool
  | .argument _ => true
  | _ => false

def isMonitor : Op → Bool
  | .monitor .. => true
  | _ => false

def callsMethod (method : MethodRef) : Op → Bool
  | .invoke _ target _ => target = method
  | _ => false

/-- Whether the body of a method may stand in the place of a call: it has code without handlers and
monitors, does not call itself, and is an ordinary method. -/
def isInlinable (method : MethodDef) (f : Function) : Bool :=
  (method.code.any fun body => body.handlers.isEmpty) &&
    !(operations f).any isMonitor &&
    !(operations f).any (callsMethod method.ref) &&
    !method.isNative && !method.isAbstract && !method.isSynchronized

/-- Summarizes a method from its function. A call of the constructor of `root` on the receiver does
no harm; `ask` says what another method of the same class does with its receiver. -/
def analyze {m : Type → Type} [Monad m] (ask : MethodRef → m (Option ReceiverUse))
    (method : MethodDef) (f : Function) (root : TypeRef) : m MethodSummary := do
  let use ←
    match receiverOf? f with
    | some receiver =>
      receiverUse ask method.ref root f receiver false (f.value receiver).users
    | none => pure ⟨true, false⟩
  return {
    method := method.ref
    leaksReceiver := use.leaks
    returnsReceiver := use.returns
    instructionCount := ((operations f).filter fun op => !isParameter op).length
    inlinable := isInlinable method f }

end MethodSummary

end Dissolve.Inline
