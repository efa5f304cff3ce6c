import Dissolve.Inline.Summary
import Dissolve.Inline.Verdict

/-!
# Inline.Site — allocations and their uses

An *allocation site* is an instruction that creates an instance. `AllocationSite.analyze` walks over
the uses of the instance and either names the first that keeps the instance alive, or lists the calls
on the instance that have to be inlined before only field accesses are left.
-/

namespace Dissolve.Inline

open Ssa (Function Op)

structure AllocationSite where
  insn : InsnId
  value : ValueId
  ty : TypeRef
  offset : Nat
  deriving DecidableEq

def AllocationSite.ofInsn? (f : Function) (i : InsnId) : Option AllocationSite :=
  match (f.insn i).op, (f.insn i).dest with
  | .newInstance ty, some value => some ⟨i, value, ty, (f.insn i).position.offset⟩
  | _, _ => none

def AllocationSite.collect (f : Function) : List AllocationSite :=
  f.insnIds.filterMap (AllocationSite.ofInsn? f)

inductive SiteRejection
  | classRejected (reason : ClassRejection)
  | phiUse
  | foreignField
  | selfCapture
  | argumentEscape
  | directCall
  | unresolvedTarget
  | unsafeTarget (target : MethodRef)
  | receiverReturned
  | tryRange
  | unsupportedUse (mnemonic : String)
  | instructionBudget (allowance : Nat)
  | roundLimit
  | inliningFailed (target : MethodRef)
  deriving DecidableEq

namespace SiteRejection

def text : SiteRejection → String
  | .classRejected reason => reason.text
  | .phiUse => "instance flows into a phi"
  | .foreignField => "field is not an instance field of the allocated class"
  | .selfCapture => "instance is stored into a field"
  | .argumentEscape => "instance is passed as an argument"
  | .directCall => "direct call is not a constructor of the allocated class"
  | .unresolvedTarget => "virtual call has no exact target"
  | .unsafeTarget target => s!"call target {target} is not receiver-safe"
  | .receiverReturned => "returned receiver is used"
  | .tryRange => "use inside a try range"
  | .unsupportedUse mnemonic => s!"unsupported use: {mnemonic}"
  | .instructionBudget allowance => s!"inlining cost exceeds the allowance of {allowance}"
  | .roundLimit => "inlining did not converge"
  | .inliningFailed target => s!"could not inline {target}"

instance : ToString SiteRejection := ⟨text⟩

end SiteRejection

structure Candidate where
  call : InsnId
  target : MethodRef
  cost : Nat
  deriving DecidableEq

inductive SiteAnalysis
  | eligible (candidates : List Candidate)
  | rejected (reason : SiteRejection)
  deriving DecidableEq

def SiteAnalysis.cost : SiteAnalysis → Nat
  | .eligible candidates => (candidates.map Candidate.cost).foldr (· + ·) 0
  | .rejected _ => 0

/-- What one use says: it is harmless, a call to inline, or a reason against. -/
inductive UseVerdict
  | harmless
  | candidate (c : Candidate)
  | rejected (reason : SiteRejection)

def declaresInstanceField (c : ClassDef) (field : FieldRef) : Bool :=
  field.holder = c.ty && (c.lookupField? field).any fun declared => !declared.isStatic

def judgeField (c : ClassDef) (field : FieldRef) : UseVerdict :=
  if declaresInstanceField c field then .harmless else .rejected .foreignField

def judgeWrite (c : ClassDef) (self object value : ValueId) (field : FieldRef)
    (inTry : Bool) : UseVerdict :=
  if value = self then .rejected .selfCapture
  else if object ≠ self || !declaresInstanceField c field then .rejected .foreignField
  else if inTry then .rejected .tryRange
  else .harmless

def judgeConstructor (call : InsnId) (target : MethodRef) :
    Option MethodSummary → UseVerdict
  | some s =>
    if s.isReceiverSafe then .candidate ⟨call, target, s.instructionCount⟩
    else .rejected (.unsafeTarget target)
  | none => .rejected (.unsafeTarget target)

def judgeVirtual (call : InsnId) (target : MethodRef) (resultUsed : Bool) :
    Option MethodSummary → UseVerdict
  | some s =>
    if !s.isReceiverSafe then .rejected (.unsafeTarget target)
    else if s.returnsReceiver && resultUsed then .rejected .receiverReturned
    else .candidate ⟨call, target, s.instructionCount⟩
  | none => .rejected (.unsafeTarget target)

section

variable {m : Type → Type} [Monad m]

def judgeCall (program : Program) (summary : MethodRef → m (Option MethodSummary)) (f : Function)
    (site : AllocationSite) (call : InsnId) (inTry : Bool) (kind : InvokeKind) (method : MethodRef)
    (args : List ValueId) : m UseVerdict :=
  if !isReceiverOnly site.value kind args then return .rejected .argumentEscape
  else if inTry then return .rejected .tryRange
  else if kind = .special then
    if method.isConstructor && method.holder = TypeRef.root then return .harmless
    else if method.isConstructor && method.holder = site.ty then do
      return judgeConstructor call method (← summary method)
    else return .rejected .directCall
  else
    match program.resolveExactVirtual? site.ty method.name method.proto with
    | none => return .rejected .unresolvedTarget
    | some target => do
        let resultUsed := (f.insn call).dest.any fun v => !(f.value v).isUnused
        return judgeVirtual call target.ref resultUsed (← summary target.ref)

def judgeUse (program : Program) (summary : MethodRef → m (Option MethodSummary)) (f : Function)
    (site : AllocationSite) (c : ClassDef) : Site → m UseVerdict
  | .phi _ => return .rejected .phiUse
  | .insn i =>
    let inTry := !(f.block (f.insn i).block).handlers.isEmpty
    match (f.insn i).op with
    | .instanceGet field _ => return judgeField c field
    | .instancePut field object value =>
      return judgeWrite c site.value object value field inTry
    | .invoke kind method args =>
      judgeCall program summary f site i inTry kind method args
    | op => return .rejected (.unsupportedUse op.mnemonic)

def judgeUses (program : Program) (summary : MethodRef → m (Option MethodSummary)) (f : Function)
    (site : AllocationSite) (c : ClassDef) : List Candidate → List Site → m SiteAnalysis
  | candidates, [] => return .eligible candidates
  | candidates, user :: rest => do
      match ← judgeUse program summary f site c user with
      | .rejected reason => return .rejected reason
      | .harmless => judgeUses program summary f site c candidates rest
      | .candidate found => judgeUses program summary f site c (candidates ++ [found]) rest

def AllocationSite.analyze (program : Program) (summary : MethodRef → m (Option MethodSummary))
    (f : Function) (site : AllocationSite) (c : ClassDef) : m SiteAnalysis :=
  judgeUses program summary f site c [] (f.value site.value).users

end

end Dissolve.Inline
