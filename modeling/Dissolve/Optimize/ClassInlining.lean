import Dissolve.Inline.Call
import Dissolve.Inline.FieldValues
import Dissolve.Optimize.Context

/-!
# Optimize.ClassInlining — dissolving allocations

Each allocation of a method is tried on a copy of its function. While calls on the instance are
left, they are inlined and the uses of the instance are looked at anew; when none is left, the
instance is replaced by the values of its fields. The copy takes the place of the function only if
everything succeeded, so an allocation that is left alone leaves no trace.
-/

namespace Dissolve.Optimize

open Inline (AllocationSite Candidate ClassVerdict Reconstruction SiteAnalysis SiteRejection)
open Ssa (Function)

structure DissolvedSite where
  func : Function
  calls : List MethodRef
  reconstruction : Reconstruction

def analyzeSite (f : Function) (site : AllocationSite) (c : ClassDef) : Work SiteAnalysis := do
  site.analyze (← get).program summary f c

def inlineCandidates (f : Function) (calls : List MethodRef) :
    List Candidate → Work (Except SiteRejection (Function × List MethodRef))
  | [] => return .ok (f, calls)
  | candidate :: rest => do
      match ← calleeBody candidate.target with
      | none => return .error (.inliningFailed candidate.target)
      | some body =>
        match ← onCopy f (Inline.inlineCall candidate.call body) with
        | (none, _) => return .error (.inliningFailed candidate.target)
        | (some _, f) => inlineCandidates f (calls ++ [candidate.target]) rest

/-- Dissolves an allocation in at most `rounds` rounds of inlining; `spent` is the cost of what was
inlined before. -/
def dissolveRounds (site : AllocationSite) (c : ClassDef) :
    Nat → Nat → List MethodRef → Function → Work (Except SiteRejection DissolvedSite)
  | rounds, spent, calls, f => do
      match ← analyzeSite f site c with
      | .rejected reason => return .error reason
      | .eligible [] =>
        let (reconstruction, f) ← onCopy f (Inline.reconstruct site .root)
        return .ok ⟨f, calls, reconstruction⟩
      | .eligible candidates =>
        match rounds with
        | 0 => return .error .roundLimit
        | rounds + 1 =>
          let spent := spent + (SiteAnalysis.eligible candidates).cost
          let allowance := (← get).config.classInlining.instructionAllowance
          if allowance < spent then return .error (.instructionBudget allowance)
          match ← inlineCandidates f calls candidates with
          | .error reason => return .error reason
          | .ok (f, calls) => dissolveRounds site c rounds spent calls f

def dissolveSite (f : Function) (site : AllocationSite) :
    Work (Except SiteRejection DissolvedSite) := do
  match ← classVerdict site.ty with
  | .ineligible reason => return .error (.classRejected reason)
  | .eligible =>
    let context ← get
    match context.program.definition? site.ty with
    | none => return .error (.classRejected .undefined)
    | some c => dissolveRounds site c context.config.classInlining.maxInliningRounds 0 [] f

def classInliningName : String := "ClassInlining"

def siteEvent (kind : EventKind) (method : MethodRef) (site : AllocationSite) (message : String) :
    Event :=
  { kind, method := some method, location := some site.offset, message
    pass := some classInliningName }

def dissolvedEvents (method : MethodRef) (site : AllocationSite) (d : DissolvedSite) :
    List Event :=
  let counts := d.reconstruction
  d.calls.map (fun target => siteEvent .methodInlined method site target.text) ++
    (if counts.phis = 0 then []
      else [siteEvent .phiInserted method site s!"{counts.phis} phis for fields of {site.ty}"]) ++
    [siteEvent .instructionRemoved method site s!"new {site.ty}",
      siteEvent .allocationInlined method site
        s!"{site.ty}: {counts.reads} reads, {counts.writes} writes"]

/-- Tries one allocation of a stored function; the answer is whether it was dissolved. An allocation
that disappeared together with an earlier one is passed over. -/
def trySite (method : MethodRef) (site : AllocationSite) : Work Bool := do
  match (← get).functions.get? method with
  | none => return false
  | some f =>
    if (f.insn site.insn).removed then return false
    match ← dissolveSite f site with
    | .ok d =>
      modify fun c => c.store method d.func
      (dissolvedEvents method site d).forM record
      return true
    | .error reason =>
      if (← get).config.classInlining.logRejections then
        record (siteEvent .siteRejected method site s!"{site.ty}: {reason}")
      return false

def dissolveAllocations (method : MethodRef) : Work Bool := do
  match (← get).functions.get? method with
  | none => return false
  | some f =>
    let dissolved ← (AllocationSite.collect f).mapM (trySite method)
    return dissolved.any id

end Dissolve.Optimize
