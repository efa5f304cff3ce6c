import Dissolve.Ssa.Edit

/-!
# Ssa.PhiCleanup — removing phis that merge nothing

* A phi is *trivial* when it merges a single value beside its own; every use of it can read that
  value instead. Removing one phi may make others trivial that read it, so these are looked at
  again.
* A phi is *dead* when its value reaches no instruction, directly or through other phis.
-/

namespace Dissolve.Ssa

def Function.dependentPhis (f : Function) (v : ValueId) (p : PhiId) : List PhiId :=
  (f.value v).users.filterMap fun
    | .phi q => if q ≠ p then some q else none
    | .insn _ => none

def replaceTrivial (p : PhiId) (v same : ValueId) : Edit Unit := do
  modify fun f => (f.replaceAllUses v same).2
  removePhi p

/-- Works through a list of phis, the last dependent first; `fuel` bounds the number of looks. -/
def eliminateTrivial : Nat → List PhiId → Nat → Edit Nat
  | 0, _, removed => return removed
  | _, [], removed => return removed
  | fuel + 1, p :: work, removed => do
      let f ← get
      match (f.phi p).removed, (f.phi p).trivialOperand? with
      | false, some same =>
        let v := (f.phi p).value
        let dependents := f.dependentPhis v p
        replaceTrivial p v same
        eliminateTrivial fuel (dependents.reverse ++ work) (removed + 1)
      | _, _ => eliminateTrivial fuel work removed

/-- Removes trivial phis until none is left, and counts them. Every removal adds at most one look
per phi, so the fuel is never used up. -/
def eliminateTrivialPhis : Edit Nat := do
  let f ← get
  eliminateTrivial (f.phiIds.length + f.phis.size * f.phis.size + 1) f.phiIds 0

namespace Function

def isReadByInsn (f : Function) (p : PhiId) : Bool :=
  (f.value (f.phi p).value).users.any fun
    | .insn _ => true
    | .phi _ => false

def operandPhis (f : Function) (p : PhiId) : List PhiId :=
  (f.phi p).operands.filterMap fun v =>
    match (f.value v).definition with
    | some (.phi q) => some q
    | _ => none

def gatherLive (f : Function) : Nat → List PhiId → List PhiId → List PhiId
  | 0, _, live => live
  | _, [], live => live
  | fuel + 1, p :: work, live =>
    if p ∈ live then gatherLive f fuel work live
    else gatherLive f fuel (f.operandPhis p ++ work) (p :: live)

/-- The phis whose values reach an instruction. Each phi puts its operands on the list once. -/
def livePhis (f : Function) : List PhiId :=
  let fuel := 1 + f.phiIds.length + (f.phis.toList.map fun p => p.operands.length).foldr (· + ·) 0
  f.gatherLive fuel (f.phiIds.filter f.isReadByInsn) []

def deadPhis (f : Function) : List PhiId :=
  let live := f.livePhis
  f.phiIds.filter fun p => p ∉ live

end Function

def removeDeadPhis : Edit Nat := do
  let dead := (← get).deadPhis
  modify fun f => dead.foldl (fun f p => f.setPhiOperands p []) f
  dead.forM removePhi
  return dead.length

def cleanUpPhis : Edit Nat := do
  let trivial ← eliminateTrivialPhis
  let dead ← removeDeadPhis
  return trivial + dead

end Dissolve.Ssa
