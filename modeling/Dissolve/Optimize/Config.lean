import Dissolve.Lift.Basic

/-!
# Optimize.Config — how a program is optimized
-/

namespace Dissolve.Optimize

structure ClassInliningConfig where
  enabled : Bool := true
  /-- The instructions that calls inlined for one allocation may have together. -/
  instructionAllowance : Nat := 65
  /-- How often the uses of one allocation are looked at anew after calls were inlined. -/
  maxInliningRounds : Nat := 8
  logRejections : Bool := false
  deriving DecidableEq

structure Config where
  lift : Lift.LiftConfig := {}
  classInlining : ClassInliningConfig := {}
  bridgeForwarding : Bool := true
  blockMerging : Bool := true
  verifyAfterPasses : Bool := false
  maxIterations : Nat := 5
  maxPhaseIterations : Nat := 10
  deriving DecidableEq

namespace Config

def aggressive : Config :=
  { classInlining := { instructionAllowance := 200, maxInliningRounds := 16 }
    maxIterations := 10
    maxPhaseIterations := 20 }

def conservative : Config :=
  { lift := { strictStack := true }
    classInlining := { enabled := false }
    bridgeForwarding := false
    blockMerging := false
    verifyAfterPasses := true
    maxIterations := 1
    maxPhaseIterations := 1 }

end Config

end Dissolve.Optimize
