import Dissolve.Code.Instruction

/-!
# Code.Body — method bodies in stack form
-/

namespace Dissolve.Code

/-- One entry of the exception table: an exception thrown between two labels continues at the
handler if the guard matches it; an absent guard matches everything. -/
structure HandlerEntry where
  start : Label
  stop : Label
  handler : Label
  guard : Option TypeRef
  deriving DecidableEq

structure LocalVariable where
  slot : Nat
  name : String
  ty : TypeRef
  start : Label
  stop : Label
  deriving DecidableEq

structure Body where
  maxStack : Nat
  maxLocals : Nat
  instructions : List Instruction := []
  handlers : List HandlerEntry := []
  localVariables : List LocalVariable := []
  lens : Option LensId := none
  deriving DecidableEq

def Body.instructionCount (body : Body) : Nat :=
  (body.instructions.filter fun insn => !(insn.isLabel || insn = .nop)).length

end Dissolve.Code
