import Dissolve.Ident
import Dissolve.Signature.Reference
import Dissolve.Text.Listing

/-!
# Error — why a step fails

Every failure has a cause, one constructor per rule that can be broken, and one wording:

* `Malformation` — an edit asked for something that the function does not allow,
* `CodeFault` — a rule of stack code that a method body breaks,
* `Violation` — a rule of SSA form that a function breaks,
* `Leftover` — what is still in the way when an allocation should disappear,
* `LensFault` — a name for a lens layer that does not fit the chain.

`Error` says where the cause was found and `Error.message` is its text.
-/

namespace Dissolve

/-- Why an edit of a function, or the reading of a descriptor, is refused. -/
inductive Malformation
  | descriptor (text : String) (fault : DescriptorFault)
  | insertBeforeRemoved (anchor : InsnId)
  | noPredecessor (block : BlockId) (index count : Nat)
  | phiInUse (phi : PhiId) (value : ValueId) (users : Nat)
  | resultInUse (insn : InsnId) (value : ValueId) (users : Nat)
  | splitCovered (block : BlockId)
  | absorbWithPhis (block : BlockId)
  | removeNonEmpty (block : BlockId)
  | entryRemoved (method : MethodRef)
  | usedUndefined (value : ValueId) (method : MethodRef)
  | rangeNotCreated (range : Nat)
  | noStackShape (range : Nat)
  | neverSealed (block : BlockId) (method : MethodRef)
  | notAnInvoke (insn : InsnId)
  | argumentWithoutValue
  | notInBlock (insn : InsnId)
  | missingArgument (callee : MethodRef) (index count : Nat)
  | returnWithoutValue (block : BlockId)
  | resultNotReturned (value : ValueId) (call : InsnId)
  | operandsForOnePredecessor (phi : PhiId) (count : Nat)
  | notItsPredecessor (block successor : BlockId)
  deriving DecidableEq

inductive CodeFault
  | emptyBody
  | labelDefinedTwice (label : Label)
  | undefinedLabel (label : Label)
  | reversedRange (start stop : Label)
  | handlerFirst
  | handlerEnteredNormally
  | parameterSlots (needed available : Nat)
  | localUnassigned (slot : Nat)
  | stackSlotUnassigned (slot : Nat)
  | splitsWideValue
  | noRuntimeValue (ty : TypeRef)
  | localOutOfRange (slot available : Nat)
  | fallsOffEnd
  | keyCount (keys targets : Nat)
  | valuesLeft (count : Nat)
  | missingTarget
  | switchWithoutTargets
  deriving DecidableEq

inductive Violation
  | noEntry
  | entryHasPredecessors (entry : BlockId)
  | emptyBlock (block : BlockId)
  | noTerminator (block : BlockId)
  | misplacedTerminator (block : BlockId) (insn : InsnId)
  | deadTarget (block target : BlockId)
  | foreignInsn (block : BlockId) (insn : InsnId)
  | foreignPhi (block : BlockId) (phi : PhiId)
  | phiArity (phi : PhiId) (block : BlockId) (operands predecessors : Nat)
  | wrongDefinition (value : ValueId) (site : Site)
  | undefinedRead (user : Site) (value : ValueId)
  | missingUser (value : ValueId) (user : Site)
  | definedRepeatedly (value : ValueId) (count : Nat)
  | staleUser (value : ValueId) (user : Site)
  | wrongPredecessors (block : BlockId) (recorded incoming : List BlockId)
  | notDominated (insn : InsnId) (block : BlockId) (value : ValueId)
  | notAvailable (phi : PhiId) (value : ValueId) (predecessor : BlockId)
  /-- A violation found by checking the function of `method` once more, behind the named pass or
  right after lifting. -/
  | recheck (pass : Option String) (method : MethodRef) (cause : Violation)
  deriving DecidableEq

/-- What is in the way when an allocation should be replaced by its field values. -/
inductive Leftover
  | readNotInBlock (read : InsnId)
  | readNotReached (field : FieldRef) (block : BlockId)
  | noValueType (field : FieldRef)
  | flowsIntoPhi
  | unexpectedUse (mnemonic : String)
  | phiNotFilled (phi : PhiId)
  | readOfItself (read : InsnId)
  | usesLeft (value : ValueId) (count : Nat)
  deriving DecidableEq

inductive LensFault
  | parentMissing (parent : LensId) (layer : String)
  | unknownLayer (layer : LensId)
  | notAncestor (source target : Option LensId)
  deriving DecidableEq

inductive Error
  | malformed (cause : Malformation)
  | malformedCode (method : MethodRef) (offset : Nat) (cause : CodeFault)
  | stackUnderflow (method : MethodRef) (offset : Nat)
  | stackOverflow (method : MethodRef) (offset maxStack : Nat)
  | stackMismatch (method : MethodRef) (offset expected found : Nat)
  | inliningPostcondition (method : MethodRef) (offset : Nat) (cause : Leftover)
  | ssaVerification (method : MethodRef) (cause : Violation)
  | invalidLens (cause : LensFault)
  | notFound (what : String)
  deriving DecidableEq

/-! ## Wording -/

def Malformation.message : Malformation → String
  | .descriptor text .noOpening => s!"descriptor {text} does not start with '('"
  | .descriptor text .noClosing => s!"descriptor {text} has no ')'"
  | .descriptor text .badParameter => s!"bad parameter in descriptor {text}"
  | .descriptor text .badReturn => s!"bad return type in descriptor {text}"
  | .insertBeforeRemoved anchor => s!"cannot insert before removed instruction {anchor}"
  | .noPredecessor block index count => s!"{block} has no predecessor #{index} (has {count})"
  | .phiInUse phi value users => s!"cannot remove {phi}: {value} still has {users} users"
  | .resultInUse insn value users => s!"cannot remove {insn}: {value} still has {users} users"
  | .splitCovered block => s!"cannot split {block}: covered by handlers"
  | .absorbWithPhis block => s!"cannot absorb {block}: it has phis"
  | .removeNonEmpty block => s!"cannot remove non-empty block {block}"
  | .entryRemoved method => s!"entry block of {method} was removed"
  | .usedUndefined value method => s!"{value} in {method} is used but never defined"
  | .rangeNotCreated range => s!"raw block {range} was not created"
  | .noStackShape range => s!"no stack shape recorded for raw block {range}"
  | .neverSealed block method => s!"{block} was never sealed while lifting {method}"
  | .notAnInvoke insn => s!"{insn} is not an invoke"
  | .argumentWithoutValue => "argument without a value"
  | .notInBlock insn => s!"{insn} is not in a block"
  | .missingArgument callee index count =>
    s!"{callee} reads argument {index} but the call passes {count}"
  | .returnWithoutValue block => s!"return in {block} carries no value"
  | .resultNotReturned value call =>
    s!"result {value} of {call} is used but the callee returns nothing"
  | .operandsForOnePredecessor phi count => s!"{phi} has {count} operands for one predecessor"
  | .notItsPredecessor block successor =>
    s!"{block} jumps to {successor} but is not its predecessor"

def CodeFault.message : CodeFault → String
  | .emptyBody => "method body is empty"
  | .labelDefinedTwice label => s!"label {label} defined twice"
  | .undefinedLabel label => s!"undefined label {label}"
  | .reversedRange start stop => s!"protected range {start}..{stop} is reversed"
  | .handlerFirst => "the first block is an exception handler"
  | .handlerEnteredNormally => "exception handler entered by normal control flow"
  | .parameterSlots needed available =>
    s!"parameters need {needed} local slots but max_locals is {available}"
  | .localUnassigned slot => s!"local {slot} is read before it is assigned"
  | .stackSlotUnassigned slot => s!"stack slot {slot} has no incoming value"
  | .splitsWideValue => "stack operation splits a category-2 value"
  | .noRuntimeValue ty => s!"type {ty} has no runtime value"
  | .localOutOfRange slot available => s!"local {slot} exceeds max_locals {available}"
  | .fallsOffEnd => "execution falls off the end of the code"
  | .keyCount keys targets => s!"lookupswitch has {keys} keys but {targets} targets"
  | .valuesLeft count => s!"return leaves {count} values on the stack"
  | .missingTarget => "branch target missing from block layout"
  | .switchWithoutTargets => "switch without targets"

def verificationMessage (method : MethodRef) (cause : String) : String :=
  s!"SSA verification failed for {method}: {cause}"

def blockList (blocks : List BlockId) : String :=
  Text.bracketed (blocks.map toString)

def Violation.message : Violation → String
  | .noEntry => "function has no entry block"
  | .entryHasPredecessors entry => s!"entry {entry} has predecessors"
  | .emptyBlock block => s!"{block} is empty"
  | .noTerminator block => s!"{block} does not end in a terminator"
  | .misplacedTerminator block insn => s!"{block}: terminator {insn} is not last"
  | .deadTarget block target => s!"{block} jumps to dead block {target}"
  | .foreignInsn block insn => s!"{block} lists foreign instruction {insn}"
  | .foreignPhi block phi => s!"{block} lists foreign phi {phi}"
  | .phiArity phi block operands predecessors =>
    s!"{phi} in {block} has {operands} operands for {predecessors} predecessors"
  | .wrongDefinition value site => s!"{value} does not record {site} as its definition"
  | .undefinedRead user value => s!"{user.debugText} reads undefined {value}"
  | .missingUser value user => s!"{value} is missing user {user.debugText}"
  | .definedRepeatedly value count => s!"{value} is defined {count} times"
  | .staleUser value user => s!"{value} lists stale user {user.debugText}"
  | .wrongPredecessors block recorded incoming =>
    s!"{block} records predecessors {blockList recorded} but has incoming edges from " ++
      blockList incoming
  | .notDominated insn block value =>
    s!"{insn} in {block} uses {value}, which does not dominate it"
  | .notAvailable phi value predecessor =>
    s!"{phi} operand {value} is not available at the end of {predecessor}"
  | .recheck pass method cause =>
    let checked := verificationMessage method cause.message
    match pass with
    | some name => s!"after {name}: {checked}"
    | none => checked

def Leftover.message : Leftover → String
  | .readNotInBlock read => s!"read {read} is not in a block"
  | .readNotReached field block =>
    s!"{field} is read in {block}, which the allocation does not reach"
  | .noValueType field => s!"field {field} has no value type"
  | .flowsIntoPhi => "the allocation flows into a phi"
  | .unexpectedUse mnemonic => s!"unexpected use {mnemonic}"
  | .phiNotFilled phi => s!"{phi} was never filled"
  | .readOfItself read => s!"read {read} resolves to itself"
  | .usesLeft value count => s!"{value} still has {count} uses after stripping"

def lensName : Option LensId → String
  | some layer => toString layer
  | none => "root"

def LensFault.message : LensFault → String
  | .parentMissing parent layer => s!"parent {parent} of layer '{layer}' does not exist"
  | .unknownLayer layer => s!"{layer} does not exist"
  | .notAncestor source target =>
    s!"{lensName source} is not an ancestor of {lensName target}"

def Error.message : Error → String
  | .malformed cause => cause.message
  | .malformedCode method offset cause =>
    s!"Malformed code in {method} at {offset}: {cause.message}"
  | .stackUnderflow method offset => s!"Stack underflow in {method} at {offset}"
  | .stackOverflow method offset maxStack =>
    s!"Stack overflow in {method} at {offset} (max_stack {maxStack})"
  | .stackMismatch method offset expected found =>
    s!"Stack depth mismatch in {method} at {offset}: expected {expected}, found {found}"
  | .inliningPostcondition method offset cause =>
    s!"Inlining postcondition violated in {method} at {offset}: {cause.message}"
  | .ssaVerification method cause => verificationMessage method cause.message
  | .invalidLens cause => s!"Invalid lens - {cause.message}"
  | .notFound what => s!"Not found - {what}"

end Dissolve
