import Dissolve.Signature.TypeRef

/-!
# Signature.Proto — parameter and result types of a method

A prototype is written as the parameter descriptors between parentheses, followed by the descriptor
of the result. `Proto.ofDescriptor` reads this form and `Proto.text` writes it.

A *field descriptor* is any number of `[` followed by one of the primitive letters, or by `L`, a
name without `;`, and `;`.
-/

namespace Dissolve

structure Proto where
  ret : TypeRef
  params : List TypeRef
  deriving DecidableEq, Ord, Inhabited

inductive DescriptorFault
  | noOpening
  | noClosing
  | badParameter
  | badReturn
  deriving DecidableEq

namespace Proto

def text (p : Proto) : String :=
  "(" ++ String.join (p.params.map TypeRef.descriptor) ++ ")" ++ p.ret.descriptor

instance : ToString Proto := ⟨text⟩

def debugText (p : Proto) : String :=
  s!"Proto({p})"

/-- The local variables that the parameters take, a receiver not counted. -/
def parameterSlots (p : Proto) : Nat :=
  (p.params.map fun ty => if ty.isWide then 2 else 1).foldr (· + ·) 0

def splitThrough (stop : Char) : List Char → Option (List Char × List Char)
  | [] => none
  | c :: rest =>
    if c = stop then some ([c], rest)
    else (splitThrough stop rest).map fun (front, back) => (c :: front, back)

def takeField : List Char → Option (List Char × List Char)
  | [] => none
  | c :: rest =>
    if c = '[' then (takeField rest).map fun (front, back) => (c :: front, back)
    else if c ∈ ['Z', 'B', 'C', 'S', 'I', 'J', 'F', 'D'] then some ([c], rest)
    else if c = 'L' then (splitThrough ';' rest).map fun (front, back) => (c :: front, back)
    else none

/-- Splits a text into field descriptors; `fuel` bounds their number. -/
def takeFields : Nat → List Char → Option (List TypeRef)
  | _, [] => some []
  | 0, _ :: _ => none
  | fuel + 1, cs =>
    match takeField cs with
    | none => none
    | some (front, back) => (takeFields fuel back).map (⟨String.ofList front⟩ :: ·)

def isField (cs : List Char) : Bool :=
  match takeField cs with
  | some (_, []) => true
  | _ => false

def ofDescriptor (descriptor : String) : Except DescriptorFault Proto :=
  match descriptor.toList with
  | '(' :: rest =>
    match splitThrough ')' rest with
    | none => .error .noClosing
    | some (front, back) =>
      match takeFields front.length front.dropLast with
      | none => .error .badParameter
      | some params =>
        if back = ['V'] || isField back then .ok ⟨⟨String.ofList back⟩, params⟩
        else .error .badReturn
  | _ => .error .noOpening

end Proto

end Dissolve
