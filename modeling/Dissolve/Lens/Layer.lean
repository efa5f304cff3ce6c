import Dissolve.Assoc
import Dissolve.Ident
import Dissolve.Signature.Reference

/-!
# Lens.Layer — the renames introduced by one pass

A layer maps old names of methods, fields and types to new ones. Renames of types work
structurally: a method or field that has no rename of its own changes with the types in it, and an
array type with its element type.
-/

namespace Dissolve.Lens

/-- The new name of a method; an absent kind keeps the kind of the call. -/
structure MethodMapping where
  target : MethodRef
  kind : Option InvokeKind
  deriving DecidableEq

structure MethodLookup where
  ref : MethodRef
  kind : InvokeKind
  deriving DecidableEq

structure Layer where
  name : String
  parent : Option LensId := none
  methods : Assoc MethodRef MethodMapping := {}
  fields : Assoc FieldRef FieldRef := {}
  types : Assoc TypeRef TypeRef := {}
  deriving DecidableEq

namespace Layer

def renameMethod (layer : Layer) (source target : MethodRef) (kind : Option InvokeKind) : Layer :=
  { layer with methods := layer.methods.insert source ⟨target, kind⟩ }

def renameField (layer : Layer) (source target : FieldRef) : Layer :=
  { layer with fields := layer.fields.insert source target }

def renameType (layer : Layer) (source target : TypeRef) : Layer :=
  { layer with types := layer.types.insert source target }

def size (layer : Layer) : Nat :=
  layer.methods.size + layer.fields.size + layer.types.size

def isEmpty (layer : Layer) : Bool :=
  layer.size = 0

def methodMapping? (layer : Layer) (method : MethodRef) : Option MethodMapping :=
  layer.methods.get? method

/-- The new descriptor of a type: that of its own rename, or else, for an array, that of the array
of its renamed elements. -/
def mapDescriptor (layer : Layer) : List Char → List Char
  | [] => ((layer.types.get? ⟨""⟩).map (·.descriptor.toList)).getD []
  | c :: rest =>
    match layer.types.get? ⟨String.ofList (c :: rest)⟩ with
    | some target => target.descriptor.toList
    | none => if c = '[' then c :: mapDescriptor layer rest else c :: rest

def mapType (layer : Layer) (ty : TypeRef) : TypeRef :=
  ⟨String.ofList (layer.mapDescriptor ty.descriptor.toList)⟩

def mapField (layer : Layer) (field : FieldRef) : FieldRef :=
  match layer.fields.get? field with
  | some target => target
  | none => ⟨layer.mapType field.holder, field.name, layer.mapType field.ty⟩

def mapMethodTypes (layer : Layer) (method : MethodRef) : MethodRef :=
  ⟨layer.mapType method.holder, method.name,
    ⟨layer.mapType method.proto.ret, method.proto.params.map layer.mapType⟩⟩

/-- What a call of `method` made from inside `context` becomes. A method and its new name keep
calling what they called, so that a forwarding method does not end up calling itself. -/
def mapMethod (layer : Layer) (method context : MethodRef) (kind : InvokeKind) : MethodLookup :=
  match layer.methods.get? method with
  | some mapping =>
    if context ≠ method ∧ context ≠ mapping.target then
      ⟨mapping.target, mapping.kind.getD kind⟩
    else ⟨layer.mapMethodTypes method, kind⟩
  | none => ⟨layer.mapMethodTypes method, kind⟩

end Layer

end Dissolve.Lens
