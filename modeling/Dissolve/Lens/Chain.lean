import Dissolve.Error
import Dissolve.Lens.Layer
import Dissolve.Text.Quoted

/-!
# Lens.Chain — layers of renames and the way between two of them

A chain only grows: a pushed layer names an older layer, or the root, as its parent and never
changes. References remember the layer they were written against; `Chain.view` gives the renames
between that layer and a newer one, and `View` applies them from the oldest to the newest.
-/

namespace Dissolve.Lens

/-- The renames that lead to the layer `target`, oldest first. -/
structure View where
  path : List LensId := []
  layers : List Layer := []
  target : Option LensId := none

namespace View

def identity : View := {}

def isIdentity (view : View) : Bool :=
  view.path.isEmpty

def lookupMethod (view : View) (method context : MethodRef) (kind : InvokeKind) : MethodLookup :=
  view.layers.foldl (fun found layer => layer.mapMethod found.ref context found.kind)
    ⟨method, kind⟩

def lookupField (view : View) (field : FieldRef) : FieldRef :=
  view.layers.foldl (fun found layer => layer.mapField found) field

def lookupType (view : View) (ty : TypeRef) : TypeRef :=
  view.layers.foldl (fun found layer => layer.mapType found) ty

end View

structure Chain where
  layers : List Layer := []

namespace Chain

def empty : Chain := {}

def size (chain : Chain) : Nat :=
  chain.layers.length

def get? (chain : Chain) (id : LensId) : Option Layer :=
  chain.layers[id.index]?

def push (chain : Chain) (layer : Layer) : Except Error (LensId × Chain) :=
  let pushed := (⟨chain.size⟩, ⟨chain.layers ++ [layer]⟩)
  match layer.parent with
  | none => .ok pushed
  | some parent =>
    if parent.index < chain.size then .ok pushed
    else .error (.invalidLens (.parentMissing parent layer.name))

/-- Walks from `current` to its parents until it meets `source`; `fuel` bounds the number of layers
on the way, which are collected in front of `path`. -/
def pathFrom (chain : Chain) (source target : Option LensId) :
    Nat → Option LensId → List LensId → Except Error (List LensId)
  | fuel, current, path =>
    if current = source then .ok path
    else
      match fuel, current with
      | _, none | 0, _ => .error (.invalidLens (.notAncestor source target))
      | fuel + 1, some id =>
        match chain.get? id with
        | none => .error (.invalidLens (.unknownLayer id))
        | some layer => pathFrom chain source target fuel layer.parent (id :: path)

/-- The layers strictly above `source` up to `target`, oldest first; the root stands for no layer.
A parent is older than its layer, so no walk is longer than the chain. -/
def path (chain : Chain) (source target : Option LensId) : Except Error (List LensId) :=
  match source with
  | some id =>
    if id.index < chain.size then chain.pathFrom source target (chain.size + 1) target []
    else .error (.invalidLens (.unknownLayer id))
  | none => chain.pathFrom source target (chain.size + 1) target []

def view (chain : Chain) (source target : Option LensId) : Except Error View := do
  let path ← chain.path source target
  return ⟨path, path.filterMap chain.get?, target⟩

def debugText (chain : Chain) : String :=
  Text.bracketed (chain.layers.mapIdx fun i layer => s!"({i}, {Text.quoted layer.name})")

end Chain

end Dissolve.Lens
