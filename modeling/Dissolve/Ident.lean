/-!
# Ident — identifiers

Blocks, values, instructions and phis of a function live in tables and are named by their place in
them; so are the layers of a lens chain. Places are handed out once: removing an entry leaves its
place empty. Labels name positions in stack code.
-/

namespace Dissolve

structure BlockId where
  index : Nat
  deriving DecidableEq, Ord, Inhabited

instance : ToString BlockId := ⟨fun b => s!"B{b.index}"⟩

structure ValueId where
  index : Nat
  deriving DecidableEq, Ord, Inhabited

instance : ToString ValueId := ⟨fun v => s!"v{v.index}"⟩

structure InsnId where
  index : Nat
  deriving DecidableEq, Ord, Inhabited

instance : ToString InsnId := ⟨fun i => s!"i{i.index}"⟩

structure PhiId where
  index : Nat
  deriving DecidableEq, Ord, Inhabited

instance : ToString PhiId := ⟨fun p => s!"phi{p.index}"⟩

inductive Site
  | insn (i : InsnId)
  | phi (p : PhiId)
  deriving DecidableEq

namespace Site

def text : Site → String
  | .insn i => toString i
  | .phi p => toString p

instance : ToString Site := ⟨text⟩

def debugText : Site → String
  | .insn i => s!"Instruction({i})"
  | .phi p => s!"Phi({p})"

end Site

structure LensId where
  index : Nat
  deriving DecidableEq, Ord, Inhabited

instance : ToString LensId := ⟨fun l => s!"lens#{l.index}"⟩

structure Label where
  number : Nat
  deriving DecidableEq, Ord, Inhabited

instance : ToString Label := ⟨fun l => s!"L{l.number}"⟩

def Label.debugText (l : Label) : String :=
  s!"Label({l.number})"

end Dissolve
