/-!
# Assoc — finite maps as lists of pairs

A map with few keys is kept as the list of its pairs, at most one pair per key, in the order in
which the keys were first written. `Assoc.insert` overwrites an old pair in place, and `Assoc.chase`
follows a map from keys to keys to the end.
-/

namespace Dissolve

/-- A finite map, one pair per key, in the order of first insertion. -/
structure Assoc (α : Type) (β : Type) where
  pairs : List (α × β) := []
  deriving DecidableEq

namespace Assoc

variable {α β : Type} [DecidableEq α]

def empty : Assoc α β := {}

instance : Inhabited (Assoc α β) := ⟨empty⟩

def find? (k : α) : List (α × β) → Option β
  | [] => none
  | (a, b) :: rest => if a = k then some b else find? k rest

def get? (m : Assoc α β) (k : α) : Option β :=
  find? k m.pairs

def contains (m : Assoc α β) (k : α) : Bool :=
  (m.get? k).isSome

/-- Overwrites the pair of `k`, or appends one. -/
def put (k : α) (v : β) : List (α × β) → List (α × β)
  | [] => [(k, v)]
  | (a, b) :: rest => if a = k then (k, v) :: rest else (a, b) :: put k v rest

def insert (m : Assoc α β) (k : α) (v : β) : Assoc α β :=
  ⟨put k v m.pairs⟩

def erase (m : Assoc α β) (k : α) : Assoc α β :=
  ⟨m.pairs.filter (fun p => !decide (p.1 = k))⟩

def keys (m : Assoc α β) : List α :=
  m.pairs.map Prod.fst

def values (m : Assoc α β) : List β :=
  m.pairs.map Prod.snd

def size (m : Assoc α β) : Nat :=
  m.pairs.length

/-- Goes from a key to its value, which may be a key again, for at most `fuel` steps. -/
def follow (m : Assoc α α) : Nat → α → α
  | 0, a => a
  | fuel + 1, a =>
    match m.get? a with
    | some next => follow m fuel next
    | none => a

/-- The end of the chain of keys that starts at `a`. A chain that does not run in a circle has at
most as many steps as the map has keys. -/
def chase (m : Assoc α α) (a : α) : α :=
  m.follow m.size a

theorem find?_put (k j : α) (v : β) (ps : List (α × β)) :
    find? j (put k v ps) = if k = j then some v else find? j ps := by
  induction ps with
  | nil => rfl
  | cons p rest ih =>
    obtain ⟨a, b⟩ := p
    by_cases hak : a = k
    · subst hak
      simp only [put, if_true, find?]
      split <;> rfl
    · simp only [put, hak, if_false, find?, ih]
      by_cases haj : a = j
      · have hkj : k ≠ j := fun h => hak (haj.trans h.symm)
        simp only [haj, if_true, hkj, if_false]
      · simp only [haj, if_false]

/-- Reading after a write sees the written value at its key and the old values elsewhere. -/
theorem get?_insert (m : Assoc α β) (k j : α) (v : β) :
    (m.insert k v).get? j = if k = j then some v else m.get? j :=
  find?_put k j v m.pairs

theorem get?_insert_self (m : Assoc α β) (k : α) (v : β) : (m.insert k v).get? k = some v := by
  rw [get?_insert, if_pos rfl]

theorem of_get?_insert {m : Assoc α β} {k j : α} {v w : β} (h : (m.insert k v).get? j = some w) :
    (k = j ∧ v = w) ∨ m.get? j = some w := by
  rw [get?_insert] at h
  split at h
  · exact Or.inl ⟨‹_›, Option.some.inj h⟩
  · exact Or.inr h

theorem find?_filter_ne (k j : α) (ps : List (α × β)) :
    find? j (ps.filter (fun p => !decide (p.1 = k))) = if k = j then none else find? j ps := by
  induction ps with
  | nil => simp [find?]
  | cons p rest ih =>
    obtain ⟨a, b⟩ := p
    by_cases hak : a = k
    · subst hak
      rw [List.filter_cons_of_neg (by simp), ih]
      by_cases haj : a = j
      · simp [haj]
      · simp [haj, find?]
    · rw [List.filter_cons_of_pos (by simp [hak])]
      by_cases haj : a = j
      · have hkj : k ≠ j := fun h => hak (haj.trans h.symm)
        simp [haj, hkj, find?]
      · simp [haj, find?, ih]

theorem get?_erase (m : Assoc α β) (k j : α) :
    (m.erase k).get? j = if k = j then none else m.get? j :=
  find?_filter_ne k j m.pairs

end Assoc

end Dissolve
