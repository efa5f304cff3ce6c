/-!
# Sorted — stable sorting of short lists

Listings show methods, classes and local variables in a fixed order. `sortBy before` inserts each
element behind every element that is not greater, so equal elements keep their order.
-/

namespace Dissolve

def insertSorted {α : Type} (cmp : α → α → Ordering) (x : α) : List α → List α
  | [] => [x]
  | y :: rest => if cmp x y = .lt then x :: y :: rest else y :: insertSorted cmp x rest

/-- The elements of a list in ascending order; equal elements keep their relative order. -/
def sortBy {α : Type} (cmp : α → α → Ordering) (xs : List α) : List α :=
  xs.foldl (fun sorted x => insertSorted cmp x sorted) []

def dropRepeats {α : Type} [DecidableEq α] : List α → List α
  | [] => []
  | x :: rest =>
    match dropRepeats rest with
    | [] => [x]
    | y :: tail => if x = y then y :: tail else x :: y :: tail

theorem mem_dropRepeats {α : Type} [DecidableEq α] {x : α} {xs : List α} :
    x ∈ dropRepeats xs ↔ x ∈ xs := by
  induction xs with
  | nil => rfl
  | cons y rest ih =>
    rw [dropRepeats, List.mem_cons, ← ih]
    split
    · next hnil => simp [hnil]
    · next z tail hcons =>
        rw [hcons]
        split
        · next heq => simp [heq]
        · simp

theorem perm_insertSorted {α : Type} (cmp : α → α → Ordering) (x : α) (xs : List α) :
    (insertSorted cmp x xs).Perm (x :: xs) := by
  induction xs with
  | nil => exact List.Perm.refl _
  | cons y rest ih =>
    rw [insertSorted]
    split
    · exact List.Perm.refl _
    · exact (ih.cons y).trans (List.Perm.swap x y rest)

theorem perm_sortBy {α : Type} (cmp : α → α → Ordering) (xs : List α) :
    (sortBy cmp xs).Perm xs := by
  have hfold : ∀ acc, (xs.foldl (fun sorted x => insertSorted cmp x sorted) acc).Perm
      (acc ++ xs) := by
    induction xs with
    | nil => simp
    | cons x rest ih =>
      intro acc
      refine (ih (insertSorted cmp x acc)).trans ?_
      refine ((perm_insertSorted cmp x acc).append_right rest).trans ?_
      exact List.perm_middle.symm
  simpa [sortBy] using hfold []

end Dissolve
