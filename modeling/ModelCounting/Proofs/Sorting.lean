import Mathlib.Data.List.Sort
import ModelCounting.Sorting

/-!
Sorting by insertion: a stable sort.
-/

namespace ModelCounting

variable {α : Type} {le : α → α → Bool} {xs : List α}

theorem insertBy_eq_orderedInsert (x : α) (xs : List α) :
    insertBy le x xs = xs.orderedInsert (le · · = true) x := by
  induction xs with
  | nil => rfl
  | cons y ys ih => rw [insertBy, List.orderedInsert_cons, ih]

theorem sortBy_eq_insertionSort (xs : List α) : sortBy le xs = xs.insertionSort (le · · = true) := by
  induction xs with
  | nil => rfl
  | cons x xs ih => rw [List.insertionSort_cons, ← ih, ← insertBy_eq_orderedInsert, sortBy, sortBy, List.foldr_cons]

theorem sortBy_perm (le : α → α → Bool) (xs : List α) : (sortBy le xs).Perm xs := by
  rw [sortBy_eq_insertionSort]
  exact List.perm_insertionSort _ xs

theorem pairwise_sortBy (total : ∀ x y, le x y = true ∨ le y x = true)
    (trans : ∀ x y z, le x y = true → le y z = true → le x z = true) (xs : List α) :
    (sortBy le xs).Pairwise (le · · = true) := by
  have : Std.Total fun x y => le x y = true := ⟨total⟩
  have : IsTrans α (le · · = true) := ⟨trans⟩
  rw [sortBy_eq_insertionSort]
  exact List.pairwise_insertionSort _ xs

/-- The sort is stable. -/
theorem pair_sublist_sortBy {x y : α} (ordered : le x y = true) (inside : [x, y].Sublist xs) :
    [x, y].Sublist (sortBy le xs) := by
  rw [sortBy_eq_insertionSort]
  exact List.pair_sublist_insertionSort ordered inside

end ModelCounting
