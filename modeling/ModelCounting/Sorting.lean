/-!
Sorting by insertion. Values that the order does not tell apart stay in the order they are in.
-/

namespace ModelCounting

variable {α : Type}

/-- Puts a value before the first one of a list that may follow it. -/
def insertBy (le : α → α → Bool) (x : α) : List α → List α
  | [] => [x]
  | y :: ys => if le x y then x :: y :: ys else y :: insertBy le x ys

def sortBy (le : α → α → Bool) (xs : List α) : List α := xs.foldr (insertBy le) []

end ModelCounting
