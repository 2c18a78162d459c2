import ModelCounting.Fault

/-!
A priority queue of variables: a binary heap beside the table of each variable's place in it. The
ranks live outside in an array; an operation that has to compare fails if a rank is missing.
-/

namespace ModelCounting

structure VarQueue where
  heap : Array Var := #[]
  places : Array (Option Nat) := #[]
  deriving Inhabited, Repr

namespace VarQueue

def size (q : VarQueue) : Nat := q.heap.size

def isEmpty (q : VarQueue) : Bool := q.heap.isEmpty

def place? (q : VarQueue) (v : Var) : Option Nat := (q.places[v.id]?).join

def contains (q : VarQueue) (v : Var) : Bool := (q.place? v).isSome

def slot (q : VarQueue) (i : Nat) : Var := q.heap.getD i default

def setPlace (q : VarQueue) (v : Var) (i : Option Nat) : VarQueue :=
  { q with places := q.places.setIfInBounds v.id i }

def swap (q : VarQueue) (i j : Nat) : VarQueue :=
  let q := { q with heap := q.heap.swapIfInBounds i j }
  let q := q.setPlace (q.slot i) (some i)
  q.setPlace (q.slot j) (some j)

@[simp] theorem size_swap (q : VarQueue) (i j : Nat) : (q.swap i j).size = q.size := by
  simp [swap, size, setPlace]

section Ranked

variable {α : Type} [LE α] [LT α] [DecidableLE α] [DecidableLT α]

def rank (ranks : Array α) (v : Var) : Except Fault α :=
  match ranks[v.id]? with
  | some r => .ok r
  | none => .error .indexOutOfRange

/-- Moves a slot up while it ranks above its parent. -/
def siftUp (ranks : Array α) (q : VarQueue) (i : Nat) : Except Fault VarQueue :=
  if i = 0 then .ok q
  else
    let parent := (i - 1) / 2
    match rank ranks (q.slot i), rank ranks (q.slot parent) with
    | .ok r, .ok p =>
      if r ≤ p then .ok q else siftUp ranks (q.swap i parent) parent
    | .error e, _ => .error e
    | _, .error e => .error e
termination_by i

/-- The slot `j` if it is there and ranks above slot `i`, and `i` otherwise. -/
def higher (ranks : Array α) (q : VarQueue) (i j : Nat) : Except Fault Nat :=
  if j < q.size then
    match rank ranks (q.slot j), rank ranks (q.slot i) with
    | .ok r, .ok p => .ok (if p < r then j else i)
    | .error e, _ => .error e
    | _, .error e => .error e
  else .ok i

/-- Moves a slot down while a child ranks above it, towards the highest child. -/
def siftDown (ranks : Array α) (q : VarQueue) (i : Nat) : Except Fault VarQueue :=
  match (do q.higher ranks (← q.higher ranks i (2 * i + 1)) (2 * i + 2) : Except Fault Nat) with
  | .error e => .error e
  | .ok top =>
    if _ : i < top ∧ top < q.size then siftDown ranks (q.swap i top) top else .ok q
termination_by q.size - i
decreasing_by rw [size_swap]; omega

def insert (ranks : Array α) (q : VarQueue) (v : Var) : Except Fault VarQueue :=
  let q := { q with places := q.places ++ Array.replicate (v.id + 1 - q.places.size) none }
  if q.contains v then .ok q
  else
    let i := q.size
    let q := { q with heap := q.heap.push v }
    (q.setPlace v (some i)).siftUp ranks i

/-- Restores the heap after the rank of a variable rose. -/
def bump (ranks : Array α) (q : VarQueue) (v : Var) : Except Fault VarQueue :=
  match q.place? v with
  | some i => q.siftUp ranks i
  | none => .ok q

/-- Takes out the variable at the top; the last slot takes its place and sinks. -/
def pop (ranks : Array α) (q : VarQueue) : Except Fault (Option Var × VarQueue) :=
  if q.isEmpty then .ok (none, q)
  else
    let top := q.slot 0
    let q := { q with heap := (q.heap.swapIfInBounds 0 (q.size - 1)).pop }
    let q := q.setPlace top none
    if q.isEmpty then .ok (some top, q)
    else
      let q := q.setPlace (q.slot 0) (some 0)
      match q.siftDown ranks 0 with
      | .ok q => .ok (some top, q)
      | .error e => .error e

def drain (ranks : Array α) : Nat → VarQueue → Except Fault (List Var × VarQueue)
  | 0, q => .ok ([], q)
  | n + 1, q => do
    match ← q.pop ranks with
    | (none, q) => return ([], q)
    | (some v, q) =>
      let (vs, q) ← drain ranks n q
      return (v :: vs, q)

end Ranked

end VarQueue

end ModelCounting
