import ModelCounting.Fault

/-!
The bank of stored clauses. A freed slot keeps its reference and is given out again, last freed
first.
-/

namespace ModelCounting

structure ClauseRef where
  slot : Nat
  deriving DecidableEq, Inhabited, Repr

structure Clause where
  lits : Array Lit := #[]
  learnt : Bool := false
  activity : Float := 0
  deriving Inhabited

structure ClauseBank where
  slots : Array Clause := #[]
  freed : List ClauseRef := []
  deriving Inhabited

namespace ClauseBank

def get (b : ClauseBank) (r : ClauseRef) : Clause := b.slots.getD r.slot {}

def lits (b : ClauseBank) (r : ClauseRef) : Array Lit := (b.get r).lits

def alloc (b : ClauseBank) (lits : Array Lit) (learnt : Bool) : ClauseRef × ClauseBank :=
  let clause : Clause := { lits, learnt }
  match b.freed with
  | r :: freed => (r, ⟨b.slots.setIfInBounds r.slot clause, freed⟩)
  | [] => (⟨b.slots.size⟩, { b with slots := b.slots.push clause })

def free (b : ClauseBank) (r : ClauseRef) : ClauseBank where
  slots := b.slots.modify r.slot fun c => { c with lits := #[], activity := 0 }
  freed := r :: b.freed

def setLits (b : ClauseBank) (r : ClauseRef) (lits : Array Lit) : ClauseBank :=
  { b with slots := b.slots.modify r.slot fun c => { c with lits } }

def mapActivity (b : ClauseBank) (r : ClauseRef) (update : Float → Float) : ClauseBank :=
  { b with slots := b.slots.modify r.slot fun c => { c with activity := update c.activity } }

def size (b : ClauseBank) : Nat := b.slots.size - b.freed.length

end ClauseBank

end ModelCounting
