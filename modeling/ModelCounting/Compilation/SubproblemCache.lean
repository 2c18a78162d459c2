import Std.Data.TreeMap
import ModelCounting.Formula.Node
import ModelCounting.IndexSet

/-!
Compiled subproblems by the set that identifies them, with a tally of the queries.
-/

namespace ModelCounting

structure SubproblemCache where
  entries : Std.TreeMap IndexSet Formula IndexSet.compare := ∅
  hits : Nat := 0
  misses : Nat := 0
  deriving Inhabited

namespace SubproblemCache

def size (c : SubproblemCache) : Nat := c.entries.size

def find? (c : SubproblemCache) (key : IndexSet) : Option Formula := c.entries[key]?

def query (c : SubproblemCache) (key : IndexSet) : Option Formula × SubproblemCache :=
  match c.find? key with
  | some f => (some f, { c with hits := c.hits + 1 })
  | none => (none, { c with misses := c.misses + 1 })

def insert (c : SubproblemCache) (key : IndexSet) (f : Formula) : SubproblemCache :=
  { c with entries := c.entries.insert key f }

def clear (c : SubproblemCache) : SubproblemCache := { c with entries := ∅ }

end SubproblemCache

end ModelCounting
