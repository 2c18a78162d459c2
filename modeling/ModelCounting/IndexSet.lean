import ModelCounting.Fault

/-!
Sets of small naturals, one bit each, in 64-bit words. Bits beyond the last word are absent, and
inserting one of them at least doubles the storage. Equality and order look at the members only,
never at the capacity.
-/

namespace ModelCounting

structure IndexSet where
  words : Array UInt64
  deriving Inhabited, Repr

namespace IndexSet

def wordBits : Nat := 64

def empty : IndexSet := ⟨#[]⟩

def withCapacity (bits : Nat) : IndexSet :=
  ⟨Array.replicate ((bits + wordBits - 1) / wordBits) 0⟩

def capacity (s : IndexSet) : Nat := s.words.size * wordBits

def hasBit (word : UInt64) (i : Nat) : Bool := (word >>> i.toUInt64) &&& 1 == 1

def contains (s : IndexSet) (i : Nat) : Bool :=
  hasBit (s.words.getD (i / wordBits) 0) (i % wordBits)

def bit (i : Nat) : UInt64 := 1 <<< (i % wordBits).toUInt64

/-- Makes room for a word, at least doubling the storage when it has to grow. -/
def reserve (s : IndexSet) (word : Nat) : IndexSet :=
  if word < s.words.size then s
  else
    let size := max (word + 1) (2 * s.words.size)
    ⟨s.words ++ Array.replicate (size - s.words.size) 0⟩

def insert (s : IndexSet) (i : Nat) : IndexSet :=
  ⟨(s.reserve (i / wordBits)).words.modify (i / wordBits) (· ||| bit i)⟩

def erase (s : IndexSet) (i : Nat) : IndexSet :=
  ⟨s.words.modify (i / wordBits) (· &&& ~~~bit i)⟩

def insertAll (s : IndexSet) (is : List Nat) : IndexSet := is.foldl insert s

def ofList (is : List Nat) : IndexSet := empty.insertAll is

def union (s t : IndexSet) : IndexSet :=
  ⟨Array.ofFn fun i : Fin (max s.words.size t.words.size) =>
    s.words.getD i 0 ||| t.words.getD i 0⟩

def inter (s t : IndexSet) : IndexSet :=
  ⟨s.words.mapIdx fun i word => word &&& t.words.getD i 0⟩

def clear (s : IndexSet) : IndexSet := ⟨s.words.map fun _ => 0⟩

def ones (word : UInt64) : Nat := word.toBitVec.cpop.toNat

/-- The number of zeros below the lowest bit that is set. -/
def trailingZeros (word : UInt64) : Nat := word.toBitVec.ctz.toNat

/-- A place in a walk over the members: the index of a word, the bits of it that are still to come
and the words after it. -/
structure Walk where
  index : Nat
  word : UInt64
  rest : List UInt64

/-- Skips words without a bit up to the next member and clears its bit in the walk that is left. -/
def advance (index : Nat) (word : UInt64) (rest : List UInt64) : Option (Nat × Walk) :=
  if word != 0 then
    some (index * wordBits + trailingZeros word, ⟨index, word &&& (word - 1), rest⟩)
  else
    match rest with
    | [] => none
    | word :: rest => advance (index + 1) word rest

def Walk.next? (w : Walk) : Option (Nat × Walk) := advance w.index w.word w.rest

/-- The members that are still to come, at most as many as the bound. -/
def Walk.members : Nat → Walk → List Nat
  | 0, _ => []
  | bound + 1, w =>
    match w.next? with
    | none => []
    | some (i, w) => i :: w.members bound

def walk (s : IndexSet) : Walk := ⟨0, s.words.toList.headD 0, s.words.toList.tail⟩

/-- The members in ascending order. No walk has more steps than the storage has bits. -/
def toList (s : IndexSet) : List Nat := s.walk.members s.capacity

def size (s : IndexSet) : Nat := s.words.foldl (fun count word => count + ones word) 0

def isEmpty (s : IndexSet) : Bool := s.words.all (· == 0)

/-- The least member at or above a bound. The walk starts at the word of the bound, less the bits
below it. -/
def next? (s : IndexSet) (start : Nat) : Option Nat :=
  match s.words.toList.drop (start / wordBits) with
  | [] => none
  | word :: rest =>
    let above := word &&& (~~~0 <<< (start % wordBits).toUInt64)
    (Walk.next? ⟨start / wordBits, above, rest⟩).map Prod.fst

/-- The words up to the last one that holds a member. -/
def significant (s : IndexSet) : List UInt64 :=
  (s.words.toList.reverse.dropWhile (· == 0)).reverse

def same (s t : IndexSet) : Bool := s.significant == t.significant

/-- The lowest bit in which two words differ. -/
def difference? (x y : UInt64) : Option Nat :=
  (List.range wordBits).find? fun i => hasBit x i != hasBit y i

def compareWords : List UInt64 → List UInt64 → Ordering
  | x :: xs, y :: ys =>
    match difference? x y with
    | none => compareWords xs ys
    | some i => if hasBit x i then .gt else .lt
  | _, _ => .eq

/-- A set with fewer significant words comes first; otherwise the lowest index in which the sets
differ decides, and the set that holds it comes last. -/
def compare (s t : IndexSet) : Ordering :=
  (Ord.compare s.significant.length t.significant.length).then
    (compareWords s.significant t.significant)

end IndexSet

end ModelCounting
