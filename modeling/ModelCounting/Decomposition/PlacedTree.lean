import ModelCounting.Decomposition.Dtree
import ModelCounting.Search.Stepper

/-!
Decomposition trees in terms of a solver's variables, and what is left of their clauses under a
partial assignment. A clause with a true literal is satisfied and drops out; of the others the
unassigned literals remain. Each node lists its clauses flat: the codes of the literals of each
clause, closed by a negative number for its place. Contents and counts are integers here and 32-bit
words with a sign in storage. They are the same numbers while codes and places are below 2^31.
-/

namespace ModelCounting

/-- Splits flat contents into clauses: the place of each, and its codes. A word of storage can hold
both while they are below 2^31. -/
def segmentsFrom (codes : List Int) : List Int → List (Nat × List Int)
  | [] => []
  | x :: xs =>
    if x < 0 then ((-x - 1).toNat, codes.reverse) :: segmentsFrom [] xs
    else segmentsFrom (x :: codes) xs

def segments (contents : List Int) : List (Nat × List Int) := segmentsFrom [] contents

def litOfCode (code : Int) : Lit := ⟨code.toNat⟩

/-- What a node knows of the clauses below it, in solver variables. -/
structure Footprint where
  vars : IndexSet
  clauseIds : List Nat
  contents : List Int
  /-- The contents, split once and for all. -/
  clauses : List (Nat × List Int) := segments contents
  deriving Inhabited

structure PlacedLeaf where
  source : ClauseLeaf
  lits : List Lit
  footprint : Footprint
  deriving Inhabited

structure PlacedInner where
  extent : Extent
  footprint : Footprint
  /-- The variables that both subtrees have, ascending. -/
  separator : List Nat
  /-- The size of the largest separator at or below this node. -/
  widest : Nat
  deriving Inhabited

abbrev PlacedTree := Dtree PlacedLeaf PlacedInner

namespace PlacedLeaf

/-- A leaf in the variables of a solver. A code or a place of 2^31 and above would change its sign in
storage. -/
def place (p : Stepper) (l : ClauseLeaf) : Except Fault PlacedLeaf := do
  let lits ← l.lits.mapM fun m =>
    match p.literal? m with
    | some m => .ok m
    | none => .error (.unplacedVariable m.var l.id)
  let contents := lits.map (fun m => (m.code : Int)) ++ [-(l.id : Int) - 1]
  return ⟨l, lits, { vars := .ofList (lits.map (·.var.id)), clauseIds := [l.id], contents }⟩

end PlacedLeaf

namespace Dtree

def placedExtent : PlacedTree → Extent
  | .leaf l => l.source.extent
  | .node d _ _ => d.extent

def size (t : PlacedTree) : Nat := t.placedExtent.size

def depth (t : PlacedTree) : Nat := t.placedExtent.depth

def footprint : PlacedTree → Footprint
  | .leaf l => l.footprint
  | .node d _ _ => d.footprint

def vars (t : PlacedTree) : IndexSet := t.footprint.vars

def contents (t : PlacedTree) : List Int := t.footprint.contents

def widest : PlacedTree → Nat
  | .leaf _ => 0
  | .node d _ _ => d.widest

/-- Puts a tree into the variables of a solver. -/
def place (p : Stepper) : ClauseTree → Except Fault PlacedTree
  | .leaf l => do return .leaf (← PlacedLeaf.place p l)
  | .node extent left right => do
    let left ← place p left
    let right ← place p right
    let footprint : Footprint := {
      vars := left.vars.union right.vars
      clauseIds := left.footprint.clauseIds ++ right.footprint.clauseIds
      contents := left.contents ++ right.contents }
    let separator := (left.vars.inter right.vars).toList
    let widest := max (max separator.length left.widest) right.widest
    return .node { extent, footprint, separator, widest } left right

def satisfied (value : Lit → Truth) (codes : List Int) : Bool :=
  codes.any fun c => value (litOfCode c) = .tru

def residual (value : Lit → Truth) (t : PlacedTree) : List (Nat × List Int) :=
  t.footprint.clauses.filter fun c => !satisfied value c.2

def addUnassigned (value : Lit → Truth) (codes : List Int) (out : IndexSet) : IndexSet :=
  codes.foldl (fun out c =>
    if value (litOfCode c) = .undef then out.insert (litOfCode c).var.id else out) out

def dynamicVars (value : Lit → Truth) (t : PlacedTree) (out : IndexSet) : IndexSet :=
  (t.residual value).foldl (fun out c => addUnassigned value c.2 out) out

/-- The unassigned variables that the clauses left in both subtrees share; none at a leaf. The two
sets handed in only lend their storage. -/
def dynamicSeparator (value : Lit → Truth) (t : PlacedTree) (out scratch : IndexSet) :
    IndexSet × IndexSet :=
  match t with
  | .leaf _ => (out.clear, scratch)
  | .node _ left right =>
    let scratch := right.dynamicVars value scratch.clear
    ((left.dynamicVars value out.clear).inter scratch, scratch)

/-- Counts one more occurrence of the variable of a coded literal, unless it is not eligible. There are
fewer than 2^31 of these where places are words, if no clause repeats a variable. -/
def countOccurrence (occurrences : Array Int) (code : Int) : Except Fault (Array Int) :=
  let v := (litOfCode code).var.id
  match occurrences[v]? with
  | none => .error .indexOutOfRange
  | some n => .ok (if n = -1 then occurrences else occurrences.setIfInBounds v (n + 1))

/-- Adds, for each variable, the number of its occurrences in the clauses that are left. Variables
with the count -1 are not eligible and keep it. -/
def countOccurrences (value : Lit → Truth) (t : PlacedTree) (occurrences : Array Int) :
    Except Fault (Array Int) :=
  (t.residual value).foldlM (fun occurrences c => c.2.foldlM countOccurrence occurrences)
    occurrences

/-- Adds what identifies the remaining problem: the unassigned variables of the clauses left, and
the places of those clauses beyond the variables. -/
def cacheKey (value : Lit → Truth) (varCount : Nat) (t : PlacedTree) (key : IndexSet) : IndexSet :=
  (t.residual value).foldl (fun key c =>
    addUnassigned value c.2 (key.insert (varCount + c.1 + 1))) key

end Dtree

end ModelCounting
