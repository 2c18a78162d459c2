import ModelCounting.Search.Propagation

/-!
Conflict analysis. Starting from the clause in conflict, literals of the current level are resolved
with their reasons, last assigned first, until a single one is left. Its complement, with the
literals of lower levels met on the way, is the learnt clause.
-/

namespace ModelCounting

/-- A learnt clause, and the level to which the search goes back before asserting its first
literal. -/
structure Lesson where
  lits : Array Lit
  level : Nat
  deriving Inhabited

structure Analysis where
  seen : Array Bool
  /-- Marked literals of the current level that are not yet resolved. -/
  pending : Int := 0
  /-- Marked literals of lower levels, in the order met. -/
  lower : Array Lit := #[]
  /-- Variables met, in order. -/
  vars : Array Var := #[]
  /-- Learnt clauses met, in order. -/
  clauses : Array ClauseRef := #[]

namespace Analysis

def isSeen (a : Analysis) (v : Var) : Bool := a.seen.getD v.id false

def mark (t : Trail) (a : Analysis) (l : Lit) : Analysis :=
  if a.isSeen l.var || t.level l.var == 0 then a
  else
    let a := { a with seen := a.seen.setIfInBounds l.var.id true, vars := a.vars.push l.var }
    if t.depth ≤ t.level l.var then { a with pending := a.pending + 1 }
    else { a with lower := a.lower.push l }

/-- Marks the literals of a clause; those of a reason without the first, which it implied. -/
def markClause (e : Engine) (a : Analysis) (r : ClauseRef) (skip : Nat) : Analysis :=
  let clause := e.bank.get r
  let a := if clause.learnt then { a with clauses := a.clauses.push r } else a
  (clause.lits.toList.drop skip).foldl (mark e.trail) a

/-- Walks the first `n` literals of the trail backwards, resolving the marked ones, until one
marked literal is left. -/
def resolve (e : Engine) : Nat → Analysis → Except Fault (Lit × Analysis)
  | 0, _ => .error .overflow
  | n + 1, a =>
    let l := e.trail.lits.getD n default
    if a.isSeen l.var then
      let a := { a with seen := a.seen.setIfInBounds l.var.id false, pending := a.pending - 1 }
      if a.pending = 0 then .ok (l, a)
      else match e.trail.reason l.var with
        | some r => resolve e n (a.markClause e r 1)
        | none => .error (.missingReason l)
    else resolve e n a

/-- Whether a literal has to stay in the learnt clause: it was decided, or its reason has a literal
that is neither marked nor fixed at the root. -/
def needed (e : Engine) (a : Analysis) (l : Lit) : Bool :=
  match e.trail.reason l.var with
  | none => true
  | some r => ((e.bank.lits r).toList.drop 1).any fun q =>
    !a.isSeen q.var && e.trail.level q.var > 0

/-- The position of the first literal of the highest level, from position 1 on. -/
def highest (t : Trail) (lits : Array Lit) : Nat :=
  (List.range' 2 (lits.size - 2)).foldl (fun best i =>
    if t.level (lits.getD best default).var < t.level (lits.getD i default).var then i else best) 1

/-- Brings a literal of the level to go back to into second place. -/
def lesson (t : Trail) (lits : Array Lit) : Lesson :=
  if lits.size = 1 then ⟨lits, 0⟩
  else
    let lits := lits.swapIfInBounds 1 (highest t lits)
    ⟨lits, t.level (lits.getD 1 default).var⟩

def clearMarks (a : Analysis) (lits : Array Lit) : Analysis :=
  { a with seen := lits.foldl (fun seen l => seen.setIfInBounds l.var.id false) a.seen }

end Analysis

namespace Engine

/-- What a conflict teaches. The marks handed in are all unset, and so are those in the answer,
which also lists the variables and learnt clauses that took part. -/
def analyze (e : Engine) (minimize : Bool) (seen : Array Bool) (conflict : ClauseRef) :
    Except Fault (Lesson × Analysis) := do
  let start : Analysis := { seen }
  let (l, a) ← (start.markClause e conflict 0).resolve e e.trail.lits.size
  let kept := if minimize then a.lower.filter (a.needed e) else a.lower
  let learnt := #[-l] ++ kept
  return (Analysis.lesson e.trail learnt, a.clearMarks (#[-l] ++ a.lower))

end Engine

end ModelCounting
