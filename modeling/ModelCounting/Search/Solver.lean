import ModelCounting.Search.Branching
import ModelCounting.Search.Conflict
import ModelCounting.Search.Settings
import ModelCounting.Sorting

/-!
The state of a clause-learning solver and its steps: adding variables and clauses, going back to a
lower level, learning a clause, and forgetting clauses that were of little use.
-/

namespace ModelCounting

structure Solver where
  settings : Settings := {}
  engine : Engine := {}
  /-- Stored clauses that were added. -/
  added : Array ClauseRef := #[]
  /-- Stored clauses that were learnt. -/
  learnts : Array ClauseRef := #[]
  branching : Branching := {}
  /-- Marks of conflict analysis, all unset between conflicts. -/
  seen : Array Bool := #[]
  clauseIncrement : Float := 1
  maxLearnts : Float := 0
  /-- Unset once the added clauses are known to be contradictory. -/
  ok : Bool := true
  model : Option (Array Bool) := none
  conflicts : Nat := 0
  decisions : Nat := 0
  restarts : Nat := 0
  deriving Inhabited

namespace Solver

def trail (s : Solver) : Trail := s.engine.trail

def varCount (s : Solver) : Nat := s.trail.varCount

def depth (s : Solver) : Nat := s.trail.depth

def value (s : Solver) (l : Lit) : Truth := s.trail.value l

def valueOf (s : Solver) (l : Lit) : Except Fault Truth :=
  if l.var.id < s.varCount then .ok (s.value l) else .error .indexOutOfRange

def valueOfVar (s : Solver) (v : Var) : Except Fault Truth :=
  if v.id < s.varCount then .ok (s.trail.valueVar v) else .error .indexOutOfRange

def text (s : Solver) : String :=
  "Solver \x7b vars: " ++ toString s.varCount ++ ", clauses: " ++ toString s.added.size ++
    ", learnts: " ++ toString s.learnts.size ++ ", ok: " ++ toString s.ok ++ " \x7d"

def newVar (s : Solver) : Except Fault (Var × Solver) := do
  let v : Var := ⟨s.varCount⟩
  let branching ← s.branching.addVar v
  return (v, { s with branching, engine := s.engine.addVar, seen := s.seen.push false })

def addVars : Nat → Solver → Except Fault Solver
  | 0, s => .ok s
  | n + 1, s => do
    let (_, s) ← s.newVar
    addVars n s

/-- Creates the variables of the given literals that do not exist yet, and all before them. -/
def reserve (s : Solver) (ls : List Lit) : Except Fault Solver :=
  ls.foldlM (fun s l => addVars (l.var.id + 1 - s.varCount) s) s

def openLevel (s : Solver) : Solver := { s with engine.trail := s.engine.trail.openLevel }

def assign (s : Solver) (l : Lit) (reason : Option ClauseRef) : Except Fault Solver := do
  let engine ← s.engine.assign l reason
  return { s with engine }

def propagate (s : Solver) : Except Fault (Option ClauseRef × Solver) := do
  let (conflict, engine) ← s.engine.propagate
  return (conflict, { s with engine })

def unwind : Nat → Trail → Branching → Except Fault (Trail × Branching)
  | 0, t, b => .ok (t, b)
  | n + 1, t, b =>
    match t.lits.back? with
    | none => .ok (t, b)
    | some l => do
      let b ← b.release l
      unwind n (t.retract l) b

/-- Goes back to a level: everything assigned above it is unassigned. -/
def backTo (s : Solver) (level : Nat) : Except Fault Solver :=
  if level < s.depth then do
    let start := s.trail.starts.getD level 0
    let (trail, branching) ← unwind (s.trail.lits.size - start) s.engine.trail s.branching
    let trail := { trail with head := start, starts := trail.starts.take level }
    return { s with engine.trail := trail, branching }
  else .ok s

/-- Raises the activity of a clause, scaling all learnt clauses down before it grows too large. -/
def bumpClause (s : Solver) (r : ClauseRef) : Solver :=
  let s := { s with engine.bank := s.engine.bank.mapActivity r (· + s.clauseIncrement) }
  if (s.engine.bank.get r).activity > 1e20 then
    let bank := s.learnts.foldl (fun bank q => bank.mapActivity q (· * 1e-20)) s.engine.bank
    { s with
      engine.bank := bank.mapActivity r (· * 1e-20)
      clauseIncrement := s.clauseIncrement * 1e-20 }
  else s

/-- Analyses a conflict and raises the activity of all that took part in it. -/
def analyze (s : Solver) (conflict : ClauseRef) : Except Fault (Lesson × Solver) := do
  let (lesson, a) ← s.engine.analyze s.settings.minimize s.seen conflict
  let s := a.clauses.foldl bumpClause { s with seen := a.seen }
  let branching ← a.vars.foldlM Branching.bump s.branching
  return (lesson, { s with branching })

/-- Stores a learnt clause and makes its first literal true. -/
def learn (s : Solver) (lits : Array Lit) : Except Fault Solver :=
  let first := lits.getD 0 default
  if lits.size = 1 then s.assign first none
  else do
    let (r, bank) := s.engine.bank.alloc lits true
    let engine ← { s.engine with bank }.attach r
    let s := { s with engine }.bumpClause r
    { s with learnts := s.learnts.push r }.assign first (some r)

def decay (s : Solver) : Solver :=
  { s with
    branching := s.branching.decay s.settings.varDecay
    clauseIncrement := s.clauseIncrement * (1.0 / s.settings.clauseDecay) }

/-- Drops false literals from a sorted clause. There is no answer if the clause is satisfied, or
holds a literal right after its complement. -/
def simplify? (value : Lit → Truth) (last : Option Lit) : List Lit → Option (List Lit)
  | [] => some []
  | l :: ls =>
    if value l = .tru ∨ last = some (-l) then none
    else if value l = .fls then simplify? value last ls
    else (simplify? value (some l) ls).map (l :: ·)

def sortLits (ls : List Lit) : List Lit :=
  (sortBy (fun l m => l.code ≤ m.code) ls).eraseReps

/-- Adds a clause, creating its variables where needed. The answer is unset when the clauses are
now known to be contradictory. -/
def addClause (s : Solver) (ls : List Lit) : Except Fault (Bool × Solver) :=
  if s.depth ≠ 0 then .error .clauseAboveRoot
  else if !s.ok then .ok (false, s)
  else do
    let s ← s.reserve ls
    match simplify? s.value none (sortLits ls) with
    | none => return (true, s)
    | some [] => return (false, { s with ok := false })
    | some [l] =>
      let s ← s.assign l none
      let (conflict, s) ← s.propagate
      return (conflict.isNone, { s with ok := conflict.isNone })
    | some ls =>
      let (r, bank) := s.engine.bank.alloc ls.toArray false
      let engine ← { s.engine with bank }.attach r
      return (true, { s with engine, added := s.added.push r })

/-- The order in which learnt clauses are considered for removal: longer than two literals first,
then by ascending activity. -/
def lessUseful (bank : ClauseBank) (q r : ClauseRef) : Bool :=
  let c := bank.get q
  let d := bank.get r
  if (c.lits.size == 2) == (d.lits.size == 2) then !(d.activity < c.activity)
  else c.lits.size != 2

/-- Removes about half of the learnt clauses. Clauses of two literals and those that are the reason
of an assigned literal stay. -/
def reduce (s : Solver) : Solver :=
  let count := s.learnts.size
  let threshold := s.clauseIncrement / count.toFloat
  let sorted := s.learnts.toList.mergeSort (lessUseful s.engine.bank)
  let (engine, kept) := sorted.zipIdx.foldl (fun (engine, kept) (r, i) =>
    let c := engine.bank.get r
    if c.lits.size > 2 && !engine.locked r && (i < count / 2 || c.activity < threshold) then
      (engine.remove r, kept)
    else (engine, kept.push r)) (s.engine, (#[] : Array ClauseRef))
  { s with engine, learnts := kept }

end Solver

end ModelCounting
