import ModelCounting.Search.Luby
import ModelCounting.Search.Solver

/-!
The search for a model. Decisions and propagation alternate; a conflict is analysed, its lesson is
learnt one level lower down, and after a number of conflicts the search starts over with what it
has learnt.
-/

namespace ModelCounting

namespace Solver

/-- What to do once nothing is left to propagate. -/
inductive Choice where
  /-- An assumption is false. -/
  | refuted
  | decide (l : Lit)
  /-- All assumptions hold. -/
  | free

/-- Opens a level for each assumption that already holds, up to the first that does not. -/
def assume : List Lit → Solver → Choice × Solver
  | [], s => (.free, s)
  | l :: ls, s =>
    match s.value l with
    | .tru => assume ls s.openLevel
    | .fls => (.refuted, s)
    | .undef => (.decide l, s)

def branch (s : Solver) (l : Lit) : Except Fault Solver := s.openLevel.assign l none

/-- Takes back the levels that a conflict refutes and learns from it. -/
def recover (s : Solver) (conflict : ClauseRef) : Except Fault Solver := do
  let (lesson, s) ← s.analyze conflict
  let s ← s.backTo lesson.level
  let s ← s.learn lesson.lits
  return s.decay

/-- Searches until a model is found, the assumptions are refuted, or the conflicts reach a limit,
in at most the given number of rounds. -/
def searchWithin (limit : Nat) (assumptions : List Lit) :
    Nat → Nat → Solver → Except Fault (Truth × Solver)
  | 0, _, _ => .error .stalled
  | n + 1, met, s => do
    let (conflict, s) ← s.propagate
    match conflict with
    | some r =>
      let s := { s with conflicts := s.conflicts + 1 }
      if s.depth = 0 then return (.fls, { s with ok := false })
      let s ← s.recover r
      searchWithin limit assumptions n (met + 1) s
    | none =>
      if limit ≤ met then
        let s ← s.backTo 0
        return (.undef, { s with restarts := s.restarts + 1 })
      let crowded := s.learnts.size.toFloat - s.trail.lits.size.toFloat ≥ s.maxLearnts
      let s := if crowded then s.reduce else s
      match assume (assumptions.drop s.depth) s with
      | (.refuted, s) => return (.fls, s)
      | (.decide l, s) =>
        let s ← s.branch l
        searchWithin limit assumptions n met s
      | (.free, s) =>
        let s := { s with decisions := s.decisions + 1 }
        let (choice, branching) ← s.branching.pick s.trail.valueVar (s.branching.queue.size + 1)
        let s := { s with branching }
        match choice with
        | none => return (.tru, s)
        | some l =>
          let s ← s.branch l
          searchWithin limit assumptions n met s

/-- More rounds than a search can take. Each round but the last raises the number of literals at
some level and leaves those of lower levels alone, and there are at most this many such steps. -/
def roundBound (vars assumptions : Nat) : Nat := Nat.pow (vars + 2) (vars + assumptions + 2)

def search (s : Solver) (limit : Nat) (assumptions : List Lit) : Except Fault (Truth × Solver) :=
  searchWithin limit assumptions (roundBound s.varCount assumptions.length) 0 s

/-- Searches with growing conflict limits, as long as the restarts can be counted. -/
def solveFrom (assumptions : List Lit) :
    (remaining restart : Nat) → Solver → Except Fault (Truth × Solver)
  | 0, _, _ => .error .restartsExhausted
  | n + 1, restart, s => do
    let limit ← Luby.limit s.settings.restartGrowth s.settings.restartFirst restart
    let (status, s) ← s.search limit assumptions
    let s := { s with maxLearnts := s.maxLearnts * s.settings.learntGrowth }
    match status with
    | .undef => solveFrom assumptions n (restart + 1) s
    | status => return (status, s)

def atLeast (bound x : Float) : Float := if bound < x then x else bound

/-- Whether the clauses have a model in which the assumptions hold. The solver is back at the root
afterwards and keeps the model. -/
def solve (s : Solver) (assumptions : List Lit) : Except Fault (Bool × Solver) :=
  let s := { s with model := none }
  if !s.ok then .ok (false, s)
  else do
    let s ← s.reserve assumptions
    let s := { s with
      maxLearnts := atLeast 10 (s.added.size.toFloat * s.settings.learntShare) }
    let (status, s) ← s.solveFrom assumptions (Luby.wordLimit - 1) 0
    let s :=
      if status = .tru then { s with model := some (s.trail.values.map (· == .tru)) } else s
    let s ← s.backTo 0
    return (status = .tru, s)

/-- Up to `n` models, each excluded by a clause before the next is looked for. -/
def enumerate : Nat → Solver → Except Fault (List (Array Bool) × Solver)
  | 0, s => .ok ([], s)
  | n + 1, s => do
    let (_, s) ← s.solve []
    match s.model with
    | none => return ([], s)
    | some model =>
      let exclusion := model.toList.zipIdx.map fun (value, i) => Lit.of ⟨i⟩ !value
      let (_, s) ← s.addClause exclusion
      let (models, s) ← enumerate n s
      return (model :: models, s)

end Solver

end ModelCounting
