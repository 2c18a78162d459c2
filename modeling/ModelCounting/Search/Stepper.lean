import Std.Data.TreeMap
import ModelCounting.Formula.Query
import ModelCounting.IndexSet
import ModelCounting.Search.Solver

/-!
A solver driven from outside, one decision at a time. The caller opens a level by deciding a
variable and closes it again. A conflict leaves its lesson behind; back at the level of the lesson
the caller may have it asserted. The variables of the added clauses are numbered in order of first
occurrence, and these numbers are the variables of the solver.
-/

namespace ModelCounting

structure Stepper where
  core : Solver := {}
  /-- The solver variable of each formula variable. -/
  numbers : Std.TreeMap Var Var := ∅
  /-- The formula variable of each solver variable. -/
  names : Array Var := #[]
  /-- Set from a propagation until its consequences are reported or undone. -/
  unreported : Bool := false
  assertionLevel : Option Nat := none
  lesson : Option (Array Lit) := none
  deriving Inhabited

namespace Stepper

def varCount (p : Stepper) : Nat := p.names.size

def value (p : Stepper) (l : Lit) : Truth := p.core.value l

/-- The number of a formula variable, new on its first use. -/
def number (p : Stepper) (v : Var) : Except Fault (Var × Stepper) :=
  match p.numbers[v]? with
  | some i => .ok (i, p)
  | none => do
    let (i, core) ← p.core.newVar
    return (i, { p with core, numbers := p.numbers.insert v i, names := p.names.push v })

def numberLits (p : Stepper) : List Lit → Except Fault (List Lit × Stepper)
  | [] => .ok ([], p)
  | l :: ls => do
    let (v, p) ← p.number l.var
    let (ms, p) ← p.numberLits ls
    return (Lit.of v l.phase :: ms, p)

def addClause (p : Stepper) (ls : List Lit) : Except Fault Stepper := do
  let (ls, p) ← p.numberLits ls
  let (_, core) ← p.core.addClause ls
  return { p with core }

def add (p : Stepper) (s : Store) (f : Formula) : Except Fault Stepper := do
  (← s.clauses f).foldlM addClause p

/-- Propagates what the clauses alone imply. The answer is unset on a contradiction. -/
def start (p : Stepper) : Except Fault (Bool × Stepper) := do
  let p := { p with unreported := true }
  if p.core.ok then
    let (conflict, core) ← p.core.propagate
    return (conflict.isNone, { p with core })
  else return (false, p)

/-- Propagates. A conflict above the root leaves its lesson; one at the root leaves none. -/
def settle (p : Stepper) : Except Fault (Bool × Stepper) := do
  let (conflict, core) ← p.core.propagate
  let p := { p with core }
  match conflict with
  | none => return (true, p)
  | some r =>
    if 0 < p.core.depth then
      let (lesson, core) ← p.core.analyze r
      return (false, { p with core, assertionLevel := some lesson.level, lesson := some lesson.lits })
    else return (false, { p with assertionLevel := none, lesson := none })

/-- Opens a level in which a variable has the given phase. The answer is unset if the variable has
the other phase already, or on a conflict; the level is open in any case. -/
def decide (p : Stepper) (v : Var) (phase : Bool) : Except Fault (Bool × Stepper) := do
  let l := Lit.packed v phase
  let p := { p with unreported := true, core := p.core.openLevel }
  match ← p.core.valueOf l with
  | .fls => return (false, p)
  | .tru => .error (.decidedTrue l)
  | .undef =>
    let core ← p.core.assign l none
    settle { p with core }

def undo (p : Stepper) (v : Var) : Except Fault Stepper :=
  if p.core.depth = 0 then .error (.undoAtRoot v)
  else do
    let core ← p.core.backTo (p.core.depth - 1)
    return { p with unreported := false, core }

def atAssertionLevel (p : Stepper) : Bool := p.assertionLevel == some p.core.depth

/-- Learns the lesson of the last conflict and propagates. The answer is unset on a conflict. -/
def assertLesson (p : Stepper) : Except Fault (Bool × Stepper) :=
  if !p.atAssertionLevel then .error .assertedElsewhere
  else match p.lesson with
    | none => .error .nothingLearnt
    | some lits => do
      let core ← p.core.learn lits
      settle { p with unreported := true, core := core.decay, assertionLevel := none, lesson := none }

def numberOf? (p : Stepper) (v : Var) : Option Var := p.numbers[v]?

def literal? (p : Stepper) (l : Lit) : Option Lit := (p.numberOf? l.var).map (Lit.of · l.phase)

def nameOf (p : Stepper) (i : Var) : Except Fault Var :=
  match p.names[i.id]? with
  | some v => .ok v
  | none => .error .indexOutOfRange

def litOf (p : Stepper) (l : Lit) : Except Fault Lit := do return Lit.of (← p.nameOf l.var) l.phase

/-- The literals after the decision of the last level, restricted to the given variables. -/
def consequences (p : Stepper) (known : IndexSet) : List Lit :=
  if p.unreported then
    let t := p.core.trail
    let start := match t.starts.back? with
      | some start => start + 1
      | none => 0
    (t.lits.toList.drop start).filter fun l => known.contains l.var.id
  else []

/-- The conjunction of the literals implied since the last decision, among the given variables.
They are reported once. -/
def newlyImplied (p : Stepper) (known : IndexSet) (s : Store) :
    Except Fault (Formula × Stepper × Store) := do
  let ls ← (p.consequences known).mapM p.litOf
  let (f, s) := s.cube ls
  return (f, { p with unreported := false }, s)

end Stepper

end ModelCounting
