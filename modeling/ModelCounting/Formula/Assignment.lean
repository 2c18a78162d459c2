import ModelCounting.Literal

/-!
Assignments: sets of literals in ascending order, at most one for each variable. A variable that
no literal mentions is false.
-/

namespace ModelCounting

def Lit.holds (value : Var → Bool) (l : Lit) : Bool := value l.var == l.phase

structure Assignment where
  literals : List Lit := []
  deriving DecidableEq, Inhabited, Repr

namespace Assignment

def insertSorted (l : Lit) : List Lit → List Lit
  | [] => [l]
  | m :: ms =>
    if l.code < m.code then l :: m :: ms
    else if l = m then m :: ms
    else m :: insertSorted l ms

/-- Adds a literal in place of its complement. -/
def add (a : Assignment) (l : Lit) : Assignment :=
  ⟨insertSorted l (a.literals.filter (· ≠ -l))⟩

def ofList (ls : List Lit) : Assignment := ls.foldl add {}

def holds (a : Assignment) (v : Var) : Bool := a.literals.contains (.of v true)

/-- The value of a variable, by the word that holds its positive literal. -/
def value (a : Assignment) (v : Var) : Bool := a.holds v.truncated

def satisfies (a : Assignment) (l : Lit) : Bool := l.holds a.holds

end Assignment

end ModelCounting
