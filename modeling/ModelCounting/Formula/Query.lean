import ModelCounting.Formula.Assignment
import ModelCounting.Formula.Text

/-!
Questions about a formula: its value under an assignment, its literals, and whether it is a
clause, a conjunction of clauses, or free of negated subformulas.
-/

namespace ModelCounting

/-- The value of a node, given the values of its operands. -/
def Node.eval (value : Var → Bool) (sub : Formula → Bool) : Node → Bool
  | .falsum => false
  | .verum => true
  | .lit l => l.holds value
  | .not f => !sub f
  | .and fs => fs.all sub
  | .or fs => fs.any sub
  | .implies f g => !sub f || sub g
  | .equiv f g => sub f == sub g

/-- Whether a node may stand in negation normal form, given the same of its operands. -/
def Node.isNnf (sub : Formula → Bool) : Node → Bool
  | .falsum | .verum | .lit _ => true
  | .and fs | .or fs => fs.all sub
  | .not _ | .implies .. | .equiv .. => false

def Node.occurrences (sub : Formula → List Lit) : Node → List Lit
  | .lit l => [l]
  | n => n.children.flatMap sub

namespace Store

def eval (s : Store) (value : Var → Bool) (f : Formula) : Bool := s.fold (Node.eval value) f

def evaluate (s : Store) (f : Formula) (a : Assignment) : Bool := s.eval a.holds f

def isNnf (s : Store) (f : Formula) : Bool := s.fold Node.isNnf f

/-- The distinct literals of a formula in order of first occurrence. -/
def literalsOf (s : Store) (f : Formula) : List Lit := (s.fold Node.occurrences f).eraseDups

def asLit? (s : Store) (f : Formula) : Option Lit := (s.node f).asLit?

def isAtomic (s : Store) (f : Formula) : Bool := (s.node f).isAtomic

/-- The falsum, a literal, or a disjunction of literals. -/
def isClause (s : Store) (f : Formula) : Bool :=
  match s.node f with
  | .falsum | .lit _ => true
  | .or fs => fs.all fun g => (s.asLit? g).isSome
  | _ => false

/-- The verum, a clause, or a conjunction of clauses. -/
def isCnf (s : Store) (f : Formula) : Bool :=
  match s.node f with
  | .verum => true
  | .and fs => fs.all s.isClause
  | _ => s.isClause f

/-- The fault of reading a formula as a clause when it is none. -/
def notAClause {α : Type} (s : Store) (f : Formula) : Except Fault α := do
  .error (.notAClause (← s.render f))

def clauseLits (s : Store) (f : Formula) : Except Fault (List Lit) :=
  match s.node f with
  | .falsum => .ok []
  | .lit l => .ok [l]
  | .or fs => fs.mapM fun g =>
    match s.asLit? g with
    | some l => .ok l
    | none => s.notAClause f
  | _ => s.notAClause f

/-- The clauses of a conjunction of clauses: none for the verum, one empty for the falsum. -/
def clauses (s : Store) (f : Formula) : Except Fault (List (List Lit)) :=
  match s.node f with
  | .verum => .ok []
  | .and fs => fs.mapM s.clauseLits
  | _ => return [← s.clauseLits f]

end Store

end ModelCounting
