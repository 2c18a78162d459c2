import ModelCounting.Formula.Node

/-!
The ways in which a request can be refused. A fault names its cause; `message` is the one place
that words it, and causes without a message of their own are told apart by constructor.
-/

namespace ModelCounting

inductive Fault where
  /-- A variable, position or row that does not exist. -/
  | indexOutOfRange
  /-- A number that does not fit its word. -/
  | overflow
  /-- A literal is assigned although its variable has a value, or a watch is misplaced. -/
  | assertion
  /-- A search was started over as often as a word can count. -/
  | restartsExhausted
  /-- A loop went on past the bound that its measure gives. -/
  | stalled
  | zeroLiteral
  | varDecay
  | clauseDecay
  | firstRestart
  | restartGrowth
  | notAClause (text : String)
  | subsumptionOutsideCnf
  | atomicDecomposition
  | emptyComposition
  | unplacedVariable (v : Var) (leaf : Nat)
  | compileOutsideCnf
  | compiledTwice
  | notNegationNormal (node : Node)
  | notCountable (node : Node)
  | clauseAboveRoot
  | unwatchable
  | missingReason (l : Lit)
  | decidedTrue (l : Lit)
  | undoAtRoot (v : Var)
  | assertedElsewhere
  | nothingLearnt
  deriving DecidableEq, Inhabited, Repr

def Fault.message : Fault → Option String
  | .indexOutOfRange | .overflow | .assertion | .restartsExhausted | .stalled => none
  | .zeroLiteral => some "DIMACS literal must be non-zero"
  | .varDecay => some "Variable decay should be in the range (0, 1)"
  | .clauseDecay => some "Clause decay should be in the range (0, 1)"
  | .firstRestart => some "First restart interval should be positive"
  | .restartGrowth => some "Restart increment should be greater than 1"
  | .notAClause text => some (text ++ " is not a clause")
  | .subsumptionOutsideCnf => some "Subsumption is only defined for CNF formulas"
  | .atomicDecomposition => some "Cannot generate a dtree from a non-CNF or atomic formula"
  | .emptyComposition => some "Cannot compose an empty list of dtrees"
  | .unplacedVariable v leaf =>
    some ("Variable " ++ v.text ++ " of leaf " ++ toString leaf ++ " is unknown to the solver")
  | .compileOutsideCnf => some "Cannot compile a DNNF from a non-CNF formula"
  | .compiledTwice => some "A DnnfCompiler can only compile once"
  | .notNegationNormal node => some ("Unexpected " ++ node.text ++ " in NNF")
  | .notCountable node => some ("Unexpected " ++ node.text ++ " in a d-DNNF")
  | .clauseAboveRoot => some "Clauses can only be added at decision level 0"
  | .unwatchable => some "Only clauses of size > 1 are watched"
  | .missingReason l =>
    some ("internal error: entered unreachable code: implied literal " ++ l.text ++ " has no reason")
  | .decidedTrue l => some ("Cannot decide on " ++ l.text ++ " which is already true")
  | .undoAtRoot v => some ("Cannot undo decision on " ++ v.text ++ " which is not decided")
  | .assertedElsewhere => some "Conflict-driven literal asserted outside of the assertion level"
  | .nothingLearnt => some "No learnt clause to assert"

namespace Lit

/-- Reads a signed literal number: variables count from one and the sign is the phase. -/
def ofSigned (n : Int) : Except Fault Lit :=
  if n = 0 then .error .zeroLiteral else .ok (packed ⟨n.natAbs - 1⟩ (0 < n))

/-- The signed number of a literal, as a 32-bit word. The largest variable wraps round to the
least number, which has no negation. -/
def toSigned (l : Lit) : Except Fault Int :=
  let n := Int.bmod (l.var.id + 1) 0x100000000
  if l.phase then .ok n
  else if n = -0x80000000 then .error .overflow
  else .ok (-n)

end Lit

end ModelCounting
