import ModelCounting.Circuit.Count
import ModelCounting.Satisfiability

/-!
Checks of a circuit. Decomposable means that the operands of every conjunction have no variable in
common, deterministic that those of every disjunction have no model in common.
-/

namespace ModelCounting

def disjointVars (vs ws : List Var) : Bool := vs.all fun v => !ws.contains v

namespace Store

abbrev NodeCheck := Store → Formula → Except Fault (Bool × Store)

def checkAgainst (check : Store → Formula → Formula → Except Fault (Bool × Store)) (f : Formula) :
    List Formula → Store → Except Fault (Bool × Store)
  | [], s => .ok (true, s)
  | g :: gs, s => do
    match ← check s f g with
    | (false, s) => return (false, s)
    | (true, s) => checkAgainst check f gs s

def checkPairs (check : Store → Formula → Formula → Except Fault (Bool × Store)) :
    List Formula → Store → Except Fault (Bool × Store)
  | [], s => .ok (true, s)
  | f :: fs, s => do
    match ← checkAgainst check f fs s with
    | (false, s) => return (false, s)
    | (true, s) => checkPairs check fs s

/-- Checks each node of a formula once, a node before its operands and the last operand first. The
answer is unset at the first failure. -/
def checkNodes (check : NodeCheck) (f : Formula) (seen : Std.TreeSet Formula) (s : Store) :
    Except Fault (Bool × Std.TreeSet Formula × Store) :=
  if seen.contains f then .ok (true, seen, s)
  else
    match check s f with
    | .error e => .error e
    | .ok (false, s) => .ok (false, seen, s)
    | .ok (true, s) =>
      (s.node f).children.reverse.attach.foldlM
        (fun ((good, seen, s') : Bool × Std.TreeSet Formula × Store) g =>
          have := s.child_lt (f := f) (c := g.1) (List.mem_reverse.mp g.2)
          if good then checkNodes check g.1 seen s' else .ok (false, seen, s'))
        (true, seen.insert f, s)
termination_by f.id

def decomposableNode : NodeCheck := fun s f =>
  match s.node f with
  | .and fs => checkPairs (fun s g h => .ok (disjointVars (s.vars g) (s.vars h), s)) fs s
  | _ => .ok (true, s)

def contradict (s : Store) (f g : Formula) : Except Fault (Bool × Store) := do
  let (both, s) := s.conj [f, g]
  let (b, s) ← s.isSatisfiable both
  return (!b, s)

def deterministicNode : NodeCheck := fun s f =>
  match s.node f with
  | .or fs => checkPairs contradict fs s
  | _ => .ok (true, s)

end Store

namespace Circuit

/-- Whether the circuit is in negation normal form with variable-disjoint conjunctions. -/
def isDecomposable (d : Circuit) (s : Store) : Except Fault (Bool × Store) :=
  if s.isNnf d.formula then do
    let (b, _, s) ← s.checkNodes Store.decomposableNode d.formula ∅
    return (b, s)
  else .ok (false, s)

/-- Whether the operands of every disjunction contradict each other. The conjunctions tested are
new nodes of the store. -/
def isDeterministic (d : Circuit) (s : Store) : Except Fault (Bool × Store) := do
  let (b, _, s) ← s.checkNodes Store.deterministicNode d.formula ∅
  return (b, s)

end Circuit

end ModelCounting
