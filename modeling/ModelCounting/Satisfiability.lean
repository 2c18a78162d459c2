import ModelCounting.Formula.Query
import ModelCounting.NormalForm.Negation
import ModelCounting.Search.Solve

/-!
Satisfiability of arbitrary formulas. The negation normal form is handed to the solver with a fresh
variable for each conjunction and disjunction, which implies its definition; the converse is not
needed, since every gate occurs positively.
-/

namespace ModelCounting

structure GateEncoding where
  solver : Solver := {}
  /-- The solver variable of each formula variable. -/
  vars : Std.TreeMap Var Var := ∅
  /-- The literal that stands for each formula. -/
  gates : Std.TreeMap Formula Lit := ∅

namespace GateEncoding

def var (e : GateEncoding) (v : Var) : Except Fault (Var × GateEncoding) :=
  match e.vars[v]? with
  | some i => .ok (i, e)
  | none => do
    let (i, solver) ← e.solver.newVar
    return (i, { e with solver, vars := e.vars.insert v i })

def gate (e : GateEncoding) : Except Fault (Lit × GateEncoding) := do
  let (v, solver) ← e.solver.newVar
  return (Lit.of v true, { e with solver })

def addClause (e : GateEncoding) (ls : List Lit) : Except Fault GateEncoding := do
  let (_, solver) ← e.solver.addClause ls
  return { e with solver }

/-- The literal that stands for a formula in negation normal form. -/
def encode (s : Store) (f : Formula) (e : GateEncoding) : Except Fault (Lit × GateEncoding) :=
  match e.gates[f]? with
  | some l => .ok (l, e)
  | none => do
    let (l, e) ←
      (match shape : s.node f with
      | .lit l => do
        let (v, e) ← e.var l.var
        return (Lit.of v l.phase, e)
      | .and fs => do
        have below := fun g (h : g ∈ fs) => s.child_lt (f := f) (c := g) (by rwa [shape])
        let (ls, e) ← fs.attach.foldlM (fun ((ls, e) : List Lit × GateEncoding) g => do
          have := below g.1 g.2
          let (l, e) ← encode s g.1 e
          return (ls ++ [l], e)) ([], e)
        let (out, e) ← e.gate
        let e ← ls.foldlM (fun e l => e.addClause [-out, l]) e
        return (out, e)
      | .or fs => do
        have below := fun g (h : g ∈ fs) => s.child_lt (f := f) (c := g) (by rwa [shape])
        let (ls, e) ← fs.attach.foldlM (fun ((ls, e) : List Lit × GateEncoding) g => do
          have := below g.1 g.2
          let (l, e) ← encode s g.1 e
          return (ls ++ [l], e)) ([], e)
        let (out, e) ← e.gate
        let e ← e.addClause (ls ++ [-out])
        return (out, e)
      | n => .error (.notNegationNormal n) : Except Fault (Lit × GateEncoding))
    return (l, { e with gates := e.gates.insert f l })
termination_by f.id

end GateEncoding

namespace Store

/-- A model of a formula over its variables, if there is one. -/
def oneSat (s : Store) (f : Formula) : Except Fault (Option Assignment × Store) := do
  let (g, s) := s.nnf f
  if g = .falsum then return (none, s)
  let e ←
    if g = .verum then pure {}
    else do
      let (root, e) ← GateEncoding.encode s g {}
      e.addClause [root]
  let (_, solver) ← e.solver.solve []
  match solver.model with
  | none => return (none, s)
  | some model =>
    let ls := (s.vars f).map fun v =>
      match e.vars[v]? with
      | some i => Lit.of v (model.getD i.id false)
      | none => Lit.of v false
    return (some (.ofList ls), s)

def isSatisfiable (s : Store) (f : Formula) : Except Fault (Bool × Store) := do
  let (a, s) ← s.oneSat f
  return (a.isSome, s)

def isTautology (s : Store) (f : Formula) : Except Fault (Bool × Store) := do
  let (g, s) := s.neg f
  let (b, s) ← s.isSatisfiable g
  return (!b, s)

def isEquivalent (s : Store) (f g : Formula) : Except Fault (Bool × Store) :=
  let (h, s) := s.equiv f g
  s.isTautology h

def entails (s : Store) (f g : Formula) : Except Fault (Bool × Store) :=
  let (h, s) := s.implies f g
  s.isTautology h

end Store

end ModelCounting
