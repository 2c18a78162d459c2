import ModelCounting.NormalForm.Restriction
import ModelCounting.Search.Solve

/-!
The backbone of a satisfiable conjunction of clauses: the literals true in every model. The
literals of a first model are the candidates. A candidate is tested by solving under its negation;
a model found that way strikes out all candidates that it falsifies.
-/

namespace ModelCounting

namespace Backbone

def place (vars : List Var) (l : Lit) : Lit := Lit.of ⟨vars.idxOf l.var⟩ l.phase

def unplace (vars : Array Var) (l : Lit) : Lit := Lit.of (vars.getD l.var.id default) l.phase

def agrees (model : Array Bool) (l : Lit) : Bool := model.getD l.var.id false == l.phase

/-- The candidates that hold in every model; those found are added to the clauses. -/
def confirm (candidates : List Lit) (solver : Solver) : Except Fault (List Lit) :=
  match candidates with
  | [] => .ok []
  | l :: ls =>
    match solver.solve [-l] with
    | .error e => .error e
    | .ok (true, solver) =>
      have := List.length_filter_le (agrees (solver.model.getD #[])) ls
      confirm (ls.filter (agrees (solver.model.getD #[]))) solver
    | .ok (false, solver) =>
      match solver.addClause [l] with
      | .error e => .error e
      | .ok (_, solver) =>
        match confirm ls solver with
        | .error e => .error e
        | .ok found => .ok (l :: found)
termination_by candidates.length

end Backbone

namespace Store

open Backbone in
/-- The backbone in ascending order, if the conjunction of clauses is satisfiable. -/
def backbone (s : Store) (f : Formula) : Except Fault (Option (List Lit)) := do
  let vars := s.vars f
  let clauses ← s.clauses f
  let solver ← Solver.addVars vars.length {}
  let solver ← clauses.foldlM (fun (solver : Solver) c => do
    let (_, solver) ← solver.addClause (c.map (place vars))
    return solver) solver
  let (_, solver) ← solver.solve []
  match solver.model with
  | none => return none
  | some model =>
    let candidates := (List.range vars.length).map fun i => Lit.of ⟨i⟩ (model.getD i false)
    return some ((← confirm candidates solver).map (unplace vars.toArray))

/-- The backbone literals beside the clauses restricted by them; the falsum for a contradiction. -/
def fixBackbone (s : Store) (f : Formula) : Except Fault (Formula × Store) := do
  match ← s.backbone f with
  | none => return (.falsum, s)
  | some ls =>
    let (rest, s) := s.restrict f ls
    let (fs, s) := s.literals ls
    return s.conj (fs ++ [rest])

end Store

end ModelCounting
