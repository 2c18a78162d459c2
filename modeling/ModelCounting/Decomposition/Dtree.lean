import ModelCounting.Decomposition.InteractionGraph

/-!
Decomposition trees: full binary trees whose leaves are the clauses of a conjunction. A tree is
built along an elimination order: for each variable in turn, the trees that mention it are
composed into one.
-/

namespace ModelCounting

inductive Dtree (Leaf Inner : Type) where
  | leaf (data : Leaf)
  | node (data : Inner) (left right : Dtree Leaf Inner)
  deriving Inhabited

/-- A clause in its place among the clauses of a conjunction. -/
structure ClauseLeaf where
  id : Nat
  clause : Formula
  lits : List Lit
  /-- The variables, ascending. -/
  vars : List Var
  deriving Inhabited

/-- What an inner node knows of the clauses below it. -/
structure Extent where
  size : Nat
  depth : Nat
  vars : List Var
  deriving Inhabited

abbrev ClauseTree := Dtree ClauseLeaf Extent

namespace ClauseLeaf

def ofClause (s : Store) (id : Nat) (f : Formula) : Except Fault ClauseLeaf := do
  let lits ← s.clauseLits f
  return ⟨id, f, lits, lits.foldl (fun vs l => mergeVars vs [l.var]) []⟩

def extent (l : ClauseLeaf) : Extent := ⟨1, 1, l.vars⟩

end ClauseLeaf

namespace Dtree

def extent : ClauseTree → Extent
  | .leaf l => l.extent
  | .node d _ _ => d

def join (left right : ClauseTree) : ClauseTree :=
  let l := left.extent
  let r := right.extent
  .node ⟨l.size + r.size, 1 + max l.depth r.depth, mergeVars l.vars r.vars⟩ left right

/-- Composes a list of trees by halving it. -/
def compose (trees : List ClauseTree) : Except Fault ClauseTree :=
  match trees with
  | [] => .error .emptyComposition
  | [t] => .ok t
  | t :: u :: rest =>
    let half := (rest.length + 2) / 2
    match compose ((t :: u :: rest).take half), compose ((t :: u :: rest).drop half) with
    | .ok l, .ok r => .ok (join l r)
    | .error e, _ => .error e
    | _, .error e => .error e
termination_by trees.length
decreasing_by
  all_goals simp only [List.length_take, List.length_drop, List.length_cons]; omega

/-- Replaces the trees that mention a variable by their composition, at the end of the list. -/
def gather (trees : List ClauseTree) (v : Var) : Except Fault (List ClauseTree) :=
  let (mentioning, others) := trees.partition fun t => t.extent.vars.contains v
  if mentioning.isEmpty then .ok others
  else do return others ++ [← compose mentioning]

/-- The tree of a conjunction of clauses along an order of variables. -/
def alongOrder (s : Store) (f : Formula) (order : List Var) : Except Fault ClauseTree :=
  if !s.isCnf f || s.isAtomic f then .error .atomicDecomposition
  else match s.node f with
    | .and fs => do
      let leaves ← fs.zipIdx.mapM fun (g, id) => ClauseLeaf.ofClause s id g
      compose (← order.foldlM gather (leaves.map .leaf))
    | _ => do return .leaf (← ClauseLeaf.ofClause s 0 f)

/-- The tree of a conjunction of clauses along a min-fill order. -/
def minFill (s : Store) (f : Formula) : Except Fault (ClauseTree × Elimination) := do
  let elimination := (← InteractionGraph.ofCnf s f).minFill
  return (← alongOrder s f elimination.order, elimination)

end Dtree

end ModelCounting
