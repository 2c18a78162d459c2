import ModelCounting.Backbone
import ModelCounting.Compilation.Recursion
import ModelCounting.NormalForm.Subsumption

/-!
Compilation of a conjunction of clauses into a decomposable, deterministic circuit. The clauses
are simplified and split into literals and the rest, and the rest is compiled top-down along a
decomposition tree.
-/

namespace ModelCounting

structure CompilationStats where
  expansions : Nat := 0
  cacheHits : Nat := 0
  cacheMisses : Nat := 0
  cacheEntries : Nat := 0
  depth : Nat := 0
  widest : Nat := 0
  treewidth : Nat := 0
  deriving DecidableEq, Inhabited, Repr

structure Compiler where
  /-- The simplified clauses. -/
  cnf : Formula
  /-- The literals among them. -/
  units : Formula
  /-- The other clauses. -/
  nonUnits : Formula
  solver : Stepper
  /-- The subproblems compiled so far. -/
  cache : SubproblemCache := {}
  stats : CompilationStats := {}
  used : Bool := false
  deriving Inhabited

namespace Compiler

/-- Simplifies a conjunction of clauses, splits it, and hands it to a solver. -/
def prepare (s : Store) (f : Formula) (settings : Settings) : Except Fault (Compiler × Store) :=
  if !s.isCnf f then .error .compileOutsideCnf
  else do
    let (g, s) ← s.fixBackbone f
    let (cnf, s) ← s.subsumption g
    let (units, nonUnits) := match s.node cnf with
      | .and fs => fs.partition s.isAtomic
      | .or _ => ([], [cnf])
      | _ => ([cnf], [])
    let solver ← Stepper.add { core := { settings } } s cnf
    let (units, s) := s.conj units
    let (nonUnits, s) := s.conj nonUnits
    return ({ cnf, units, nonUnits, solver }, s)

/-- More than the nesting of calls in a compilation: each nested call goes down the tree or has one
more variable assigned. -/
def nestingBound (p : Stepper) (t : PlacedTree) : Nat := p.varCount + t.depth + 1

/-- Compiles the clauses. A compiler can be used once. -/
def compile (m : Compiler) (s : Store) (handler : Handler) :
    Except Fault (Outcome × Compiler × Store × Handler) :=
  if m.used then .error .compiledTwice
  else do
    let m := { m with used := true }
    let handler := handler.start
    if s.isAtomic m.nonUnits then return (.compiled m.cnf, m, s, handler)
    let (consistent, solver) ← m.solver.start
    let m := { m with solver }
    if !consistent then return (.compiled .falsum, m, s, handler)
    let (tree, elimination) ← Dtree.minFill s m.nonUnits
    let t ← tree.place m.solver
    let start : Compilation := {
      store := s
      solver := m.solver
      handler
      workspace := ⟨t.depth + 1, t.widest + 1⟩ }
    let (outcome, c) ← Compilation.tree (nestingBound m.solver t) t 0 start
    let stats : CompilationStats := {
      expansions := c.expansions
      cacheHits := c.cache.hits
      cacheMisses := c.cache.misses
      cacheEntries := c.cache.size
      depth := t.depth
      widest := t.widest
      treewidth := elimination.width }
    let m := { m with solver := c.solver, cache := c.cache, stats }
    match outcome with
    | .cancelled => return (.cancelled, m, c.store, c.handler)
    | .compiled f =>
      let (f, s) := c.store.conj [m.units, f]
      return (.compiled f, m, s, c.handler)

end Compiler

end ModelCounting
