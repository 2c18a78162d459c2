import ModelCounting.Compilation.Handler
import ModelCounting.Compilation.SubproblemCache
import ModelCounting.Decomposition.PlacedTree

/-!
The recursion of a compilation along a decomposition tree. Where the clauses left in the two
subtrees of a node share no variable, the subtrees are compiled apart and remembered; otherwise a
shared variable is expanded. A branch that fails at the level of the last conflict's lesson asserts
the lesson and compiles the node again.
-/

namespace ModelCounting

inductive Outcome where
  | compiled (f : Formula)
  | cancelled
  deriving DecidableEq, Inhabited, Repr

/-- Room for intermediate results: a row for each depth of the tree and a column for each number
of nested expansions of one node. -/
structure Workspace where
  rows : Nat
  columns : Nat
  deriving Inhabited

def Workspace.reserve (w : Workspace) (row column : Nat) : Except Fault Unit :=
  if row < w.rows ∧ column < w.columns then .ok () else .error .indexOutOfRange

structure Compilation where
  store : Store
  solver : Stepper
  handler : Handler
  workspace : Workspace
  cache : SubproblemCache := {}
  expansions : Nat := 0
  separator : IndexSet := .empty
  scratch : IndexSet := .empty
  deriving Inhabited

abbrev CompilationStep := Compilation → Except Fault (Outcome × Compilation)

namespace Compilation

def conj (c : Compilation) (fs : List Formula) : Outcome × Compilation :=
  let (f, store) := c.store.conj fs
  (.compiled f, { c with store })

/-- The terms of a clause: each unassigned literal with the unassigned ones before it negated. -/
def leafTerms (value : Lit → Truth) (name : Lit → Except Fault Lit) :
    List Lit → List Formula → Store → Except Fault (Option (List Formula) × Store)
  | [], _, s => .ok (some [], s)
  | l :: ls, negated, s =>
    match value l with
    | .tru => .ok (none, s)
    | .fls => leafTerms value name ls negated s
    | .undef => do
      let (f, s) := s.lit (← name l)
      let (term, s) := s.conj (negated ++ [f])
      let (g, s) := s.neg f
      match ← leafTerms value name ls (negated ++ [g]) s with
      | (some terms, s) => return (some (term :: terms), s)
      | (none, s) => return (none, s)

/-- A clause as a deterministic disjunction: its terms exclude each other. -/
def leaf (c : Compilation) (l : PlacedLeaf) : Except Fault (Formula × Compilation) := do
  match ← leafTerms c.solver.value c.solver.litOf l.lits [] c.store with
  | (none, store) => return (.verum, { c with store })
  | (some terms, store) =>
    let (f, store) := store.disj terms
    return (f, { c with store })

/-- The variable of a set with the most occurrences, the least if there are several. -/
def mostFrequent (occurrences : Array Int) (candidates : List Nat) : Nat :=
  (candidates.foldl (fun (best : Int × Nat) i =>
    let n := occurrences.getD i (-1)
    if best.1 < n then (n, i) else best) (-1, 0)).2

/-- The separator variable that occurs most often in the clauses left. -/
def chooseVariable (c : Compilation) (t : PlacedTree) (nested : Nat) : Except Fault Var := do
  c.workspace.reserve t.depth nested
  let eligible := Array.ofFn fun i : Fin c.solver.varCount =>
    if c.separator.contains i then (0 : Int) else -1
  let occurrences ← t.countOccurrences c.solver.value eligible
  return ⟨mostFrequent occurrences c.separator.toList⟩

/-- Compiles under one more decision, which is taken back afterwards. -/
def branch (compile : CompilationStep) (v : Var) (phase : Bool) : CompilationStep := fun c => do
  let (consistent, solver) ← c.solver.decide v phase
  let c := { c with solver }
  let (result, c) ←
    if consistent then compile c else .ok (.compiled .falsum, c)
  let solver ← c.solver.undo v
  return (result, { c with solver })

/-- After a failed branch: asserts the lesson of the last conflict and compiles again, if this is
its level. -/
def retry (compile : CompilationStep) : CompilationStep := fun c =>
  if c.solver.atAssertionLevel then do
    let (consistent, solver) ← c.solver.assertLesson
    let c := { c with solver }
    if consistent then compile c else return (.compiled .falsum, c)
  else .ok (.compiled .falsum, c)

/-- Compiles an inner node, or looks up what it was compiled to. -/
def cached (compile : CompilationStep) (t : PlacedTree) (nested : Nat) : CompilationStep :=
  fun c => do
    c.workspace.reserve t.depth nested
    let key := t.cacheKey c.solver.value c.solver.varCount .empty
    let (known, cache) := c.cache.query key
    let c := { c with cache }
    match known with
    | some f => return (.compiled f, c)
    | none =>
      match ← compile c with
      | (.compiled f, c) =>
        let c := if f = .falsum then c else { c with cache := c.cache.insert key f }
        return (.compiled f, c)
      | (.cancelled, c) => return (.cancelled, c)

/-- Compiles a subtree that shares no unassigned variable with its sibling. -/
def part (compile : PlacedTree → CompilationStep) (nested : Nat) (t : PlacedTree) :
    CompilationStep := fun c =>
  match t with
  | .leaf l => do
    let (f, c) ← c.leaf l
    return (.compiled f, c)
  | .node .. => cached (compile t) t nested c

/-- The conjunction of the implied literals with the two subtrees, the falsum as soon as one of
them is. -/
def conjoin (compile : PlacedTree → CompilationStep) (nested : Nat) (implied : Formula)
    (left right : PlacedTree) : CompilationStep := fun c => do
  if implied = .falsum then return (.compiled .falsum, c)
  match ← part compile nested left c with
  | (.cancelled, c) => return (.cancelled, c)
  | (.compiled l, c) =>
    if l = .falsum then return (.compiled .falsum, c)
    match ← part compile nested right c with
    | (.cancelled, c) => return (.cancelled, c)
    | (.compiled r, c) =>
      if r = .falsum then return (.compiled .falsum, c)
      return c.conj [implied, l, r]

/-- The implied literals with the two branches of an expansion, each guarded by its literal. -/
def expansion (implied : Formula) (v : Var) (positive negative : Formula) (c : Compilation) :
    Except Fault (Outcome × Compilation) := do
  let name ← c.solver.nameOf v
  let (l, s) := c.store.lit (.of name true)
  let (p, s) := s.conj [l, positive]
  let (l, s) := s.lit (.of name false)
  let (n, s) := s.conj [l, negative]
  let (f, s) := s.disj [p, n]
  return { c with store := s }.conj [implied, f]

/-- Compiles what is left of a subtree, after `nested` expansions of the same node. The first
argument bounds the nesting of calls. -/
def tree : Nat → PlacedTree → Nat → CompilationStep
  | 0, _, _, _ => .error .stalled
  | n + 1, t, nested, c => do
    let (separator, scratch) := t.dynamicSeparator c.solver.value c.separator c.scratch
    let c := { c with separator, scratch }
    let (implied, solver, store) ← c.solver.newlyImplied t.vars c.store
    let c := { c with solver, store }
    if c.separator.isEmpty then
      match t with
      | .leaf l =>
        let (f, c) ← c.leaf l
        return c.conj [implied, f]
      | .node _ left right => conjoin (fun t => tree n t 0) nested implied left right c
    else
      let v ← c.chooseVariable t nested
      let (granted, handler) := c.handler.expand
      let c := { c with expansions := c.expansions + 1, handler }
      if !granted then return (.cancelled, c)
      match ← branch (tree n t (nested + 1)) v true c with
      | (.cancelled, c) => return (.cancelled, c)
      | (.compiled positive, c) =>
        if positive = .falsum then retry (tree n t 0) c
        else
          match ← branch (tree n t (nested + 1)) v false c with
          | (.cancelled, c) => return (.cancelled, c)
          | (.compiled negative, c) =>
            if negative = .falsum then retry (tree n t 0) c
            else expansion implied v positive negative c

end Compilation

end ModelCounting
