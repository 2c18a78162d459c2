import ModelCounting.Circuit.Compile
import ModelCounting.Proofs.Answer
import ModelCounting.Proofs.IndexSet

/-!
Runs of a compilation. The recursion of a compilation that is not cancelled is read as a derivation
with one rule for each way in which a subproblem can go: a leaf, two independent parts, an expansion,
a reuse of an earlier result, a failed branch and the retries after it. The rules note the events at
which a run may go wrong, so that a property of runs can be stated by what it asks of their events.
-/

namespace ModelCounting

/-- What a run is asked to compile. -/
inductive Task where
  /-- What is left of a subtree. -/
  | tree (t : PlacedTree)
  /-- A subtree that shares nothing with its sibling. -/
  | part (t : PlacedTree)
  /-- A subtree under one more decision. -/
  | branch (t : PlacedTree) (v : Var) (phase : Bool)
  /-- A subtree after a branch of it has failed. -/
  | retry (t : PlacedTree)

inductive Event where
  /-- A result is taken from the cache for a subtree. -/
  | reuse (t : PlacedTree) (c : Compilation) (f : Formula)
  /-- The results of two parts are joined. -/
  | join (left right : PlacedTree) (l r f : Formula) (before between after : Compilation)
  /-- The results of two branches are merged. -/
  | merge (f : Formula)
  /-- A decision or a lesson is propagated for a subtree without a conflict. -/
  | settle (t : PlacedTree) (before after : Stepper)

def Store.guard (s : Store) (v : Var) (phase : Bool) (f : Formula) : Formula × Store :=
  (s.lit (.of v phase)).2.conj [(s.lit (.of v phase)).1, f]

def Store.decision (s : Store) (v : Var) (p n : Formula) : Formula × Store :=
  let x := s.guard v true p
  let y := x.2.guard v false n
  y.2.disj [x.1, y.1]

namespace Compilation

/-- What a frame of the recursion does first: it finds what its two sides share, and reports the
literals implied since the last decision. -/
def enter (t : PlacedTree) (c : Compilation) : Except Fault (Formula × Compilation) :=
  let (separator, scratch) := t.dynamicSeparator c.solver.value c.separator c.scratch
  match c.solver.newlyImplied t.vars c.store with
  | .ok (implied, solver, store) => .ok (implied, { c with separator, scratch, solver, store })
  | .error fault => .error fault

def conjoined (c : Compilation) (fs : List Formula) : Formula × Compilation :=
  ((c.store.conj fs).1, { c with store := (c.store.conj fs).2 })

def remember (key : IndexSet) (f : Formula) (c : Compilation) : Compilation :=
  if f = .falsum then c else { c with cache := c.cache.insert key f }

def key (t : PlacedTree) (c : Compilation) : IndexSet :=
  t.cacheKey c.solver.value c.solver.varCount .empty

def looked (t : PlacedTree) (c : Compilation) : Compilation :=
  { c with cache := (c.cache.query (c.key t)).2 }

/-- Asks the handler for one more expansion. -/
def counted (c : Compilation) : Compilation :=
  { c with expansions := c.expansions + 1, handler := c.handler.expand.2 }

/-- A run from a state to a result and another state, all events of which satisfy `watch`. -/
inductive Runs (watch : Event → Prop) : Task → Compilation → Formula → Compilation → Prop
  | leaf {l : PlacedLeaf} {c c₁ c₂ : Compilation} {implied f : Formula}
      (enter : c.enter (.leaf l) = .ok (implied, c₁)) (leaf : c₁.leaf l = .ok (f, c₂)) :
      Runs watch (.tree (.leaf l)) c (c₂.conjoined [implied, f]).1 (c₂.conjoined [implied, f]).2
  | contradiction {d : PlacedInner} {left right : PlacedTree} {c c₁ : Compilation}
      (enter : c.enter (.node d left right) = .ok (.falsum, c₁)) (apart : c₁.separator.isEmpty = true) :
      Runs watch (.tree (.node d left right)) c .falsum c₁
  | leftFails {d : PlacedInner} {left right : PlacedTree} {c c₁ c₂ : Compilation} {implied : Formula}
      (enter : c.enter (.node d left right) = .ok (implied, c₁)) (apart : c₁.separator.isEmpty = true)
      (first : Runs watch (.part left) c₁ .falsum c₂) :
      Runs watch (.tree (.node d left right)) c .falsum c₂
  | rightFails {d : PlacedInner} {left right : PlacedTree} {c c₁ c₂ c₃ : Compilation}
      {implied l : Formula}
      (enter : c.enter (.node d left right) = .ok (implied, c₁)) (apart : c₁.separator.isEmpty = true)
      (first : Runs watch (.part left) c₁ l c₂) (some : l ≠ .falsum)
      (second : Runs watch (.part right) c₂ .falsum c₃) :
      Runs watch (.tree (.node d left right)) c .falsum c₃
  | join {d : PlacedInner} {left right : PlacedTree} {c c₁ c₂ c₃ : Compilation}
      {implied l r : Formula}
      (enter : c.enter (.node d left right) = .ok (implied, c₁)) (apart : c₁.separator.isEmpty = true)
      (first : Runs watch (.part left) c₁ l c₂) (some : l ≠ .falsum)
      (second : Runs watch (.part right) c₂ r c₃) (some' : r ≠ .falsum)
      (event : watch (.join left right l r (c₃.conjoined [implied, l, r]).1 c₁ c₂ c₃)) :
      Runs watch (.tree (.node d left right)) c (c₃.conjoined [implied, l, r]).1
        (c₃.conjoined [implied, l, r]).2
  | failPositive {t : PlacedTree} {c c₁ c₂ c₃ : Compilation} {implied f : Formula} {v : Var}
      {nested : Nat} (enter : c.enter t = .ok (implied, c₁)) (shared : c₁.separator.isEmpty = false)
      (choice : c₁.chooseVariable t nested = .ok v)
      (positive : Runs watch (.branch t v true) c₁.counted .falsum c₂)
      (again : Runs watch (.retry t) c₂ f c₃) : Runs watch (.tree t) c f c₃
  | failNegative {t : PlacedTree} {c c₁ c₂ c₃ c₄ : Compilation} {implied p f : Formula} {v : Var}
      {nested : Nat} (enter : c.enter t = .ok (implied, c₁)) (shared : c₁.separator.isEmpty = false)
      (choice : c₁.chooseVariable t nested = .ok v)
      (positive : Runs watch (.branch t v true) c₁.counted p c₂) (some : p ≠ .falsum)
      (negative : Runs watch (.branch t v false) c₂ .falsum c₃)
      (again : Runs watch (.retry t) c₃ f c₄) : Runs watch (.tree t) c f c₄
  | expand {t : PlacedTree} {c c₁ c₂ c₃ c₄ : Compilation} {implied p n f : Formula} {v : Var}
      {nested : Nat} (enter : c.enter t = .ok (implied, c₁)) (shared : c₁.separator.isEmpty = false)
      (choice : c₁.chooseVariable t nested = .ok v)
      (positive : Runs watch (.branch t v true) c₁.counted p c₂) (some : p ≠ .falsum)
      (negative : Runs watch (.branch t v false) c₂ n c₃) (some' : n ≠ .falsum)
      (expansion : expansion implied v p n c₃ = .ok (.compiled f, c₄)) (event : watch (.merge f)) :
      Runs watch (.tree t) c f c₄
  | partLeaf {l : PlacedLeaf} {c c₁ : Compilation} {f : Formula} (leaf : c.leaf l = .ok (f, c₁)) :
      Runs watch (.part (.leaf l)) c f c₁
  | hit {d : PlacedInner} {left right : PlacedTree} {c : Compilation} {f : Formula}
      (found : c.cache.find? (c.key (.node d left right)) = some f)
      (event : watch (.reuse (.node d left right) c f)) :
      Runs watch (.part (.node d left right)) c f (c.looked (.node d left right))
  | miss {d : PlacedInner} {left right : PlacedTree} {c c₁ : Compilation} {f : Formula}
      (missing : c.cache.find? (c.key (.node d left right)) = none)
      (run : Runs watch (.tree (.node d left right)) (c.looked (.node d left right)) f c₁) :
      Runs watch (.part (.node d left right)) c f (c₁.remember (c.key (.node d left right)) f)
  | branch {t : PlacedTree} {v : Var} {phase : Bool} {c c₁ : Compilation} {p q : Stepper}
      {f : Formula} (decide : c.solver.decide v phase = .ok (true, p))
      (event : watch (.settle t c.solver p))
      (run : Runs watch (.tree t) { c with solver := p } f c₁) (undo : c₁.solver.undo v = .ok q) :
      Runs watch (.branch t v phase) c f { c₁ with solver := q }
  | branchFails {t : PlacedTree} {v : Var} {phase : Bool} {c : Compilation} {p q : Stepper}
      (decide : c.solver.decide v phase = .ok (false, p)) (undo : p.undo v = .ok q) :
      Runs watch (.branch t v phase) c .falsum { c with solver := q }
  | elsewhere {t : PlacedTree} {c : Compilation} (level : c.solver.atAssertionLevel = false) :
      Runs watch (.retry t) c .falsum c
  | retryFails {t : PlacedTree} {c : Compilation} {p : Stepper}
      (level : c.solver.atAssertionLevel = true) (learn : c.solver.assertLesson = .ok (false, p)) :
      Runs watch (.retry t) c .falsum { c with solver := p }
  | retry {t : PlacedTree} {c c₁ : Compilation} {p : Stepper} {f : Formula}
      (level : c.solver.atAssertionLevel = true) (learn : c.solver.assertLesson = .ok (true, p))
      (event : watch (.settle t c.solver p))
      (run : Runs watch (.tree t) { c with solver := p } f c₁) : Runs watch (.retry t) c f c₁

theorem expansion_ok {implied p n f : Formula} {v : Var} {c c' : Compilation}
    (run : expansion implied v p n c = .ok (.compiled f, c')) :
    ∃ name, c.solver.nameOf v = .ok name ∧
      ({ c with store := (c.store.decision name p n).2 }.conjoined
        [implied, (c.store.decision name p n).1]) = (f, c') := by
  simp only [expansion, bind_ok] at run
  obtain ⟨name, called, rest⟩ := run
  cases rest
  exact ⟨name, called, rfl⟩

/-! The recursion is a run. -/

abbrev Unwatched : Event → Prop := fun _ => True

variable {t : PlacedTree} {nested : Nat} {c c' : Compilation} {f : Formula}

theorem branch_runs {compile : CompilationStep} {v : Var} {phase : Bool}
    (below : ∀ c f c', compile c = .ok (.compiled f, c') → Runs Unwatched (.tree t) c f c')
    (run : branch compile v phase c = .ok (.compiled f, c')) :
    Runs Unwatched (.branch t v phase) c f c' := by
  simp only [branch, bind_ok, Prod.exists] at run
  obtain ⟨consistent, p, decided, rest⟩ := run
  cases consistent with
  | true =>
    simp only [if_true, bind_ok, pure_ok, Prod.exists, Prod.mk.injEq] at rest
    obtain ⟨result, c₁, compiled, q, undone, rfl, rfl⟩ := rest
    exact .branch decided trivial (below _ _ _ compiled) undone
  | false =>
    simp only [Bool.false_eq_true, if_false, bind_ok, pure_ok, Except.ok.injEq, exists_eq_left',
      Prod.mk.injEq, Outcome.compiled.injEq] at rest
    obtain ⟨q, undone, rfl, rfl⟩ := rest
    exact .branchFails decided undone

theorem retry_runs {compile : CompilationStep}
    (below : ∀ c f c', compile c = .ok (.compiled f, c') → Runs Unwatched (.tree t) c f c')
    (run : retry compile c = .ok (.compiled f, c')) : Runs Unwatched (.retry t) c f c' := by
  unfold retry at run
  split at run
  · rename_i level
    simp only [bind_ok, Prod.exists] at run
    obtain ⟨consistent, p, learnt, rest⟩ := run
    cases consistent with
    | true => exact .retry level learnt trivial (below _ _ _ rest)
    | false =>
      cases rest
      exact .retryFails level learnt
  · rename_i level
    cases run
    exact .elsewhere (Bool.eq_false_iff.mpr level)

theorem part_runs {compile : PlacedTree → CompilationStep}
    (below : ∀ c f c', compile t c = .ok (.compiled f, c') → Runs Unwatched (.tree t) c f c')
    (run : part compile nested t c = .ok (.compiled f, c')) : Runs Unwatched (.part t) c f c' := by
  cases t with
  | leaf l =>
    simp only [part, bind_ok, pure_ok, Prod.exists, Prod.mk.injEq, Outcome.compiled.injEq] at run
    obtain ⟨g, c₁, compiled, rfl, rfl⟩ := run
    exact .partLeaf compiled
  | node d left right =>
    simp only [part, cached, bind_ok] at run
    obtain ⟨_, reserved, rest⟩ := run
    have looked := SubproblemCache.find_query c.cache (c.key (.node d left right))
      (c.key (.node d left right))
    split at rest
    · rename_i g found
      cases rest
      exact .hit (looked.1.symm.trans found) trivial
    · rename_i missing
      simp only [bind_ok, Prod.exists] at rest
      obtain ⟨outcome, c₁, compiled, rest⟩ := rest
      cases outcome with
      | cancelled => simp at rest
      | compiled g =>
        simp only [pure_ok, Prod.mk.injEq, Outcome.compiled.injEq] at rest
        obtain ⟨rfl, rfl⟩ := rest
        exact .miss (looked.1.symm.trans missing) (below _ _ _ compiled)

theorem conjoin_runs {compile : PlacedTree → CompilationStep} {d : PlacedInner}
    {left right : PlacedTree} {implied : Formula} {c₁ : Compilation}
    (below : ∀ t c f c', compile t c = .ok (.compiled f, c') → Runs Unwatched (.tree t) c f c')
    (enter : c.enter (.node d left right) = .ok (implied, c₁))
    (apart : c₁.separator.isEmpty = true)
    (run : conjoin compile nested implied left right c₁ = .ok (.compiled f, c')) :
    Runs Unwatched (.tree (.node d left right)) c f c' := by
  unfold conjoin at run
  split at run
  · rename_i falsum
    cases run
    exact .contradiction (falsum ▸ enter) apart
  simp only [bind_ok, Prod.exists] at run
  obtain ⟨outcome, c₂, first, rest⟩ := run
  cases outcome with
  | cancelled => simp at rest
  | compiled l =>
    have first := part_runs (below left) first
    simp only at rest
    split at rest
    · rename_i falsum
      cases rest
      exact .leftFails enter apart (falsum ▸ first)
    rename_i some
    simp only [bind_ok, Prod.exists] at rest
    obtain ⟨outcome, c₃, second, rest⟩ := rest
    cases outcome with
    | cancelled => simp at rest
    | compiled r =>
      have second := part_runs (below right) second
      simp only at rest
      split at rest
      · rename_i falsum
        cases rest
        exact .rightFails enter apart first some (falsum ▸ second)
      · rename_i some'
        cases rest
        exact .join enter apart first some second some' trivial

theorem tree_runs {n : Nat} (run : tree n t nested c = .ok (.compiled f, c')) :
    Runs Unwatched (.tree t) c f c' := by
  induction n generalizing t nested c f c' with
  | zero => simp [tree] at run
  | succ n ih =>
    simp only [tree, bind_ok, Prod.exists] at run
    obtain ⟨implied, solver, store, reported, rest⟩ := run
    have enter : c.enter t = .ok (implied, { c with
        separator := (t.dynamicSeparator c.solver.value c.separator c.scratch).1
        scratch := (t.dynamicSeparator c.solver.value c.separator c.scratch).2
        solver, store }) := by
      simp only [Compilation.enter, reported]
    split at rest
    · rename_i apart
      cases t with
      | leaf l =>
        simp only [bind_ok, Prod.exists] at rest
        obtain ⟨g, c₂, leaf, rest⟩ := rest
        cases rest
        exact .leaf enter leaf
      | node d left right => exact conjoin_runs (fun _ _ _ _ => ih) enter apart rest
    · rename_i shared
      have shared := Bool.eq_false_iff.mpr shared
      simp only [bind_ok] at rest
      obtain ⟨v, choice, rest⟩ := rest
      split at rest
      · simp at rest
      simp only [bind_ok, Prod.exists] at rest
      obtain ⟨outcome, c₂, positive, rest⟩ := rest
      cases outcome with
      | cancelled => simp at rest
      | compiled p =>
        have positive := branch_runs (fun _ _ _ => ih) positive
        simp only at rest
        split at rest
        · rename_i falsum
          exact .failPositive enter shared choice (falsum ▸ positive) (retry_runs (fun _ _ _ => ih) rest)
        rename_i some
        simp only [bind_ok, Prod.exists] at rest
        obtain ⟨outcome, c₃, negative, rest⟩ := rest
        cases outcome with
        | cancelled => simp at rest
        | compiled m =>
          have negative := branch_runs (fun _ _ _ => ih) negative
          simp only at rest
          split at rest
          · rename_i falsum
            exact .failNegative enter shared choice positive some (falsum ▸ negative)
              (retry_runs (fun _ _ _ => ih) rest)
          · rename_i some'
            exact .expand enter shared choice positive some negative some' rest trivial

end Compilation

/-- Where the recursion starts. -/
def Compilation.first (s : Store) (p : Stepper) (t : PlacedTree) (handler : Handler) : Compilation :=
  { store := s, solver := p, handler := handler.start, workspace := ⟨t.depth + 1, t.widest + 1⟩ }

/-- A compilation of prepared clauses to a formula. -/
inductive Compiler.Yields (watch : Event → Prop) (m : Compiler) (s : Store) (handler : Handler) :
    Formula → Store → Prop
  | atomic (atomic : s.isAtomic m.nonUnits = true) : m.Yields watch s handler m.cnf s
  | contradiction {p : Stepper} (start : m.solver.start = .ok (false, p)) :
      m.Yields watch s handler .falsum s
  | searched {p : Stepper} {d : ClauseTree} {e : Elimination} {t : PlacedTree} {f : Formula}
      {c : Compilation} (start : m.solver.start = .ok (true, p))
      (tree : Dtree.minFill s m.nonUnits = .ok (d, e)) (place : d.place p = .ok t)
      (run : Compilation.Runs watch (.tree t) (.first s p t handler) f c) :
      m.Yields watch s handler (c.store.conj [m.units, f]).1 (c.store.conj [m.units, f]).2

/-- A compilation of a formula to a circuit, all events of which satisfy `watch`. -/
inductive Store.Yields (watch : Event → Prop) (s : Store) (f : Formula) (settings : Settings)
    (handler : Handler) : Circuit → Store → Prop
  | intro {m : Compiler} {s₁ s' : Store} {g : Formula}
      (prepare : Compiler.prepare (s.cnf f).2 (s.cnf f).1 settings = .ok (m, s₁))
      (compile : m.Yields watch s₁ handler g s') :
      s.Yields watch f settings handler
        ⟨g, mergeVars ((s.cnf f).2.vars f) ((s.cnf f).2.vars (s.cnf f).1)⟩ s'

theorem Compiler.compile_yields {m m' : Compiler} {s s' : Store} {handler handler' : Handler}
    {f : Formula} (run : m.compile s handler = .ok (.compiled f, m', s', handler')) :
    m.Yields Compilation.Unwatched s handler f s' := by
  unfold compile at run
  split at run
  · simp at run
  simp only at run
  split at run
  · rename_i atomic
    cases run
    exact .atomic atomic
  simp only [bind_ok, Prod.exists] at run
  obtain ⟨consistent, p, start, rest⟩ := run
  cases consistent with
  | false =>
    cases rest
    exact .contradiction start
  | true =>
    simp only [Bool.not_true, Bool.false_eq_true, if_false, bind_ok, Prod.exists] at rest
    obtain ⟨d, e, tree, t, place, outcome, c, compiled, rest⟩ := rest
    cases outcome with
    | cancelled => simp at rest
    | compiled g =>
      cases rest
      exact .searched start tree place (Compilation.tree_runs compiled)

theorem Store.compile_yields {s s' : Store} {f : Formula} {settings : Settings}
    {handler handler' : Handler} {d : Circuit}
    (run : s.compile f settings handler = .ok (some d, s', handler')) :
    s.Yields Compilation.Unwatched f settings handler d s' := by
  simp only [compile, bind_ok, Prod.exists] at run
  obtain ⟨m, s₁, prepare, outcome, m', s₂, handler₂, compiled, rest⟩ := run
  cases outcome with
  | cancelled => simp at rest
  | compiled g =>
    cases rest
    exact .intro prepare (Compiler.compile_yields compiled)

end ModelCounting
