import ModelCounting.Proofs.Caching
import ModelCounting.Proofs.Safety

/-!
Compilations with a budget of expansions. The handler is asked before each expansion and changes
nothing else, so a run with a budget is step for step the run without one, until the budget is spent.
Then every frame hands the cancellation on and none keeps a result, so the results kept are some of
those of the whole run.
-/

namespace ModelCounting

namespace Compilation

variable {c c' c₁ d : Compilation} {f g : Formula} {t : PlacedTree} {k n m nested : Nat}
  {scope : Var → Prop} {step : CompilationStep} {run run' : Except Fault (Outcome × Compilation)}
  {v : Var} {phase : Bool}

def limited (k : Nat) (c : Compilation) : Compilation :=
  { c with handler := .expansions k c.expansions }

/-- How a run with a budget ends that without one would end with `f` in the state `c'`: with the same,
or cancelled at the first expansion past the budget, with some of the results kept. -/
inductive Shadow (k : Nat) (f : Formula) (c' : Compilation) : Outcome × Compilation → Prop
  | whole (enough : c'.expansions ≤ k) : Shadow k f c' (.compiled f, c'.limited k)
  | cut {d : Compilation} (short : k < c'.expansions) (count : d.expansions = k + 1)
      (handler : d.handler = .expansions k (k + 1)) (within : d.cache.Within c'.cache) :
      Shadow k f c' (.cancelled, d)

def Shadows (k : Nat) (run run' : Except Fault (Outcome × Compilation)) : Prop :=
  ∀ f c' x, run = .ok (.compiled f, c') → run' = .ok x → Shadow k f c' x

namespace Shadows

theorem ok (enough : c.expansions ≤ k) :
    Shadows k (.ok (.compiled f, c)) (.ok (.compiled f, c.limited k)) := by
  rintro _ _ _ ⟨⟩ ⟨⟩
  exact .whole enough

theorem same {α : Type} {a : Except Fault α} {next next' : α → Except Fault (Outcome × Compilation)}
    (rest : ∀ y, a = .ok y → Shadows k (next y) (next' y)) : Shadows k (a >>= next) (a >>= next') := by
  intro f c' x run run'
  obtain ⟨y, first, run⟩ := bind_ok.mp run
  obtain ⟨_, first', run'⟩ := bind_ok.mp run'
  cases Except.ok.inj (first.symm.trans first')
  exact rest y first f c' x run run'

theorem bind {next : Outcome × Compilation → Except Fault (Outcome × Compilation)}
    (first : Shadows k run run') (cancelled : ∀ d, next (.cancelled, d) = .ok (.cancelled, d))
    (carries : ∀ f c g c', run = .ok (.compiled f, c) → next (.compiled f, c) = .ok (.compiled g, c') →
      c.Carries c')
    (rest : ∀ f c, run = .ok (.compiled f, c) → c.expansions ≤ k →
      Shadows k (next (.compiled f, c)) (next (.compiled f, c.limited k))) :
    Shadows k (run >>= next) (run' >>= next) := by
  intro g c' y ran ran'
  obtain ⟨⟨outcome, c⟩, before, ran⟩ := bind_ok.mp ran
  obtain ⟨x, before', ran'⟩ := bind_ok.mp ran'
  cases outcome with
  | cancelled => cases (cancelled c).symm.trans ran
  | compiled f =>
    have kept := carries f c g c' before ran
    cases first f c x before before' with
    | whole enough => exact rest f c before enough g c' y ran ran'
    | cut short count handler within =>
      cases (cancelled _).symm.trans ran'
      exact .cut (Nat.lt_of_lt_of_le short kept.expansions_le) count handler (within.trans kept.within)

end Shadows

def Shadowed (scope : Var → Prop) (n k : Nat) (step : CompilationStep) : Prop :=
  ∀ c, c.Orderly scope n → c.handler = .never → c.expansions ≤ k →
    Shadows k (step c) (step (c.limited k))

theorem enter_limited (run : c.enter t = .ok (f, c')) :
    (c.limited k).enter t = .ok (f, c'.limited k) := by
  unfold enter at *
  simp only [limited] at *
  split at run
  · cases run
    simp [*]
  · cases run

theorem leaf_limited {l : PlacedLeaf} (run : c.leaf l = .ok (f, c')) :
    (c.limited k).leaf l = .ok (f, c'.limited k) := by
  simp only [leaf, bind_ok, Prod.exists] at *
  obtain ⟨out, s, computed, rest⟩ := run
  refine ⟨out, s, computed, ?_⟩
  cases out <;> cases rest <;> rfl

theorem expansion_limited {implied p q : Formula}
    (run : expansion implied v p q c = .ok (.compiled f, c')) :
    expansion implied v p q (c.limited k) = .ok (.compiled f, c'.limited k) := by
  simp only [expansion, bind_ok] at *
  obtain ⟨name, called, rest⟩ := run
  refine ⟨name, called, ?_⟩
  cases rest
  rfl

theorem remember_limited {key : IndexSet} :
    (c.limited k).remember key f = (c.remember key f).limited k := by
  unfold remember
  split <;> rfl

theorem Orderly.withSolver {p : Stepper} (orderly : c.Orderly scope n)
    (names : p.names = c.solver.names) (steady : p.Steady) :
    { c with solver := p }.Orderly scope n where
  guarded := orderly.guarded.withSolver names
  steady := steady
  blank := orderly.blank
  count := (Carries.withSolver names).count.trans orderly.count

theorem branch_shadowed (below : Shadowed scope n k step) :
    Shadowed scope n k (branch step v phase) := by
  intro c orderly never le
  refine .same (a := c.solver.decide v phase) fun ⟨consistent, p⟩ decided => ?_
  cases consistent with
  | false => exact .same (a := p.undo v) fun q _ => .ok (c := { c with solver := q }) le
  | true =>
    have decided := orderly.withSolver (Stepper.decide_names decided)
      (orderly.steady.decide.answer _ decided).1
    intro f c' x run run'
    simp only [if_true, bind_ok, pure_ok, Prod.exists, Prod.mk.injEq] at run run'
    obtain ⟨_, c₁, compiled, q, undone, rfl, rfl⟩ := run
    obtain ⟨result, c₂, compiled', q', undone', rfl⟩ := run'
    cases below _ decided never le _ _ _ compiled compiled' with
    | whole enough =>
      obtain rfl := Except.ok.inj (undone.symm.trans undone')
      exact .whole enough
    | cut short count handler within => exact .cut short count handler within

theorem retry_shadowed (below : Shadowed scope n k step) : Shadowed scope n k (retry step) := by
  intro c orderly never le
  unfold retry
  change Shadows k _ (if c.solver.atAssertionLevel then _ else _)
  by_cases level : c.solver.atAssertionLevel = true
  · rw [if_pos level, if_pos level]
    refine .same (a := c.solver.assertLesson) fun ⟨consistent, p⟩ learnt => ?_
    cases consistent with
    | false => exact .ok le
    | true =>
      exact below _ (orderly.withSolver (Stepper.assertLesson_names learnt)
        (orderly.steady.assertLesson.answer _ learnt).1) never le
  · rw [if_neg level, if_neg level]
    exact .ok le

/-! Parts. -/

section

variable {compile : PlacedTree → CompilationStep} {left right : PlacedTree} {e : PlacedInner}
  {implied : Formula}

theorem cached_eq {step : CompilationStep} {nested : Nat} : cached step t nested c = (do
    c.workspace.reserve t.depth nested
    match (c.cache.query (c.key t)).1 with
    | some f => return (.compiled f, c.looked t)
    | none =>
      match ← step (c.looked t) with
      | (.compiled f, c') => return (.compiled f, c'.remember (c.key t) f)
      | (.cancelled, c') => return (.cancelled, c')) := rfl

theorem part_shadows (nested : Nat) (below : Shadowed scope n k (compile t))
    (runs : ∀ c f c', compile t c = .ok (.compiled f, c') → Runs Unwatched (.tree t) c f c')
    (sited : t.Sited n) (distinct : t.ids.Nodup) (orderly : c.Orderly scope n)
    (never : c.handler = .never) (le : c.expansions ≤ k) (reported : c.solver.unreported = false) :
    Shadows k (part compile nested t c) (part compile nested t (c.limited k)) := by
  cases t with
  | leaf l =>
    intro f c' x run run'
    simp only [part, bind_ok, pure_ok, Prod.exists, Prod.mk.injEq, Outcome.compiled.injEq] at run run'
    obtain ⟨_, _, compiled, rfl, rfl⟩ := run
    obtain ⟨_, _, compiled', rfl⟩ := run'
    cases Except.ok.inj ((leaf_limited compiled).symm.trans compiled')
    obtain ⟨store, rfl⟩ := leaf_beside compiled
    exact .whole le
  | node d left right =>
    have looked := SubproblemCache.find_query c.cache (c.key (.node d left right))
      (c.key (.node d left right))
    change Shadows k (cached _ _ nested c) (cached _ _ nested (c.limited k))
    rw [cached_eq, cached_eq]
    refine .same (a := c.workspace.reserve _ nested) fun _ _ => ?_
    have alike : ((c.limited k).cache.query ((c.limited k).key (.node d left right))).1 =
        (c.cache.query (c.key (.node d left right))).1 := rfl
    rw [alike]
    cases entry : (c.cache.query (c.key (.node d left right))).1 with
    | some g => exact .ok le
    | none =>
      have later := orderly.looked (.node d left right)
      have missing := looked.2.trans (looked.1.symm.trans entry)
      refine (below _ later never le).bind (fun _ => rfl) (fun f c₁ g c' ran rest => ?_)
        fun f c₁ ran enough => ?_
      · cases rest
        exact (runs _ _ _ ran).remember sited distinct later reported missing
      · obtain ⟨cache, same⟩ := remember_beside (c.key (.node d left right)) f c₁
        have whole : Shadows k (.ok (.compiled f, c₁.remember (c.key (.node d left right)) f))
            (.ok (.compiled f, (c₁.remember (c.key (.node d left right)) f).limited k)) :=
          .ok (by rwa [same])
        rw [← remember_limited] at whole
        exact whole

theorem conj_carries {fs : List Formula} (run : (if g = .falsum
      then (pure (.compiled .falsum, c) : Except Fault (Outcome × Compilation))
      else pure (c.conj fs)) = .ok (.compiled f, c')) : c.Carries c' := by
  split at run
  · cases run
    exact .refl c
  · cases run
    exact .withStore c _

theorem conjoin_shadows (below : ∀ t, t.Sited n → t.ids.Nodup → Shadowed scope n k (compile t))
    (runs : ∀ t c f c', compile t c = .ok (.compiled f, c') → Runs Unwatched (.tree t) c f c')
    (sited : (Dtree.node e left right).Sited n) (distinct : (Dtree.node e left right).ids.Nodup)
    (orderly : c.Orderly scope n) (never : c.handler = .never) (le : c.expansions ≤ k)
    (reported : c.solver.unreported = false) :
    Shadows k (conjoin compile nested implied left right c)
      (conjoin compile nested implied left right (c.limited k)) := by
  rw [sited.ids_node, List.nodup_append] at distinct
  unfold conjoin
  by_cases falsum : implied = .falsum
  · rw [if_pos falsum, if_pos falsum]
    exact .ok le
  rw [if_neg falsum, if_neg falsum]
  have first := part_shadows nested (below left sited.1.1 distinct.1) (runs left)
    sited.1.1 distinct.1 orderly never le reported
  refine first.bind (fun _ => rfl) (fun l c₁ g c' ran rest => ?_) fun l c₁ ran enough => ?_
  · simp only at rest
    split at rest
    · cases rest
      exact .refl _
    · simp only [bind_ok, Prod.exists] at rest
      obtain ⟨outcome, c₂, second, rest⟩ := rest
      cases outcome with
      | cancelled => simp at rest
      | compiled r => exact (part_runs (runs right) second).carries.trans (conj_carries rest)
  · have ran := part_runs (runs left) ran
    simp only
    by_cases falsum : l = .falsum
    · rw [if_pos falsum, if_pos falsum]
      exact .ok enough
    rw [if_neg falsum, if_neg falsum]
    have between := ran.orderly sited.1.1 reported orderly
    have reported₁ := (ran.blank sited.1.1 orderly.blank reported).2 falsum
    have second := part_shadows nested (below right sited.1.2 distinct.2.1) (runs right)
      sited.1.2 distinct.2.1 between (ran.carries.handler never) enough reported₁
    refine second.bind (fun _ => rfl) (fun r c₂ g c' _ rest => conj_carries rest)
      fun r c₂ _ enough => ?_
    simp only
    by_cases falsum : r = .falsum
    · rw [if_pos falsum, if_pos falsum]
      exact .ok enough
    · rw [if_neg falsum, if_neg falsum]
      exact .ok (c := { c₂ with store := _ }) enough

end

/-! Frames. -/

variable {implied p q : Formula}

theorem expansion_shadows (le : c.expansions ≤ k) :
    Shadows k (expansion implied v p q c) (expansion implied v p q (c.limited k)) := by
  intro f c' x run run'
  rw [expansion_limited run] at run'
  cases run'
  obtain ⟨store, rfl⟩ := expansion_beside run
  exact .whole le

theorem negative_carries (run : (if q = .falsum then retry (tree m t 0) c
      else expansion implied v p q c) = .ok (.compiled f, c')) : c.Carries c' := by
  split at run
  · exact (retry_runs (fun _ _ _ => tree_runs) run).carries
  · obtain ⟨store, rfl⟩ := expansion_beside run
    exact .withStore c store

theorem positive_carries (run : (if p = .falsum then retry (tree m t 0) c
      else do
        match ← branch (tree m t (nested + 1)) v false c with
        | (.cancelled, c) => return (.cancelled, c)
        | (.compiled q, c) =>
          if q = .falsum then retry (tree m t 0) c
          else expansion implied v p q c) = .ok (.compiled f, c')) : c.Carries c' := by
  split at run
  · exact (retry_runs (fun _ _ _ => tree_runs) run).carries
  · simp only [bind_ok, Prod.exists] at run
    obtain ⟨outcome, c₁, negative, rest⟩ := run
    cases outcome with
    | cancelled => simp at rest
    | compiled q =>
      exact (branch_runs (fun _ _ _ => tree_runs) negative).carries.trans (negative_carries rest)

theorem frame_shadows
    (below : ∀ t nested, t.Sited n → t.ids.Nodup → Shadowed scope n k (tree m t nested))
    (sited : t.Sited n) (distinct : t.ids.Nodup) (orderly : c.Orderly scope n)
    (never : c.handler = .never) (le : c.expansions ≤ k) (reported : c.solver.unreported = false) :
    Shadows k (frame (tree m) t nested implied c) (frame (tree m) t nested implied (c.limited k)) := by
  unfold frame
  change Shadows k _ (if c.separator.isEmpty then _ else _)
  by_cases apart : c.separator.isEmpty = true
  · rw [if_pos apart, if_pos apart]
    cases t with
    | leaf l =>
      intro f c' x run run'
      simp only [bind_ok, Prod.exists] at run run'
      obtain ⟨g, c₁, compiled, rest⟩ := run
      obtain ⟨_, _, compiled', rest'⟩ := run'
      cases Except.ok.inj ((leaf_limited compiled).symm.trans compiled')
      obtain ⟨store, rfl⟩ := leaf_beside compiled
      cases rest
      cases rest'
      exact .whole le
    | node e left right =>
      exact conjoin_shadows (fun t => below t 0) (fun _ _ _ _ => tree_runs) sited distinct orderly never
        le reported
  rw [if_neg apart, if_neg apart]
  refine .same (a := c.chooseVariable t nested) fun v _ => ?_
  have goes : (!c.handler.expand.1) = false := by rw [never]; rfl
  rw [if_neg (Bool.eq_false_iff.mp goes)]
  have counted := (Carries.counted c).handler never
  by_cases granted : c.expansions + 1 ≤ k
  · have goes' : (!(c.limited k).handler.expand.1) = false := by
      simpa [limited, Handler.expand] using granted
    rw [if_neg (Bool.eq_false_iff.mp goes')]
    have orderly' : c.counted.Orderly scope n :=
      ⟨⟨orderly.guarded.wellFormed, orderly.guarded.names, orderly.guarded.cache⟩, orderly.steady,
        orderly.blank, orderly.count⟩
    have yes : Shadows k _ (branch (tree m t (nested + 1)) v true (c.counted.limited k)) :=
      branch_shadowed (below t (nested + 1) sited distinct) c.counted orderly' counted granted
    refine yes.bind (fun _ => rfl) (fun p c₁ g c' _ rest => positive_carries rest)
      fun p c₁ ran enough => ?_
    have ran := branch_runs (fun _ _ _ => tree_runs) ran
    have between := ran.orderly sited trivial orderly'
    have never₁ := ran.carries.handler counted
    simp only
    by_cases falsum : p = .falsum
    · rw [if_pos falsum, if_pos falsum]
      exact retry_shadowed (below t 0 sited distinct) c₁ between never₁ enough
    rw [if_neg falsum, if_neg falsum]
    refine (branch_shadowed (below t (nested + 1) sited distinct) c₁ between never₁ enough).bind
      (fun _ => rfl) (fun q c₂ g c' _ rest => negative_carries rest) fun q c₂ ran enough => ?_
    have ran := branch_runs (fun _ _ _ => tree_runs) ran
    simp only
    by_cases falsum : q = .falsum
    · rw [if_pos falsum, if_pos falsum]
      exact retry_shadowed (below t 0 sited distinct) c₂ (ran.orderly sited trivial between)
        (ran.carries.handler never₁) enough
    · rw [if_neg falsum, if_neg falsum]
      exact expansion_shadows enough
  -- The handler refuses here, before anything else happens.
  · have spent : c.expansions = k := by omega
    have refused : (!(c.limited k).handler.expand.1) = true := by
      simpa [limited, Handler.expand] using granted
    intro f c' x run run'
    rw [if_pos refused] at run'
    cases run'
    simp only [bind_ok, Prod.exists] at run
    obtain ⟨outcome, c₁, positive, rest⟩ := run
    cases outcome with
    | cancelled => simp at rest
    | compiled p =>
      have kept : c.counted.Carries c' :=
        (branch_runs (fun _ _ _ => tree_runs) positive).carries.trans (positive_carries rest)
      subst spent
      exact .cut kept.expansions_le rfl rfl kept.within

/-- A recursion with a budget. -/
theorem tree_shadowed (sited : t.Sited n) (distinct : t.ids.Nodup) :
    Shadowed scope n k (tree m t nested) := by
  induction m generalizing t nested with
  | zero => exact fun _ _ _ _ _ _ _ run => by cases run
  | succ m ih =>
    intro c orderly never le f c' x run run'
    rw [tree_succ] at run run'
    obtain ⟨⟨implied, c₁⟩, enter, rest⟩ := bind_ok.mp run
    obtain ⟨_, enter', rest'⟩ := bind_ok.mp run'
    cases Except.ok.inj ((enter_limited enter).symm.trans enter')
    obtain ⟨beside, reported, _⟩ := enter_beside enter
    exact frame_shadows (fun _ _ => ih) sited distinct (orderly.enter enter)
      (beside.carries.handler never) (beside.expansions.trans_le le) reported f c' x rest rest'

end Compilation

/-! Compilations of prepared clauses. -/

namespace Compiler

open Store Compilation

variable {s s' s₁ : Store} {f g : Formula} {settings : Settings} {m m₁ : Compiler} {h₁ : Handler}

/-- What is handed out after the recursion. -/
def finish (m : Compiler) (t : PlacedTree) (e : Elimination) (x : Outcome × Compilation) :
    Outcome × Compiler × Store × Handler :=
  let m := { m with
    used := true
    solver := x.2.solver
    cache := x.2.cache
    stats := {
      expansions := x.2.expansions
      cacheHits := x.2.cache.hits
      cacheMisses := x.2.cache.misses
      cacheEntries := x.2.cache.size
      depth := t.depth
      widest := t.widest
      treewidth := e.width } }
  match x.1 with
  | .cancelled => (.cancelled, m, x.2.store, x.2.handler)
  | .compiled f =>
    (.compiled (x.2.store.conj [m.units, f]).1, m, (x.2.store.conj [m.units, f]).2, x.2.handler)

/-- A compilation is over before its recursion, whatever the handler, or hands out what that gives. -/
theorem compile_course (unused : m.used = false)
    (whole : m.compile s .never = .ok (.compiled g, m₁, s₁, h₁)) :
    (m₁.stats = m.stats ∧
      ∀ handler : Handler, m.compile s handler = .ok (.compiled g, m₁, s₁, handler.start)) ∨
    ∃ p d e t, m.solver.start = .ok (true, p) ∧ Dtree.minFill s m.nonUnits = .ok (d, e) ∧
      d.place p = .ok t ∧ ∀ handler, m.compile s handler =
        (tree (nestingBound p t) t 0 (.first s p t handler)).map (m.finish t e) := by
  unfold compile at *
  simp only [unused, Bool.false_eq_true, if_false] at *
  split at whole
  · rename_i atomic
    cases whole
    exact .inl ⟨rfl, fun handler => by rw [if_pos atomic]; rfl⟩
  rename_i compound
  simp only [if_neg compound]
  obtain ⟨⟨consistent, p⟩, start, rest⟩ := bind_ok.mp whole
  cases consistent with
  | false =>
    cases rest
    exact .inl ⟨rfl, fun handler => by rw [start]; rfl⟩
  | true =>
    obtain ⟨⟨d, e⟩, built, rest⟩ := bind_ok.mp rest
    obtain ⟨t, placed, _⟩ := bind_ok.mp rest
    refine .inr ⟨p, d, e, t, start, built, placed, fun handler => ?_⟩
    rw [start]
    change (Dtree.minFill s m.nonUnits >>= _) = _
    rw [built]
    change (d.place p >>= _) = _
    rw [placed]
    change (tree (nestingBound p t) t 0 (.first s p t handler) >>= _) = _
    rcases tree (nestingBound p t) t 0 (.first s p t handler) with _ | ⟨outcome, c⟩
    · rfl
    · cases outcome <;> rfl

/-- A compilation with a budget of expansions is the same compilation if the budget covers all of
them. Otherwise it is cancelled at the first one past the budget, and what it has kept until then is
kept by the whole compilation too. -/
theorem compile_budget (reachable : s.Reachable) (known : f ∈ s)
    (prepared : prepare s f settings = .ok (m, s'))
    (whole : m.compile s' .never = .ok (.compiled g, m₁, s₁, h₁)) (k count : Nat) :
    (m₁.stats.expansions ≤ k → m.compile s' (.expansions k count) =
        .ok (.compiled g, m₁, s₁, .expansions k m₁.stats.expansions)) ∧
      (k < m₁.stats.expansions → ∃ m₂ s₂ h₂, m.compile s' (.expansions k count) =
        .ok (.cancelled, m₂, s₂, h₂) ∧ m₂.stats.expansions = k + 1 ∧ h₂.count? = some (k + 1) ∧
          ∀ key f, m₂.cache.find? key = some f → m₁.cache.find? key = some f) := by
  have ready := prepare_ready reachable.wellFormed known prepared
  rcases compile_course ready.unused whole with ⟨stats, early⟩ | ⟨p, d, e, t, start, tree, place, course⟩
  · rw [(prepare_fresh prepared).2] at stats
    rw [stats]
    exact ⟨fun _ => early _, nofun⟩
  · obtain ⟨⟨Γ, calm⟩, _⟩ := ready.started start
    obtain ⟨sited, _, distinct⟩ := ((ready.tree (minFill_compound tree) start).answer tree).answer place
    rw [← sited.ids_eq] at distinct
    have names := (prepare_prepared reachable.wellFormed known prepared).2.names
    have orderly : (first s' p t .never).Orderly (· ∈ s.vars f) p.core.varCount :=
      ⟨⟨ready.wellFormed, names.congr (Stepper.start_names start), fun key g found => by
        simp [Compilation.first, SubproblemCache.find?] at found⟩, calm.failed.steady,
        fun key g found => by simp [Compilation.first, SubproblemCache.find?] at found,
        calm.count.symm⟩
    obtain ⟨Γ', safe⟩ := ready.safe start tree place (.expansions k count)
    obtain ⟨x, ran, _⟩ := safe.delivers
    have limited : m.compile s' (.expansions k count) = .ok (m.finish t e x) := by
      rw [course, ran]
      rfl
    rw [course] at whole
    cases full : Compilation.tree (nestingBound p t) t 0 (.first s' p t .never) with
    | error fault =>
      rw [full] at whole
      cases whole
    | ok y =>
      rw [full] at whole
      obtain ⟨outcome, c⟩ := y
      cases outcome with
      | cancelled => cases whole
      | compiled f' =>
        cases whole
        cases tree_shadowed sited distinct _ orderly rfl (Nat.zero_le k) _ _ _ full ran with
        | whole enough =>
          exact ⟨fun _ => limited, fun short => absurd enough (Nat.not_le.mpr short)⟩
        | cut short count handler within =>
          refine ⟨fun enough => absurd enough (Nat.not_le.mpr short), fun _ =>
            ⟨_, _, _, limited, count, ?_, within⟩⟩
          exact congrArg Handler.count? handler

/-- Three expansions are enough for three. With one the compilation is cancelled at the second, when it has
kept a subproblem. -/
theorem compile_budget_knot : ∃ m s' g m₁ s₁ h₁, prepare knot.2 knot.1 {} = .ok (m, s') ∧
    m.compile s' .never = .ok (.compiled g, m₁, s₁, h₁) ∧
    m.compile s' (.expansions 3 0) = .ok (.compiled g, m₁, s₁, .expansions 3 3) ∧
      ∃ m₂ s₂ h₂, m.compile s' (.expansions 1 0) = .ok (.cancelled, m₂, s₂, h₂) ∧
        m₂.stats.expansions = 2 ∧ h₂.count? = some 2 ∧ m₂.cache.size = 1 ∧
          ∀ key f, m₂.cache.find? key = some f → m₁.cache.find? key = some f := by
  have ran : Delivers (prepare knot.2 knot.1 {}) fun x =>
      Delivers (x.1.compile x.2 .never) (fun y => y.1 ≠ .cancelled ∧ y.2.1.stats.expansions = 3) ∧
        Delivers (x.1.compile x.2 (.expansions 1 0)) fun y => y.2.1.cache.size = 1 := by decide +kernel
  obtain ⟨⟨m, s'⟩, prepared, ⟨⟨outcome, m₁, s₁, h₁⟩, whole, goes, count⟩, ⟨_, m₂, s₂, h₂⟩, short, kept⟩ := ran
  replace count : m₁.stats.expansions = 3 := count
  cases outcome with
  | cancelled => exact absurd rfl goes
  | compiled g =>
    have budget := compile_budget knot_reachable knot_mem prepared whole
    have enough := (budget 3 0).1 (Nat.le_of_eq count)
    obtain ⟨m₂', s₂', h₂', short', stats, answered, within⟩ := (budget 1 0).2 (by omega)
    cases short.symm.trans short'
    exact ⟨m, s', g, m₁, s₁, h₁, prepared, whole, count ▸ enough, m₂, s₂, h₂, short, stats, answered, kept,
      within⟩

end Compiler

end ModelCounting
