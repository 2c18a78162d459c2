import ModelCounting.Proofs.Repetition
import ModelCounting.Proofs.Search.Indifference

/-!
Settings that make no difference to a compilation. All decisions are made along the tree, and the
solver only propagates and learns. So two solvers whose settings differ in nothing but rates, restarts
and limits lead to the same circuit and the same tally.
-/

namespace ModelCounting

namespace Dtree

variable {p p' : Stepper}

theorem place_alike (same : p.plain = p'.plain) (d : ClauseTree) : d.place p = d.place p' := by
  induction d with
  | leaf l =>
    unfold place PlacedLeaf.place
    rw [Stepper.literal?_eq same]
  | node e left right ih ih' =>
    unfold place
    rw [ih, ih']

end Dtree

namespace Compilation

variable {c c' : Compilation} {t left right : PlacedTree} {nested n : Nat} {implied : Formula}

def plain (c : Compilation) : Compilation := { c with solver := c.solver.plain }

theorem withSolver_plain (same : c.plain = c'.plain) {p p' : Stepper} (solvers : p.plain = p'.plain) :
    { c with solver := p }.plain = { c' with solver := p' }.plain :=
  (congrArg₂ (fun (c : Compilation) solver => { c with solver }) same solvers :)

theorem plain_solver (same : c.plain = c'.plain) : c.solver.plain = c'.solver.plain :=
  congrArg solver same

def Blind {α : Type} (step : Compilation → Except Fault (α × Compilation)) : Prop :=
  ∀ c c', c.plain = c'.plain → Alike (fun x => (x.1, x.2.plain)) (step c) (step c')

namespace Blind

variable {α β γ : Type} {step : Compilation → Except Fault (α × Compilation)}

theorem pure (a : α) : Blind fun c => .ok (a, c) := fun _ _ same => .ok_pair same

theorem bind {k : α × Compilation → Except Fault (β × Compilation)} (first : Blind step)
    (rest : ∀ a, Blind fun c => k (a, c)) : Blind fun c => step c >>= k := by
  intro c c' same
  exact (first c c' same).bind_pair fun a d d' same => rest a d d' same

theorem read {x : Compilation → γ} {k : γ → Compilation → Except Fault (α × Compilation)}
    (plain : ∀ c, x c.plain = x c) (rest : ∀ y, Blind (k y)) : Blind fun c => k (x c) c := by
  intro c c' same
  have equal : x c = x c' := by rw [← plain c, same, plain c']
  simp only [equal]
  exact rest (x c') c c' same

theorem ask {a : Compilation → Except Fault γ} {k : γ → Compilation → Except Fault (α × Compilation)}
    (plain : ∀ c, a c.plain = a c) (rest : ∀ x, Blind (k x)) : Blind fun c => a c >>= fun x => k x c :=
  read (k := fun answer c => answer >>= fun x => k x c) plain fun answer => by
    cases answer with
    | ok x => exact rest x
    | error fault => exact fun _ _ _ => .error

theorem cond {x : Compilation → Bool} {y n : Compilation → Except Fault (α × Compilation)}
    (plain : ∀ c, x c.plain = x c) (yes : Blind y) (no : Blind n) :
    Blind fun c => if x c then y c else n c :=
  read (k := fun b c => if b then y c else n c) plain fun b => by
    cases b with
    | true => exact yes
    | false => exact no

theorem after {u : Compilation → Compilation} (plain : ∀ c, (u c).plain = u c.plain)
    (blind : Blind step) : Blind fun c => step (u c) := by
  intro c c' same
  exact blind (u c) (u c') (by rw [plain, plain, same])

end Blind

/-! Parts of a frame. -/

theorem enter_eq : c.enter t = do
    let x ← c.solver.newlyImplied t.vars c.store
    return (x.1, { c with
      separator := (t.dynamicSeparator c.solver.value c.separator c.scratch).1
      scratch := (t.dynamicSeparator c.solver.value c.separator c.scratch).2
      solver := x.2.1
      store := x.2.2 }) := by
  unfold enter
  cases c.solver.newlyImplied t.vars c.store <;> rfl

theorem enter_blind : Blind (enter t) := by
  intro c c' same
  have stores : c.store = c'.store := (congrArg store same :)
  rw [enter_eq, enter_eq, stores]
  refine (Stepper.newlyImplied_alike (plain_solver same)).bind fun ⟨f, p, s⟩ ⟨f', p', s'⟩ alike => .pure ?_
  simp only [Prod.mk.injEq] at alike
  obtain ⟨rfl, solvers, rfl⟩ := alike
  exact (congrArg₂ (fun (c : Compilation) solver => (f, { c with
    separator := (t.dynamicSeparator c.solver.value c.separator c.scratch).1
    scratch := (t.dynamicSeparator c.solver.value c.separator c.scratch).2
    solver
    store := s })) same solvers :)

theorem leaf_blind {l : PlacedLeaf} : Blind (leaf · l) :=
  Blind.ask (a := fun c => leafTerms c.solver.value c.solver.litOf l.lits [] c.store) (fun _ => rfl)
    fun ⟨terms, s⟩ => by
      cases terms with
      | none => exact Blind.after (u := fun c => { c with store := s }) (fun _ => rfl) (.pure _)
      | some terms =>
        exact Blind.after (u := fun c => { c with store := (s.disj terms).2 }) (fun _ => rfl) (.pure _)

theorem conj_blind {fs : List Formula} : Blind fun c => .ok (c.conj fs) :=
  Blind.read (x := fun c => c.store.conj fs)
    (k := fun x c => .ok (Outcome.compiled x.1, { c with store := x.2 })) (fun _ => rfl)
    fun x => Blind.after (u := fun c => { c with store := x.2 }) (fun _ => rfl) (.pure _)

theorem expansion_blind {v : Var} {p q : Formula} : Blind (expansion implied v p q) := by
  rw [expansion_eq]
  refine Blind.ask (a := fun c => c.solver.nameOf v) (fun _ => rfl) fun name => ?_
  refine Blind.read (x := fun c => c.store.decision name p q)
    (k := fun x c => .ok ({ c with store := x.2 }.conj [implied, x.1])) (fun _ => rfl) fun x => ?_
  exact Blind.after (u := fun c => { c with store := x.2 }) (fun _ => rfl) conj_blind

/-! The recursion. -/

theorem branch_blind {compile : CompilationStep} {v : Var} {phase : Bool} (below : Blind compile) :
    Blind (branch compile v phase) := by
  have close (result : Outcome) : Blind fun c => do
      let solver ← c.solver.undo v
      return (result, { c with solver }) := by
    intro c c' same
    exact (Stepper.undo_alike (plain_solver same)).bind fun p p' solvers =>
      .ok_pair (withSolver_plain same solvers)
  intro c c' same
  refine (Stepper.decide_alike (plain_solver same)).bind_pair fun consistent p p' solvers => ?_
  have same := withSolver_plain same solvers
  cases consistent with
  | true => exact Blind.bind below close _ _ same
  | false => exact close (.compiled .falsum) _ _ same

theorem retry_blind {compile : CompilationStep} (below : Blind compile) : Blind (retry compile) := by
  refine Blind.cond (x := fun c => c.solver.atAssertionLevel) (fun _ => rfl) ?_ (.pure _)
  intro c c' same
  refine (Stepper.assertLesson_alike (plain_solver same)).bind_pair fun consistent p p' solvers => ?_
  have same := withSolver_plain same solvers
  cases consistent with
  | true => exact below _ _ same
  | false => exact Blind.pure (Outcome.compiled .falsum) _ _ same

theorem remember_plain {key : IndexSet} {f : Formula} : (c.remember key f).plain = c.plain.remember key f := by
  unfold remember
  split <;> rfl

theorem part_blind {compile : PlacedTree → CompilationStep} (below : Blind (compile t)) :
    Blind (part compile nested t) := by
  cases t with
  | leaf l => exact Blind.bind leaf_blind fun f => .pure (Outcome.compiled f)
  | node d left right =>
    intro c c' same
    have rooms : c.workspace = c'.workspace := (congrArg workspace same :)
    have caches : c.cache = c'.cache := (congrArg cache same :)
    have keys : c.key (.node d left right) = c'.key (.node d left right) := (congrArg (key _) same :)
    have looked : (c.looked (.node d left right)).plain = (c'.looked (.node d left right)).plain :=
      (congrArg (looked _) same :)
    change Alike _ (cached (compile _) _ nested c) (cached (compile _) _ nested c')
    rw [cached_eq, cached_eq, rooms, keys, caches]
    refine Alike.bind_same fun _ => ?_
    cases (c'.cache.query (c'.key (.node d left right))).1 with
    | some f => exact .ok_pair looked
    | none =>
      refine (below _ _ looked).bind_pair fun outcome c₁ c₁' same => ?_
      cases outcome with
      | cancelled => exact .ok_pair same
      | compiled f => exact .ok_pair (by rw [remember_plain, remember_plain, same])

theorem conjoin_blind {compile : PlacedTree → CompilationStep} (below : ∀ t, Blind (compile t)) :
    Blind (conjoin compile nested implied left right) := by
  unfold conjoin
  by_cases falsum : implied = .falsum
  · simp only [if_pos falsum]
    exact .pure (Outcome.compiled .falsum)
  simp only [if_neg falsum]
  refine Blind.bind (part_blind (below left)) fun outcome => ?_
  cases outcome with
  | cancelled => exact .pure Outcome.cancelled
  | compiled l =>
    by_cases falsum : l = .falsum
    · simp only [if_pos falsum]
      exact .pure (Outcome.compiled .falsum)
    simp only [if_neg falsum]
    refine Blind.bind (part_blind (below right)) fun outcome => ?_
    cases outcome with
    | cancelled => exact .pure Outcome.cancelled
    | compiled r =>
      by_cases falsum : r = .falsum
      · simp only [if_pos falsum]
        exact .pure (Outcome.compiled .falsum)
      simp only [if_neg falsum]
      exact conj_blind

theorem frame_blind {compile : PlacedTree → Nat → CompilationStep}
    (below : ∀ t nested, Blind (compile t nested)) : Blind (frame compile t nested implied) := by
  refine Blind.cond (x := fun c => c.separator.isEmpty) (fun _ => rfl) ?_ ?_
  · cases t with
    | leaf l => exact Blind.bind leaf_blind fun f => conj_blind
    | node d left right => exact conjoin_blind fun t => below t 0
  refine Blind.ask (a := fun c => c.chooseVariable t nested) (fun _ => rfl) fun v => ?_
  refine Blind.cond (x := fun c => !c.handler.expand.1) (fun _ => rfl)
    (Blind.after (u := counted) (fun _ => rfl) (.pure Outcome.cancelled)) ?_
  refine Blind.after (u := counted) (fun _ => rfl)
    (Blind.bind (branch_blind (below t (nested + 1))) fun outcome => ?_)
  cases outcome with
  | cancelled => exact .pure Outcome.cancelled
  | compiled p =>
    by_cases falsum : p = .falsum
    · simp only [if_pos falsum]
      exact retry_blind (below t 0)
    simp only [if_neg falsum]
    refine Blind.bind (branch_blind (below t (nested + 1))) fun outcome => ?_
    cases outcome with
    | cancelled => exact .pure Outcome.cancelled
    | compiled q =>
      by_cases falsum : q = .falsum
      · simp only [if_pos falsum]
        exact retry_blind (below t 0)
      simp only [if_neg falsum]
      exact expansion_blind

theorem tree_blind : Blind (tree n t nested) := by
  induction n generalizing t nested with
  | zero => exact fun _ _ _ => .error
  | succ n ih =>
    rw [funext fun c => tree_succ n t nested c]
    exact Blind.bind enter_blind fun implied => frame_blind fun t nested => ih

end Compilation

namespace Compiler

variable {m m' : Compiler} {s : Store} {f : Formula} {settings settings' : Settings} {handler : Handler}

def plain (m : Compiler) : Compiler := { m with solver := m.solver.plain }

theorem prepare_alike (same : settings.minimize = settings'.minimize) :
    Alike (fun x => (x.1.plain, x.2)) (prepare s f settings) (prepare s f settings') := by
  unfold prepare
  split
  · exact .error
  refine .bind_same fun ⟨g, s₁⟩ => .bind_same fun ⟨h, s₂⟩ => ?_
  refine (Stepper.add_alike (Stepper.plain_fresh same)).bind fun p p' solvers => .pure ?_
  simp only [plain, solvers]

theorem compile_alike (same : m.plain = m'.plain) :
    Alike (fun x => (x.1, x.2.1.plain, x.2.2)) (m.compile s handler) (m'.compile s handler) := by
  obtain ⟨cnf, units, nonUnits, q, cache, stats, used⟩ := m
  obtain ⟨_, _, _, q', _, _, _⟩ := m'
  have solvers : q.plain = q'.plain := congrArg solver same
  obtain ⟨rfl, rfl, rfl, _, rfl, rfl, rfl⟩ := Compiler.mk.inj same
  unfold compile
  split
  · exact .error
  simp only
  split
  · exact .pure (by simp only [plain, solvers])
  refine (Stepper.start_alike solvers).bind_pair fun consistent p p' solvers => ?_
  cases consistent with
  | false => exact .pure (by simp only [plain, solvers])
  | true =>
    refine .bind_same fun ⟨d, e⟩ => ?_
    simp only [Dtree.place_alike solvers]
    refine .bind_same fun t => ?_
    have first : (Compilation.first s p t handler).plain = (Compilation.first s p' t handler).plain :=
      congrArg (Compilation.first s · t handler) solvers
    have count : p.varCount = p'.varCount := (congrArg Stepper.varCount solvers :)
    rw [nestingBound, nestingBound, count]
    refine (Compilation.tree_blind _ _ first).bind_pair fun outcome c c' same => ?_
    obtain ⟨stores, solvers, handlers, _, caches, expansions, _, _⟩ := Compilation.mk.inj same
    cases outcome with
    | cancelled => exact .pure (by simp only [plain, stores, solvers, handlers, caches, expansions])
    | compiled g => exact .pure (by simp only [plain, stores, solvers, handlers, caches, expansions])

end Compiler

namespace Store

/-- Compiles a conjunction of clauses and tallies the work. -/
def compileClauses (s : Store) (f : Formula) (settings : Settings) (handler : Handler) :
    Except Fault (Outcome × CompilationStats × Store × Handler) := do
  let (m, s) ← Compiler.prepare s f settings
  let (outcome, m, s, handler) ← m.compile s handler
  return (outcome, m.stats, s, handler)

variable {s : Store} {f : Formula} {settings settings' : Settings} {r : Formula × Store}

theorem compileClauses_alike (same : settings.minimize = settings'.minimize) (handler : Handler) :
    Alike id (s.compileClauses f settings handler) (s.compileClauses f settings' handler) := by
  unfold compileClauses
  refine (Compiler.prepare_alike same).bind fun ⟨m, s₁⟩ ⟨m', s₁'⟩ alike => ?_
  obtain ⟨compilers, rfl⟩ := Prod.mk.inj alike
  refine (Compiler.compile_alike compilers).bind fun ⟨o, m₁, rest⟩ ⟨o', m₁', rest'⟩ alike => .pure ?_
  obtain ⟨rfl, compilers, rfl⟩ : o = o' ∧ m₁.plain = m₁'.plain ∧ rest = rest' := by
    simpa only [Prod.mk.injEq] using alike
  have stats : m₁.stats = m₁'.stats := (congrArg Compiler.stats compilers :)
  rw [stats]

theorem compileClauses_delivers (wf : s.WellFormed) (known : f ∈ s) (cnf : s.isCnf f = true)
    (fixed : s.fixBackbone f = .ok r) (settings : Settings) (handler : Handler) :
    Delivers (s.compileClauses f settings handler) fun _ => True := by
  unfold compileClauses
  refine (Compiler.prepare_delivers wf known cnf fixed settings).bind fun ⟨m, s₁⟩ _ ready => ?_
  exact (ready.compile handler).bind fun _ _ _ => .pure trivial

theorem compileClauses_exhausted (cnf : s.isCnf f = true)
    (exhausted : s.fixBackbone f = .error .restartsExhausted) (handler : Handler) :
    s.compileClauses f settings handler = .error .restartsExhausted := by
  rw [compileClauses, Compiler.prepare_exhausted cnf exhausted]
  rfl

/-- Compilations of the same clauses with the same handler have the same outcome and the same tally if
their settings agree on whether learnt clauses are minimized. They have an outcome, unless the clauses
have at least 64 variables and the search for their backbone runs out of restarts. -/
theorem settings_indifferent (leads : Leads initial s) (known : f ∈ s) (cnf : s.isCnf f = true)
    (same : settings.minimize = settings'.minimize) (handler : Handler) :
    s.compileClauses f settings handler = s.compileClauses f settings' handler ∧
      Strives (64 ≤ (s.vars f).length) (s.compileClauses f settings handler) fun _ => True := by
  have wf := leads.wellFormed
  rcases wf.fixBackbone_strives known cnf with ⟨r, fixed, _⟩ | ⟨hard, exhausted⟩
  · have delivers := compileClauses_delivers wf known cnf fixed settings handler
    obtain ⟨x, run, _⟩ := delivers
    obtain ⟨x', run', _⟩ := compileClauses_delivers wf known cnf fixed settings' handler
    have equal : x = x' := compileClauses_alike same handler x x' run run'
    rw [run, run', equal]
    exact ⟨rfl, .inl (.ok trivial)⟩
  · rw [compileClauses_exhausted cnf exhausted, compileClauses_exhausted cnf exhausted]
    exact ⟨rfl, .inr ⟨hard, rfl⟩⟩

/-- Five clauses are compiled to the same with the default settings and with much faster decay and more
restarts, and are given up at the same expansion when their time is over. -/
theorem settings_indifferent_knot :
    (∃ g stats rest, stats.expansions = 3 ∧
      knot.2.compileClauses knot.1 {} .never = .ok (.compiled g, stats, rest) ∧
      knot.2.compileClauses knot.1 { varDecay := 0.5, clauseDecay := 0.5, restartFirst := 1, learntShare := 0 }
        .never = .ok (.compiled g, stats, rest)) ∧
    ∃ stats rest, stats.expansions = 2 ∧
      knot.2.compileClauses knot.1 {} (.timeout 5 (3 * ·) 0 none) = .ok (.cancelled, stats, rest) ∧
      knot.2.compileClauses knot.1 { varDecay := 0.5, clauseDecay := 0.5, restartFirst := 1, learntShare := 0 }
        (.timeout 5 (3 * ·) 0 none) = .ok (.cancelled, stats, rest) := by
  have ran : Delivers (knot.2.compileClauses knot.1 {} .never)
      (fun x => x.1 ≠ .cancelled ∧ x.2.1.expansions = 3) ∧
      Delivers (knot.2.compileClauses knot.1 {} (.timeout 5 (3 * ·) 0 none))
        fun x => x.1 = .cancelled ∧ x.2.1.expansions = 2 := by decide +kernel
  obtain ⟨⟨⟨outcome, stats, rest⟩, run, goes, count⟩, ⟨_, stats', rest'⟩, run', rfl, count'⟩ := ran
  let hasty : Settings := { varDecay := 0.5, clauseDecay := 0.5, restartFirst := 1, learntShare := 0 }
  have same : ({} : Settings).minimize = hasty.minimize := rfl
  have cnf : knot.2.isCnf knot.1 = true := by decide +kernel
  have equal (handler : Handler) :=
    (settings_indifferent knot_reachable.leads knot_mem cnf same handler).1
  cases outcome with
  | cancelled => exact absurd rfl goes
  | compiled g =>
    exact ⟨⟨g, stats, rest, count, run, (equal _).symm.trans run⟩,
      stats', rest', count', run', (equal _).symm.trans run'⟩

end Store

end ModelCounting
