import ModelCounting.Proofs.Finishing
import ModelCounting.Proofs.Preparation
import ModelCounting.Proofs.Run
import ModelCounting.Proofs.Terms

/-!
Determinism of compiled circuits. Disjunctions come from the terms of a clause, each of which negates
the literals before it, and from expansions, whose branches are guarded by complementary literals.
What was found before is a circuit already, whatever the solver has learnt since.
-/

namespace ModelCounting

open Store

/-- A variable whose literals fit a word. -/
def Var.Fits (v : Var) : Prop := 2 * v.id + 1 < Node.wordLimit

theorem Var.Fits.word {l : Lit} (fits : l.var.Fits) : l.code < Node.wordLimit := by
  simp only [Var.Fits, Lit.var, Node.wordLimit] at *
  omega

namespace Compilation

variable {scope : Var → Prop} {s s' : Store} {c c' c₁ : Compilation} {f g : Formula}

/-! Literals. -/

theorem lit_detNnf_of_fits (wf : s.WellFormed) {l : Lit} (inside : scope l.var) (fits : l.var.Fits) :
    Grows s (s.lit l).2 ∧ (s.lit l).2.node (s.lit l).1 = .lit l ∧
      DetNnf scope (s.lit l).2 (s.lit l).1 := by
  have interned := wf.lit_interned fits.word
  exact ⟨(Step.lit s fits.word).grows, interned.node_eq,
    interned.wellFormed.lit_detNnf interned.mem interned.node_eq inside⟩

/-! The recursion. -/

/-- What holds between the steps of a compilation: the solver names only variables in scope, and
every result kept is a circuit over them. -/
structure Guarded (scope : Var → Prop) (c : Compilation) : Prop where
  wellFormed : c.store.WellFormed
  names : c.solver.NamesIn fun v => scope v ∧ v.Fits
  cache : ∀ key f, c.cache.find? key = some f → DetNnf scope c.store f

structure Compiles (scope : Var → Prop) (c : Compilation) (f : Formula) (c' : Compilation) :
    Prop where
  guarded : c'.Guarded scope
  grows : Grows c.store c'.store
  circuit : DetNnf scope c'.store f

theorem Compiles.later (step : Compiles scope c f c') (guarded : c.Guarded scope) :
    Extends c.store c'.store :=
  step.grows.later guarded.wellFormed

theorem Guarded.withSolver (guarded : c.Guarded scope) {p : Stepper}
    (same : p.names = c.solver.names) : { c with solver := p }.Guarded scope :=
  ⟨guarded.wellFormed, guarded.names.congr same, guarded.cache⟩

theorem Guarded.withStore (guarded : c.Guarded scope) (grows : Grows c.store s) :
    { c with store := s }.Guarded scope :=
  ⟨grows.wellFormed guarded.wellFormed, guarded.names, fun key f found =>
    (guarded.cache key f found).later (grows.later guarded.wellFormed)⟩

theorem Guarded.looked (guarded : c.Guarded scope) (t : PlacedTree) : (c.looked t).Guarded scope := by
  refine ⟨guarded.wellFormed, guarded.names, fun key f found => ?_⟩
  rw [Compilation.looked, (SubproblemCache.find_query c.cache (c.key t) key).2] at found
  exact guarded.cache key f found

theorem Guarded.remember (guarded : c.Guarded scope) {key : IndexSet}
    (circuit : DetNnf scope c.store f) : (c.remember key f).Guarded scope := by
  unfold Compilation.remember
  split
  · exact guarded
  · refine ⟨guarded.wellFormed, guarded.names, fun key' g found => ?_⟩
    rcases SubproblemCache.find_insert found with ⟨rfl, _⟩ | found
    · exact circuit
    · exact guarded.cache key' g found

theorem remember_store (key : IndexSet) (f : Formula) (c : Compilation) :
    (c.remember key f).store = c.store := by
  unfold Compilation.remember
  split <;> rfl

theorem Compiles.counted (step : Compiles scope c f c') : Compiles scope c f c'.counted :=
  ⟨⟨step.guarded.wellFormed, step.guarded.names, step.guarded.cache⟩, step.grows, step.circuit⟩

theorem litOf_named (guarded : c.Guarded scope) (l m : Lit) (run : c.solver.litOf l = .ok m) :
    scope m.var ∧ m.var.Fits :=
  Stepper.litOf_in guarded.names run

theorem conjoined_compiles (guarded : c.Guarded scope) {fs : List Formula}
    (each : ∀ f ∈ fs, DetNnf scope c.store f) :
    Compiles scope c (c.conjoined fs).1 (c.conjoined fs).2 := by
  have grows : Grows c.store (c.store.conj fs).2 :=
    (Step.junction c.store .conj fun f hf => (each f hf).mem).grows
  exact ⟨guarded.withStore grows, grows, guarded.wellFormed.conj_detNnf each⟩

theorem conjoined_two (guarded : c.Guarded scope) (hf : DetNnf scope c.store f)
    (hg : DetNnf scope c.store g) :
    Compiles scope c (c.conjoined [f, g]).1 (c.conjoined [f, g]).2 :=
  conjoined_compiles guarded (by simp [hf, hg])

theorem conjoined_three {h : Formula} (guarded : c.Guarded scope) (hf : DetNnf scope c.store f)
    (hg : DetNnf scope c.store g) (hh : DetNnf scope c.store h) :
    Compiles scope c (c.conjoined [f, g, h]).1 (c.conjoined [f, g, h]).2 :=
  conjoined_compiles guarded (by simp [hf, hg, hh])

theorem Compiles.trans (first : Compiles scope c f c₁) (second : Compiles scope c₁ g c') :
    Compiles scope c g c' :=
  ⟨second.guarded, first.grows.trans second.grows, second.circuit⟩

theorem enter_compiles {t : PlacedTree} (guarded : c.Guarded scope)
    (run : c.enter t = .ok (f, c')) : Compiles scope c f c' := by
  unfold enter at run
  simp only at run
  split at run
  · rename_i implied solver store reported
    cases run
    have names := Stepper.newlyImplied_names reported
    simp only [Stepper.newlyImplied, bind_ok] at reported
    obtain ⟨ls, read, rest⟩ := reported
    cases rest
    have named : ∀ l ∈ ls, scope l.var ∧ l.var.Fits := by
      intro l member
      obtain ⟨m, _, translated⟩ := forall₂_mem_right (mapM_ok read) l member
      exact litOf_named guarded m l translated
    have words : ∀ l ∈ ls, l.code < Node.wordLimit := fun l member => (named l member).2.word
    obtain ⟨grows, _⟩ := guarded.wellFormed.literals_build words
    have backward := (guarded.wellFormed.literals_meaning words).1
    have wf := grows.wellFormed guarded.wellFormed
    have each : ∀ h ∈ (c.store.literals ls).1, DetNnf scope (c.store.literals ls).2 h := by
      intro h member
      obtain ⟨l, inside, known, shape⟩ := backward h member
      exact wf.lit_detNnf known shape (named l inside).1
    have grows' : Grows c.store (c.store.cube ls).2 :=
      grows.trans (Step.junction _ .conj fun h member => (each h member).mem).grows
    have guarded' := guarded.withStore grows'
    exact ⟨⟨guarded'.wellFormed, guarded.names.congr names, guarded'.cache⟩, grows',
      wf.conj_detNnf each⟩
  · simp at run

theorem leaf_compiles {l : PlacedLeaf} (guarded : c.Guarded scope)
    (run : c.leaf l = .ok (f, c')) : Compiles scope c f c' := by
  have named := litOf_named guarded
  obtain ⟨grows, same, result⟩ :=
    leaf_result guarded.wellFormed (fun l m called => (named l m called).2.word) run
  have guarded' := guarded.withStore grows
  rw [← same] at guarded'
  refine ⟨guarded', grows, ?_⟩
  rcases result with ⟨_, rfl⟩ | ⟨_, ms, called, oneOf⟩
  · exact guarded'.wellFormed.constant_detNnf rfl
  · refine oneOf.toDetNnf.mono ?_
    rintro _ ⟨m, member, rfl⟩
    obtain ⟨l, _, here⟩ := forall₂_mem_right called m member
    exact (named l m here).1

theorem guard_detNnf (wf : s.WellFormed) {v : Var} (inside : scope v) (fits : v.Fits) (phase : Bool)
    (circuit : DetNnf scope s f) :
    Grows s (s.guard v phase f).2 ∧ DetNnf scope (s.guard v phase f).2 (s.guard v phase f).1 ∧
      ∀ value, (s.guard v phase f).2.eval value (s.guard v phase f).1 = true → value v = phase := by
  unfold Store.guard
  have literal : scope (Lit.of v phase).var ∧ (Lit.of v phase).var.Fits := by
    simpa using ⟨inside, fits⟩
  obtain ⟨grows, shape, lit⟩ := lit_detNnf_of_fits wf literal.1 literal.2
  have wf' := grows.wellFormed wf
  have each : ∀ g ∈ [(s.lit (.of v phase)).1, f], DetNnf scope (s.lit (.of v phase)).2 g := by
    simp [lit, circuit.later (grows.later wf)]
  have builds : Builds _ ((s.lit (.of v phase)).2.conj [(s.lit (.of v phase)).1, f]) _ _ :=
    wf'.junction_builds fun g member => (each g member).mem
  refine ⟨grows.trans builds.grows, wf'.conj_detNnf each, fun value true_ => ?_⟩
  rw [builds.eval_eq] at true_
  have guard := List.all_eq_true.mp true_ (s.lit (.of v phase)).1 (by simp)
  rw [eval_node, shape] at guard
  simpa [Node.eval, Lit.holds] using guard

/-- The branches of an expansion exclude each other by their guards. -/
theorem decision_detNnf (wf : s.WellFormed) {v : Var} (inside : scope v) (fits : v.Fits)
    {p n : Formula} (positive : DetNnf scope s p) (negative : DetNnf scope s n) :
    Grows s (s.decision v p n).2 ∧ DetNnf scope (s.decision v p n).2 (s.decision v p n).1 := by
  unfold decision
  simp only
  obtain ⟨grows₁, first, yes⟩ := guard_detNnf wf inside fits true positive
  have wf₁ := grows₁.wellFormed wf
  obtain ⟨grows₂, second, no⟩ := guard_detNnf wf₁ inside fits false (negative.later (grows₁.later wf))
  have wf₂ := grows₂.wellFormed wf₁
  have later₂ := grows₂.later wf₁
  generalize s.guard v true p = x at *
  generalize x.2.guard v false n = y at *
  have each : ∀ g ∈ [x.1, y.1], DetNnf scope y.2 g := by
    simp [second, first.later later₂]
  have apart : y.2.Exclusive x.1 y.1 := by
    rintro value ⟨left, right⟩
    rw [later₂.eval_eq first.mem] at left
    have := yes value left
    rw [no value right] at this
    cases this
  refine ⟨(grows₁.trans grows₂).trans (Step.junction _ .disj fun g h => (each g h).mem).grows,
    wf₂.disj_detNnf each ?_⟩
  have pairwise : [x.1, y.1].Pairwise y.2.Exclusive := by simpa using apart
  exact pairwise.forall

theorem expansion_compiles {implied p n : Formula} {v : Var} (guarded : c.Guarded scope)
    (first : DetNnf scope c.store implied) (positive : DetNnf scope c.store p)
    (negative : DetNnf scope c.store n)
    (run : expansion implied v p n c = .ok (.compiled f, c')) : Compiles scope c f c' := by
  obtain ⟨name, called, rest⟩ := expansion_ok run
  obtain ⟨inside, fits⟩ := Stepper.nameOf_in guarded.names called
  obtain ⟨grows, circuit⟩ := decision_detNnf guarded.wellFormed inside fits positive negative
  have later := grows.later guarded.wellFormed
  have step := conjoined_two (guarded.withStore grows) (first.later later) circuit
  rw [rest] at step
  exact ⟨step.guarded, grows.trans step.grows, step.circuit⟩

theorem Runs.compiles {watch : Event → Prop} {task : Task} (run : Runs watch task c f c')
    (guarded : c.Guarded scope) : Compiles scope c f c' := by
  induction run with
  | leaf enter leaf =>
    have first := enter_compiles guarded enter
    have second := leaf_compiles first.guarded leaf
    have whole := conjoined_two second.guarded (first.circuit.later (second.later first.guarded))
      second.circuit
    exact (first.trans second).trans whole
  | contradiction enter apart => exact enter_compiles guarded enter
  | leftFails enter apart first ih =>
    have entered := enter_compiles guarded enter
    exact entered.trans (ih entered.guarded)
  | rightFails enter apart first some second ih₁ ih₂ =>
    have entered := enter_compiles guarded enter
    have left := ih₁ entered.guarded
    exact (entered.trans left).trans (ih₂ left.guarded)
  | join enter apart first some second some' event ih₁ ih₂ =>
    have entered := enter_compiles guarded enter
    have left := ih₁ entered.guarded
    have right := ih₂ left.guarded
    have later := right.later left.guarded
    have whole := conjoined_three right.guarded
      ((entered.circuit.later (left.later entered.guarded)).later later)
      (left.circuit.later later) right.circuit
    exact ((entered.trans left).trans right).trans whole
  | failPositive enter shared choice positive again ih₁ ih₂ =>
    have entered := enter_compiles guarded enter
    have failed := ih₁ entered.counted.guarded
    exact (entered.counted.trans failed).trans (ih₂ failed.guarded)
  | failNegative enter shared choice positive some negative again ih₁ ih₂ ih₃ =>
    have entered := enter_compiles guarded enter
    have yes := ih₁ entered.counted.guarded
    have failed := ih₂ yes.guarded
    exact ((entered.counted.trans yes).trans failed).trans (ih₃ failed.guarded)
  | expand enter shared choice positive some negative some' expansion event ih₁ ih₂ =>
    have entered := enter_compiles guarded enter
    have yes := ih₁ entered.counted.guarded
    have no := ih₂ yes.guarded
    have later := no.later yes.guarded
    have whole := expansion_compiles no.guarded
      ((entered.counted.circuit.later (yes.later entered.counted.guarded)).later later)
      (yes.circuit.later later) no.circuit expansion
    exact ((entered.counted.trans yes).trans no).trans whole
  | partLeaf leaf => exact leaf_compiles guarded leaf
  | hit found event => exact ⟨guarded.looked _, Grows.refl _, guarded.cache _ _ found⟩
  | miss missing run ih =>
    have result := ih (guarded.looked _)
    refine ⟨result.guarded.remember result.circuit, ?_, ?_⟩ <;> rw [remember_store]
    · exact result.grows
    · exact result.circuit
  | branch decide event run undo ih =>
    have result := ih (guarded.withSolver (Stepper.decide_names decide))
    exact ⟨result.guarded.withSolver (Stepper.undo_names undo), result.grows, result.circuit⟩
  | branchFails decide undo =>
    have same := (Stepper.undo_names undo).trans (Stepper.decide_names decide)
    exact ⟨guarded.withSolver same, Grows.refl _, guarded.wellFormed.constant_detNnf rfl⟩
  | elsewhere level => exact ⟨guarded, Grows.refl _, guarded.wellFormed.constant_detNnf rfl⟩
  | retryFails level learn =>
    exact ⟨guarded.withSolver (Stepper.assertLesson_names learn), Grows.refl _,
      guarded.wellFormed.constant_detNnf rfl⟩
  | retry level learn event run ih =>
    have result := ih (guarded.withSolver (Stepper.assertLesson_names learn))
    exact ⟨result.guarded, result.grows, result.circuit⟩

end Compilation

namespace Store

variable {s s' : Store} {f : Formula} {settings : Settings} {handler handler' : Handler} {d : Circuit}

theorem Yields.detNnf {watch : Event → Prop} (reachable : s.Reachable) (known : f ∈ s)
    (yields : s.Yields watch f settings handler d s') :
    Grows s s' ∧ DetNnf (· ∈ s.vars f) s' d.formula := by
  have wf := reachable.wellFormed
  obtain ⟨prepare, compile⟩ := yields
  obtain ⟨grows₁, _, means⟩ := wf.cnf_restates known
  have wf₁ := grows₁.wellFormed wf
  obtain ⟨grows₂, prepared⟩ := Compiler.prepare_prepared wf₁ means.mem prepare
  have wf₂ := grows₂.wellFormed wf₁
  have within (v : Var) (mentioned : v ∈ (s.cnf f).2.vars (s.cnf f).1) : v ∈ s.vars f := by
    have := (means.vars_sub v mentioned).1
    rwa [(grows₁.later wf).vars_eq known] at this
  have grows := grows₁.trans grows₂
  cases compile with
  | atomic atomic => exact ⟨grows, (prepared.atomic atomic).mono within⟩
  | contradiction start => exact ⟨grows, wf₂.constant_detNnf rfl⟩
  | @searched p _ _ t g c start tree place run =>
    have guarded : (Compilation.first _ p t handler).Guarded (· ∈ (s.cnf f).2.vars (s.cnf f).1) :=
      ⟨wf₂, prepared.names.congr (Stepper.start_names start), fun key g found => by
        simp [Compilation.first, SubproblemCache.find?] at found⟩
    have result := run.compiles guarded
    have whole := Compilation.conjoined_two result.guarded
      (prepared.units.later (result.later guarded)) result.circuit
    exact ⟨(grows.trans result.grows).trans whole.grows, whole.circuit.mono within⟩

/-- A compiled circuit is in negation normal form, mentions only variables of the formula, and is
deterministic. -/
theorem compile_deterministic (reachable : s.Reachable) (known : f ∈ s)
    (run : s.compile f settings handler = .ok (some d, s', handler')) :
    s'.isNnf d.formula = true ∧ (∀ v ∈ s'.vars d.formula, v ∈ s.vars f) ∧
      s'.Deterministic d.formula := by
  have circuit := ((compile_yields run).detNnf reachable known).2
  exact ⟨circuit.isNnf, circuit.vars_sub, circuit.deterministic⟩

/-- The circuit of five clauses, a disjunction. -/
theorem compile_deterministic_knot : ∃ d s' handler',
    knot.2.compile knot.1 {} .never = .ok (some d, s', handler') ∧
      (∃ g h, g ≠ h ∧ s'.node d.formula = .or [g, h]) ∧ s'.isNnf d.formula = true ∧
        (∀ v ∈ s'.vars d.formula, v ∈ knot.2.vars knot.1) ∧ s'.Deterministic d.formula := by
  have ran : Delivers (knot.2.compile knot.1 {} .never) fun x =>
      ∃ d ∈ x.1, x.2.1.node d.formula = .or [⟨21⟩, ⟨22⟩] := by decide +kernel
  obtain ⟨⟨_, s', handler'⟩, run, d, rfl, shape⟩ := ran
  exact ⟨d, s', handler', run, ⟨⟨21⟩, ⟨22⟩, by decide, shape⟩,
    compile_deterministic knot_reachable knot_mem run⟩

end Store

end ModelCounting
