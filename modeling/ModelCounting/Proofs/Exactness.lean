import ModelCounting.Proofs.Counting
import ModelCounting.Proofs.Fidelity

/-!
Confined compilations are exact. The circuit that a compilation ends with has the models of the formula and
is decomposable, so the number counted for it is the number of models. All entries of the cache answer for
their keys. A call that ends with the falsum leaves a lesson for a lower level, so the first call never does.
-/

namespace ModelCounting

namespace Store

variable {s : Store} {f : Formula}

theorem WellFormed.constant_or_literal (wf : s.WellFormed) (known : f ∈ s) (atomic : s.isAtomic f = true) :
    f.isConstant = true ∨ ∃ l, s.Literal l f := by
  unfold isAtomic at atomic
  cases shape : s.node f with
  | falsum => exact .inl (wf.eq_falsum known shape ▸ rfl)
  | verum => exact .inl (wf.eq_verum known shape ▸ rfl)
  | lit l => exact .inr ⟨l, known, shape⟩
  | not | and | or | implies | equiv => simp [shape, Node.isAtomic] at atomic

/-- A conjunction of literals is decomposable: two literals of one variable would have decided it. -/
theorem WellFormed.decomposable_of_atomic (wf : s.WellFormed) (known : f ∈ s)
    (atomic : ∀ o ∈ s.flatten .conj f, s.isAtomic o = true) : s.Decomposable f := by
  have each (o : Formula) (conjunct : o ∈ s.flatten .conj f) :
      o.isConstant = true ∨ ∃ l, s.Literal l o :=
    wf.constant_or_literal (wf.flatten_proper known conjunct).1 (atomic o conjunct)
  rw [wf.decomposable_conj_iff]
  constructor
  · intro o conjunct
    rcases each o conjunct with constant | ⟨l, _, shape⟩
    · exact wf.decomposable_constant constant
    · exact decomposable_lit shape
  · by_cases neutral : f = Connective.conj.neutral
    · simp [neutral, flatten_neutral]
    rcases s.flatten_cases .conj neutral with ⟨gs, shape, flat⟩ | ⟨_, flat⟩
    · rw [flat] at each ⊢
      have operands := wf.operands_of_node known shape
      have literal (k : Formula) (member : k ∈ gs) : ∃ l, s.Literal l k :=
        (each k member).resolve_left (by simp [(operands.proper k member).1])
      refine operands.distinct.imp_of_mem fun {g h} here there differ v mentioned again => ?_
      obtain ⟨l, first⟩ := literal g here
      obtain ⟨l', second⟩ := literal h there
      have var := (wf.lit_meaning first.1 first.2).2 v mentioned
      have var' := (wf.lit_meaning second.1 second.2).2 v again
      by_cases phase : l.phase = l'.phase
      · have same := Lit.ext_var_phase (var.symm.trans var') phase
        exact differ (wf.node_inj first.1 second.1 (by rw [first.2, second.2, same]))
      · refine operands.compatible g here h there l first.2 ?_
        rw [second.2, Lit.ext_var_phase (l := l') (m := -l)]
        · rw [Lit.var_neg, ← var, ← var']
        · rw [Lit.phase_neg, Bool.eq_not]
          exact Ne.symm phase
    · rw [flat]
      exact List.pairwise_singleton _ _

end Store

/-- The clauses of a placed tree, in the variables of the solver: they hold together where the formula does,
and their variables are named by its variables. -/
theorem Store.WellFormed.leaves_means {s : Store} {f : Formula} {order : List Var} {d : ClauseTree}
    {t : PlacedTree} {p : Stepper} (wf : s.WellFormed) (known : f ∈ s) (cnf : s.isCnf f = true)
    (built : Dtree.alongOrder s f order = .ok d) (place : d.place p = .ok t)
    (named : ∀ (i : Nat) (v : Var), p.names[i]? = some v ↔ p.numbers[v]? = some ⟨i⟩) :
    (∀ value, s.eval value f = true ↔ ∀ l ∈ t.leaves, Holds (p.valuation value) l.lits) ∧
      ∀ l ∈ t.leaves, ∀ m ∈ l.lits, ∃ v ∈ s.vars f, p.names[m.var.id]? = some v := by
  obtain ⟨cs, read, _⟩ := clauses_delivers cnf
  obtain ⟨models, mentioned⟩ := wf.clauses_ok known read
  obtain ⟨whole, _, literals⟩ := Dtree.place_ok place
  have listed (c : List Lit) : c ∈ cs ↔ ∃ l ∈ t.leaves, l.source.lits = c := by
    rw [← (wf.leaves_lits known read built).mem_iff, ← whole, Dtree.leaves_unplaced, List.map_map,
      List.mem_map]
    rfl
  constructor
  · intro value
    rw [models, Models]
    simp only [listed, forall_exists_index, and_imp, forall_apply_eq_imp_iff₂]
    refine forall₂_congr fun l leaf => ⟨?_, ?_⟩
    · rintro ⟨m, literal, holds⟩
      obtain ⟨m', placed, spells⟩ := forall₂_mem_left (literals l leaf) m literal
      exact ⟨m', placed, (Stepper.Spells.holds_iff spells named).trans holds⟩
    · rintro ⟨m', placed, holds⟩
      obtain ⟨m, literal, spells⟩ := forall₂_mem_right (literals l leaf) m' placed
      exact ⟨m, literal, (Stepper.Spells.holds_iff spells named).symm.trans holds⟩
  · intro l leaf m' placed
    obtain ⟨m, literal, spells⟩ := forall₂_mem_right (literals l leaf) m' placed
    refine ⟨m.var, (mentioned _).mpr ⟨_, (listed _).mpr ⟨l, leaf, rfl⟩, m, literal, rfl⟩, ?_⟩
    exact (named _ _).mpr (Stepper.spells_iff.mp spells).1

namespace Compilation.Call

variable {Γ : List (List Lit)} {r a : Call} {c : Compilation} {value : Var → Bool} {f : Formula}

section First

variable (opens : r.Opens Γ)

include opens

theorem Opens.root_entailed {l : Lit} (member : l ∈ r.state.solver.core.trail.lits)
    (models : Models value Γ) : l.holds value = true := by
  have wf := opens.sound.core.trail
  have level := wf.level_le_depth member
  rw [show r.state.solver.core.trail.depth = 0 from opens.root, Nat.le_zero] at level
  have entailed := opens.safe.admits.calm.core.toKnows.root member level value models
  exact holds_unit.mp entailed

theorem Opens.leaf_of_index {i : Nat} (inside : i ∈ Lit.indices (r.state.solver.consequences r.tree.vars) ∪
    r.tree.undecidedVars r.state.solver.core.trail.valueVar) :
    ∃ l ∈ r.tree.leaves, ∃ m ∈ l.lits, m.var.id = i := by
  rcases inside with ⟨l, listed, rfl⟩ | ⟨l, remains, m, free, rfl⟩
  · exact opens.safe.admits.sited.contains_vars_iff.mp (Stepper.recent_of_consequences listed).2
  · exact ⟨l, List.mem_of_mem_filter remains, m, List.mem_of_mem_filter free, rfl⟩

theorem Opens.leaves_hold (unreported : r.state.solver.unreported = true)
    (reported : ∀ l ∈ r.state.solver.consequences r.tree.vars, l.holds value = true)
    (solves : Dtree.Solves value (r.tree.problem r.state.solver.core.trail.valueVar)) :
    ∀ l ∈ r.tree.leaves, Holds value l.lits := by
  intro l leaf
  by_cases remains : l.Remains r.state.solver.core.trail.valueVar
  · obtain ⟨m, literal, _, holds⟩ :=
      Dtree.solves_iff.mp solves l (List.mem_filter.mpr ⟨leaf, decide_eq_true remains⟩)
    exact ⟨m, literal, holds⟩
  · simp only [PlacedLeaf.Remains, not_forall, Decidable.not_not] at remains
    obtain ⟨m, literal, true_⟩ := remains
    have on := (Trail.under_tru_iff opens.sound.core.trail.toFaithful).mp true_
    refine ⟨m, literal, reported m ((Stepper.mem_consequences unreported).mpr ⟨?_, ?_⟩)⟩
    · have none : r.state.solver.core.trail.starts = #[] := Array.eq_empty_of_size_eq_zero opens.root
      simpa [Stepper.recent, none] using on
    · exact opens.safe.admits.sited.contains_vars_iff.mpr ⟨l, leaf, m, literal, rfl⟩

theorem Opens.leaves_left (models : Models value Γ) (holds : ∀ l ∈ r.tree.leaves, Holds value l.lits) :
    (∀ l ∈ r.state.solver.consequences r.tree.vars, l.holds value = true) ∧
      Dtree.Solves value (r.tree.problem r.state.solver.core.trail.valueVar) := by
  have wf := opens.sound.core.trail
  constructor
  · intro l member
    exact opens.root_entailed (Array.mem_toList_iff.mp (Stepper.consequences_sublist.subset member)) models
  · rw [Dtree.solves_iff]
    intro l remains
    obtain ⟨leaf, unsatisfied⟩ := List.mem_filter.mp remains
    obtain ⟨m, literal, true_⟩ := holds l leaf
    refine ⟨m, literal, ?_, true_⟩
    -- A false literal would have a true complement.
    by_contra assigned
    have false_ := Lit.under_neg_of_ne assigned (of_decide_eq_true unsatisfied m literal)
    have opposite := opens.root_entailed ((Trail.under_tru_iff wf.toFaithful).mp false_) models
    rw [Store.holds_neg, true_] at opposite
    cases opposite

variable (confined : ∀ b, Relation.ReflTransGen Makes r b → b.Confined)

include confined

/-- A call fails only if its lesson belongs to a lower level. -/
theorem Opens.backjumps (path : Relation.ReflTransGen Makes r a)
    (run : Compilation.tree a.bound a.tree a.nested a.state = .ok (.compiled .falsum, c)) :
    ∃ lits level, c.solver.lesson = some lits ∧ c.solver.assertionLevel = some level ∧
      level < a.state.solver.core.depth := by
  have resolves := opens.tree_resolves confined path (opens.faithful confined path) run
  obtain ⟨safe, _⟩ := opens.reaches path
  have ends := safe.delivers.answer run
  rcases ends.failed.retains with ⟨none, _⟩ | ⟨lits, level, some, at_, _, lower⟩
  · exact absurd none (resolves.taught rfl)
  · exact ⟨lits, level, some, at_, Nat.lt_of_lt_of_eq lower ends.leads.grows.depth_eq⟩

/-- The first call ends with a circuit for what it has to report and what is left for it. -/
theorem Opens.root_represents
    (run : Compilation.tree r.bound r.tree r.nested r.state = .ok (.compiled f, c)) :
    Store.Grows r.state.store c.store ∧ c.store.WellFormed ∧
      r.state.solver.Expresses r.tree r.state.solver.core.trail.valueVar
        (r.state.solver.consequences r.tree.vars) c.store f := by
  have resolves := opens.tree_resolves confined .refl (opens.faithful confined .refl) run
  refine ⟨resolves.grows, resolves.faithful.wellFormed, (resolves.finds f rfl ?_).expresses⟩
  rintro rfl
  obtain ⟨_, _, _, _, lower⟩ := opens.backjumps confined .refl run
  exact absurd opens.root (Nat.ne_zero_of_lt lower)

end First

end Compilation.Call

namespace Compiler

open Store Compilation

variable {s s' s'' s₂ s₃ : Store} {f g : Formula} {settings : Settings} {m m' : Compiler} {p : Stepper}
  {d : ClauseTree} {e : Elimination} {t : PlacedTree} {handler handler' : Handler} {c : Compilation}
  {a : Call}

/-- What a compilation of prepared clauses answers: the clauses if all of them are literals, the falsum if
the solver finds a contradiction, and otherwise the literals beside what the recursion ends with. -/
theorem compile_cases (run : m.compile s handler = .ok (.compiled g, m', s', handler')) :
    (s.isAtomic m.nonUnits = true ∧ g = m.cnf ∧ s' = s) ∨
      (g = .falsum ∧ s' = s ∧ ∃ p, m.solver.start = .ok (false, p)) ∨
        ∃ p d e t h c, m.solver.start = .ok (true, p) ∧ Dtree.minFill s m.nonUnits = .ok (d, e) ∧
          d.place p = .ok t ∧
            Compilation.tree (nestingBound p t) t 0 (.first s p t handler) = .ok (.compiled h, c) ∧
              g = (c.store.conj [m.units, h]).1 ∧ s' = (c.store.conj [m.units, h]).2 := by
  unfold compile at run
  split at run
  · cases run
  simp only at run
  split at run
  · rename_i atomic
    cases run
    exact .inl ⟨atomic, rfl, rfl⟩
  simp only [bind_ok, Prod.exists] at run
  obtain ⟨consistent, p, start, run⟩ := run
  cases consistent with
  | false =>
    cases run
    exact .inr (.inl ⟨rfl, rfl, p, start⟩)
  | true =>
    simp only [Bool.not_true, Bool.false_eq_true, if_false, bind_ok, Prod.exists] at run
    obtain ⟨d, e, tree, t, place, outcome, c, searched, run⟩ := run
    cases outcome with
    | cancelled => cases run
    | compiled h =>
      cases run
      exact .inr (.inr ⟨p, d, e, t, h, c, start, tree, place, searched, rfl, rfl⟩)

theorem Simplified.cnf_decomposable (simplified : m.Simplified s₂ s₃ s')
    (atomic : s'.isAtomic m.nonUnits = true) : s'.Decomposable m.cnf := by
  have wf := simplified.wellFormed
  have later := simplified.later.trans simplified.joined.later
  rw [later.decomposable_iff simplified.mem]
  refine wf.decomposable_of_atomic simplified.mem fun o conjunct => ?_
  by_contra compound
  obtain ⟨u, member, _⟩ := (split_conjuncts wf simplified.mem simplified.cnf).2.mpr
    ⟨conjunct, Bool.eq_false_iff.mpr compound⟩
  rw [simplified.nonUnits_nil atomic] at member
  cases member

theorem Simplified.units_decomposable {value : Var → Bool} (simplified : m.Simplified s₂ s₃ s')
    (true_ : s₂.eval value m.cnf = true) : s'.Decomposable m.units := by
  have wf := simplified.wellFormed
  rw [simplified.joined.later.decomposable_iff simplified.units_joined.mem]
  refine simplified.units_wellFormed.decomposable_of_atomic simplified.units_joined.mem fun o conjunct => ?_
  obtain ⟨before, atomic⟩ := (simplified.conjuncts true_).1.mp conjunct
  unfold isAtomic at atomic ⊢
  rwa [simplified.later.node_eq (wf.flatten_proper simplified.mem before).1]

theorem start_unreported {q : Stepper} (run : p.start = .ok (true, q)) : q.unreported = true := by
  unfold Stepper.start at run
  simp only at run
  split at run
  · obtain ⟨⟨_, _⟩, _, run⟩ := bind_ok.mp run
    obtain ⟨_, rfl⟩ := Prod.mk.inj (pure_ok.mp run)
    rfl
  · cases run

theorem Simplified.units_realizes {value : Var → Bool} (simplified : m.Simplified s₂ s₃ s')
    (true_ : s₂.eval value m.cnf = true) : Store.Realizes (· ∈ s'.vars m.units)
      (fun value => s'.eval value m.units = true) s' m.units where
  mem := simplified.joined.later.mem simplified.units_joined.mem
  vars_sub _ mentioned := mentioned
  decomposable := simplified.units_decomposable true_
  eval_iff _ := Iff.rfl
  satisfiable := ⟨value, by
    rw [simplified.parts_eval, Bool.and_eq_true] at true_
    exact true_.1⟩

/-- The literals and what the recursion ends with have no variable in common, and hold together where the
clauses do. -/
theorem searched_exact (wf : s.WellFormed) (known : f ∈ s) (prepared : prepare s f settings = .ok (m, s'))
    (confined : ∀ a, m.Calls s' handler a → a.Confined) (start : m.solver.start = .ok (true, p))
    (tree : Dtree.minFill s' m.nonUnits = .ok (d, e)) (place : d.place p = .ok t)
    (run : Compilation.tree (nestingBound p t) t 0 (.first s' p t handler) = .ok (.compiled g, c)) :
    (c.store.conj [m.units, g]).2.Decomposable (c.store.conj [m.units, g]).1 ∧
      ∀ value, (c.store.conj [m.units, g]).2.eval value (c.store.conj [m.units, g]).1 = s.eval value f := by
  obtain ⟨Γ, models, opens⟩ := exists_opens wf known prepared start tree place handler
  have first : m.Calls s' handler ⟨nestingBound p t, t, 0, .first s' p t handler⟩ :=
    .first start tree place
  obtain ⟨grows, wf', expresses⟩ :=
    opens.root_represents (fun b path => confined b (first.reaches path)) run
  have ready := prepare_ready wf known prepared
  obtain ⟨value, model⟩ := exists_model_of_tree wf known prepared tree
  obtain ⟨s₂, s₃, simplified, _, means⟩ := prepare_equivalent wf known prepared
  obtain ⟨_, _, ordered⟩ := bind_ok.mp tree
  obtain ⟨_, built, pair⟩ := bind_ok.mp ordered
  cases pair
  obtain ⟨clauses, names⟩ :=
    ready.wellFormed.leaves_means ready.mem ready.cnf built place opens.named
  have units := (simplified.units_realizes ((means value).trans model)).later (grows.later ready.wellFormed)
  have rest : Store.Realizes (· ∈ s'.vars m.nonUnits) _ c.store g :=
    Store.Realizes.mono expresses (fun v ⟨i, inside, name⟩ => by
      obtain ⟨l, leaf, k, literal, rfl⟩ := opens.leaf_of_index inside
      obtain ⟨w, mentioned, name'⟩ := names l leaf k literal
      exact Option.some.inj (name.symm.trans name') ▸ mentioned) fun _ => Iff.rfl
  have whole := wf'.conj_two_realizes units rest (splits_of_prepared wf known prepared).apart
  have parts (value : Var → Bool) : s.eval value f = true ↔
      s'.eval value m.units = true ∧ s'.eval value m.nonUnits = true := by
    rw [← means, simplified.parts_eval, Bool.and_eq_true]
  refine ⟨whole.decomposable, fun value => Bool.eq_iff_iff.mpr ((whole.eval_iff value).trans ?_)⟩
  rw [parts]
  refine and_congr_right fun literals => ⟨fun ⟨reported, solves⟩ => ?_, fun rest => ?_⟩
  · exact (clauses value).mpr (opens.leaves_hold (start_unreported start) reported solves)
  · exact opens.leaves_left (models value ((parts value).mpr ⟨literals, rest⟩)) ((clauses value).mp rest)

/-- Confined compilations of prepared clauses are exact. -/
theorem compile_exact (wf : s.WellFormed) (known : f ∈ s) (prepared : prepare s f settings = .ok (m, s'))
    (confined : ∀ a, m.Calls s' handler a → a.Confined)
    (run : m.compile s' handler = .ok (.compiled g, m', s'', handler')) :
    s''.Decomposable g ∧ ∀ value, s''.eval value g = s.eval value f := by
  obtain ⟨s₂, s₃, simplified, added, means⟩ := prepare_equivalent wf known prepared
  rcases compile_cases run with ⟨atomic, rfl, rfl⟩ | ⟨rfl, rfl, p, start⟩ |
    ⟨p, d, e, t, h, c, start, tree, place, searched, rfl, rfl⟩
  · exact ⟨simplified.cnf_decomposable atomic, (splits_of_prepared wf known prepared).eval_eq⟩
  · have wf' := simplified.joined.wellFormed
    refine ⟨wf'.decomposable_constant rfl, fun value => ?_⟩
    rw [wf'.eval_falsum, eq_comm, ← Bool.not_eq_true]
    intro model
    -- The solver of clauses that have a model can be started.
    obtain ⟨q, start'⟩ :=
      start_of_model simplified.wellFormed simplified.mem added ((means value).trans model)
    cases Except.ok.inj (start.symm.trans start')
  · exact searched_exact wf known prepared confined start tree place searched

/-- Whether all calls of a compilation are confined can be computed. -/
theorem confined_iff_listed :
    (∀ m s' a, prepare s f settings = .ok (m, s') → m.Calls s' handler a → a.Confined) ↔
      ∀ x ∈ (prepare s f settings).toOption, ∀ a ∈ x.1.calls x.2 handler, a.Confined := by
  simp only [Option.mem_def, toOption_eq_some, mem_calls, Prod.forall]
  exact ⟨fun confined m s' prepared a => confined m s' a prepared,
    fun confined m s' a prepared => confined m s' prepared a⟩

theorem knot_confined (prepared : prepare knot.2 knot.1 {} = .ok (m, s')) (calls : m.Calls s' .never a) :
    a.Confined :=
  confined_iff_listed.mpr (by decide +kernel) m s' a prepared calls

/-- In a confined compilation an entry of the cache answers for its key alone: it is a circuit over the
variables that the key has, for the clauses that the key has the places of, restricted to these variables. So
it is from when a call begins to when it ends, whatever it ends with. -/
theorem entries_answer (reachable : s.Reachable) (known : f ∈ s)
    (prepared : prepare s f settings = .ok (m, s')) (confined : ∀ b, m.Calls s' handler b → b.Confined)
    (start : m.solver.start = .ok (true, p)) (tree : Dtree.minFill s' m.nonUnits = .ok (d, e))
    (place : d.place p = .ok t)
    (path : Relation.ReflTransGen Call.Makes ⟨nestingBound p t, t, 0, .first s' p t handler⟩ a) :
    (∀ key g, a.state.cache.find? key = some g → p.Answers t key a.state.store g) ∧
      Delivers (Compilation.tree a.bound a.tree a.nested a.state) fun x =>
        ∀ key g, x.2.cache.find? key = some g → p.Answers t key x.2.store g := by
  obtain ⟨Γ, _, opens⟩ := exists_opens reachable.wellFormed known prepared start tree place handler
  have first : m.Calls s' handler ⟨nestingBound p t, t, 0, .first s' p t handler⟩ :=
    .first start tree place
  have confined' := fun b path => confined b (first.reaches path)
  have faithful := opens.faithful confined' path
  obtain ⟨safe, _⟩ := opens.reaches path
  refine ⟨faithful.entries, (safe.delivers.and fun x run => ?_).mono fun x ends => ends.2⟩
  exact (opens.tree_resolves confined' path faithful run).faithful.entries

/-- A call that finds an entry in the cache and looks another subproblem up. -/
theorem entries_answer_knot : ∃ m s' p d e t a, prepare knot.2 knot.1 {} = .ok (m, s') ∧
    m.solver.start = .ok (true, p) ∧ Dtree.minFill s' m.nonUnits = .ok (d, e) ∧ d.place p = .ok t ∧
      Relation.ReflTransGen Call.Makes ⟨nestingBound p t, t, 0, .first s' p t .never⟩ a ∧
      (∃ key g, a.state.cache.find? key = some g ∧ p.Answers t key a.state.store g) ∧
      Delivers (Compilation.tree a.bound a.tree a.nested a.state) fun x =>
        a.state.cache.hits < x.2.cache.hits ∧
          ∃ key g, x.2.cache.find? key = some g ∧ p.Answers t key x.2.store g := by
  have ran : Delivers (prepare knot.2 knot.1 {}) fun x => ∃ a ∈ x.1.calls x.2 .never,
      (∃ key ∈ a.state.cache.entries.keys, (a.state.cache.find? key).isSome) ∧
        Delivers (Compilation.tree a.bound a.tree a.nested a.state) fun y =>
          a.state.cache.hits < y.2.cache.hits ∧
            ∃ key ∈ y.2.cache.entries.keys, (y.2.cache.find? key).isSome := by decide +kernel
  obtain ⟨⟨m, s'⟩, prepared, a, listed, ⟨key, _, found⟩, x, run, hit, key', _, found'⟩ := ran
  obtain ⟨g, entry⟩ := Option.isSome_iff_exists.mp found
  obtain ⟨g', entry'⟩ := Option.isSome_iff_exists.mp found'
  obtain ⟨p, d, e, t, start, tree, place, path⟩ := (mem_calls.mp listed).path
  obtain ⟨before, after⟩ := entries_answer knot_reachable knot_mem prepared
    (fun _ => knot_confined prepared) start tree place path
  exact ⟨m, s', p, d, e, t, a, prepared, start, tree, place, path, ⟨key, g, entry, before key g entry⟩,
    x, run, hit, key', g', entry', after.answer run key' g' entry'⟩

/-- In a confined compilation a call that ends with the falsum leaves a lesson for a lower level than its
own. So no call that is made at the root ends with the falsum. -/
theorem Calls.falsum_backjumps (calls : m.Calls s' handler a) (reachable : s.Reachable) (known : f ∈ s)
    (prepared : prepare s f settings = .ok (m, s')) (confined : ∀ b, m.Calls s' handler b → b.Confined) :
    Delivers (Compilation.tree a.bound a.tree a.nested a.state) fun x => x.1 = .compiled .falsum →
      ∃ lits level, x.2.solver.lesson = some lits ∧ x.2.solver.assertionLevel = some level ∧
        level < a.state.solver.core.depth := by
  obtain ⟨p, d, e, t, start, tree, place, path⟩ := calls.path
  obtain ⟨Γ, _, opens⟩ := exists_opens reachable.wellFormed known prepared start tree place handler
  have first : m.Calls s' handler ⟨nestingBound p t, t, 0, .first s' p t handler⟩ :=
    .first start tree place
  obtain ⟨safe, _⟩ := opens.reaches path
  refine (safe.delivers.and fun x run falsum => ?_).mono fun x ends => ends.2
  obtain ⟨outcome, c⟩ := x
  obtain rfl : outcome = .compiled .falsum := falsum
  exact opens.backjumps (fun b path => confined b (first.reaches path)) path run

/-- A call below two decisions that fails. -/
theorem falsum_backjumps_knot : ∃ m s' a, prepare knot.2 knot.1 {} = .ok (m, s') ∧ m.Calls s' .never a ∧
    a.state.solver.core.depth = 2 ∧
      Delivers (Compilation.tree a.bound a.tree a.nested a.state) fun x => x.1 = .compiled .falsum ∧
        ∃ lits level, x.2.solver.lesson = some lits ∧ x.2.solver.assertionLevel = some level ∧ level < 2 := by
  have ran : Delivers (prepare knot.2 knot.1 {}) fun x => ∃ a ∈ x.1.calls x.2 .never,
      a.state.solver.core.depth = 2 ∧
        Delivers (Compilation.tree a.bound a.tree a.nested a.state) fun y => y.1 = .compiled .falsum := by
    decide +kernel
  obtain ⟨⟨m, s'⟩, prepared, a, listed, depth, ⟨_, c⟩, run, rfl⟩ := ran
  have calls := mem_calls.mp listed
  have lesson := (calls.falsum_backjumps knot_reachable knot_mem prepared fun _ =>
    knot_confined prepared).answer run rfl
  exact ⟨m, s', a, prepared, calls, depth, _, run, rfl, depth ▸ lesson⟩

end Compiler

namespace Store

open Compiler Compilation

variable {s s' : Store} {f : Formula} {settings : Settings} {handler handler' : Handler} {d : Circuit}

/-- All calls in the compilation of a formula are confined. -/
def Confined (s : Store) (f : Formula) (settings : Settings) (handler : Handler) : Prop :=
  ∀ m s' a, prepare (s.cnf f).2 (s.cnf f).1 settings = .ok (m, s') → m.Calls s' handler a → a.Confined

/-- A circuit with the models of a formula, to be counted over the variables of the formula. -/
structure Exact (s : Store) (f : Formula) (s' : Store) (d : Circuit) : Prop where
  wellFormed : s'.WellFormed
  countable : s'.Countable d.formula
  eval_eq : ∀ value, s'.eval value d.formula = s.eval value f
  distinct : d.vars.Nodup
  mem_vars : ∀ v, v ∈ d.vars ↔ v ∈ s.vars f
  within : ∀ v ∈ s'.vars d.formula, v ∈ s.vars f

theorem Confined.exact (confined : s.Confined f settings handler) (reachable : s.Reachable) (known : f ∈ s)
    (run : s.compile f settings handler = .ok (some d, s', handler')) : s.Exact f s' d := by
  have wf := reachable.wellFormed
  obtain ⟨grows, restates⟩ := wf.cnf_restates known
  have wf₁ := grows.wellFormed wf
  have later := grows.later wf
  obtain ⟨grown, circuit⟩ := (compile_yields run).detNnf reachable known
  simp only [compile, bind_ok, Prod.exists] at run
  obtain ⟨m, s₁, prepared, outcome, m', s₂, handler₂, compiled, run⟩ := run
  cases outcome with
  | cancelled => cases run
  | compiled g =>
    cases run
    obtain ⟨decomposable, means⟩ :=
      compile_exact wf₁ restates.2.mem prepared (fun a => confined m s₁ a prepared) compiled
    refine ⟨grown.wellFormed wf, ⟨circuit.mem, circuit.isNnf, decomposable, circuit.deterministic⟩,
      fun value => ?_, ?_, fun v => ?_, circuit.vars_sub⟩
    · rw [means, restates.2.eval_eq, later.eval_eq known]
      rfl
    · exact (ascending_mergeVars (wf₁.ascending_vars (later.mem known))
        (wf₁.ascending_vars restates.2.mem)).imp fun below same => by simp [same] at below
    · rw [mem_mergeVars, later.vars_eq known, or_iff_left_of_imp fun mentioned => ?_]
      exact later.vars_eq known ▸ (restates.2.vars_sub v mentioned).1

theorem Countable.modelCount_eq (wf : s.WellFormed) (countable : s.Countable d.formula)
    (distinct : d.vars.Nodup) (within : ∀ v ∈ s.vars d.formula, v ∈ d.vars) :
    d.modelCount s = .ok (s.models d.formula d.vars.toFinset).card := by
  obtain ⟨⟨n, memo⟩, run, _⟩ := countFrom_delivers countable.isNnf ∅
  have counts := (countFrom_counts wf countable.mem (Tallied.empty s) run).right countable
  have inside : (s.vars d.formula).toFinset ⊆ d.vars.toFinset := fun v mentioned =>
    List.mem_toFinset.mpr (within v (List.mem_toFinset.mp mentioned))
  rw [Circuit.modelCount, run, wf.card_models countable.mem inside, List.toFinset_card_of_nodup distinct,
    ← counts, ← Nat.shiftLeft_eq]
  rfl

theorem Exact.modelCount_eq (exact_ : s.Exact f s' d) :
    d.modelCount s' = .ok (s.models f (s.vars f).toFinset).card := by
  have same : d.vars.toFinset = (s.vars f).toFinset := by
    ext v
    rw [List.mem_toFinset, List.mem_toFinset, exact_.mem_vars]
  rw [exact_.countable.modelCount_eq exact_.wellFormed exact_.distinct fun v mentioned =>
    (exact_.mem_vars v).mpr (exact_.within v mentioned), same, models, models]
  simp only [exact_.eval_eq]

theorem Confined.compiles (confined : s.Confined f settings handler) (reachable : s.Reachable)
    (known : f ∈ s) : Strives (64 ≤ ((s.cnf f).2.vars (s.cnf f).1).length)
      (s.compile f settings handler) fun x => (handler = .never → ∃ d, x.1 = some d) ∧
        ∀ d, x.1 = some d → s.Exact f x.2.1 d := by
  rcases reachable.wellFormed.compile_answers known settings handler with ⟨x, run, goes⟩ | exhausted
  · refine .inl ⟨x, run, fun untiring => (goes untiring).1, fun d some => ?_⟩
    obtain ⟨_, s', handler'⟩ := x
    cases some
    exact confined.exact reachable known run
  · exact .inr exhausted

theorem cnf_knot : knot.2.cnf knot.1 = knot := if_pos (by decide +kernel)

theorem knot_confined : knot.2.Confined knot.1 {} .never := by
  intro m s' a prepared calls
  rw [cnf_knot] at prepared
  exact Compiler.knot_confined prepared calls

theorem knot_narrow : ¬64 ≤ ((knot.2.cnf knot.1).2.vars (knot.2.cnf knot.1).1).length := by
  decide +kernel

/-- Whatever handler watches it, a confined compilation answers a circuit with the models of the formula. -/
theorem Confined.compile_equivalent (confined : s.Confined f settings handler) (reachable : s.Reachable)
    (known : f ∈ s) : Strives (64 ≤ ((s.cnf f).2.vars (s.cnf f).1).length)
      (s.compile f settings handler) fun x => (handler = .never → ∃ d, x.1 = some d) ∧
        ∀ d, x.1 = some d → ∀ value, x.2.1.eval value d.formula = s.eval value f :=
  (confined.compiles reachable known).mono id fun _ ⟨goes, circuits⟩ =>
    ⟨goes, fun d some => (circuits d some).eval_eq⟩

/-- There are expansions, subproblems that are met again, and a lesson that is asserted. -/
theorem compile_equivalent_knot :
    (∃ m s' x a c q, prepare (knot.2.cnf knot.1).2 (knot.2.cnf knot.1).1 {} = .ok (m, s') ∧
      m.compile s' .never = .ok x ∧ x.2.1.stats.expansions = 3 ∧ x.2.1.stats.cacheHits = 2 ∧
        m.Calls s' .never a ∧ a.Retries c ∧ c.solver.assertLesson = .ok (true, q)) ∧
    Delivers (knot.2.compile knot.1 {} .never) fun x => ∃ d, x.1 = some d ∧
      ∀ value, x.2.1.eval value d.formula =
        [[⟨7⟩, ⟨2⟩, ⟨8⟩], [⟨5⟩, ⟨8⟩, ⟨0⟩], [⟨0⟩, ⟨5⟩, ⟨3⟩], [⟨1⟩, ⟨5⟩, ⟨8⟩], [⟨9⟩, ⟨0⟩]].all
          fun c : List Lit => c.any (·.holds value) := by
  constructor
  · have ran : Delivers (prepare (knot.2.cnf knot.1).2 (knot.2.cnf knot.1).1 {}) fun x =>
        Delivers (x.1.compile x.2 .never) (fun y => y.2.1.stats.expansions = 3 ∧ y.2.1.stats.cacheHits = 2) ∧
          ∃ a ∈ x.1.calls x.2 .never, ∃ c ∈ a.retries, (agreed? c.solver.assertLesson).isSome := by
      decide +kernel
    obtain ⟨⟨m, s'⟩, prepared, ⟨x, run, expansions, hits⟩, a, listed, c, retry, agreed⟩ := ran
    obtain ⟨q, agreed⟩ := Option.isSome_iff_exists.mp agreed
    exact ⟨m, s', x, a, c, q, prepared, run, expansions, hits, mem_calls.mp listed,
      Call.mem_retries.mp retry, agreed?_eq_some.mp agreed⟩
  · refine ((knot_confined.compile_equivalent knot_reachable knot_mem).resolve_right
      fun hard => knot_narrow hard.1).mono fun x answers => ?_
    obtain ⟨goes, circuits⟩ := answers
    obtain ⟨d, some⟩ := goes rfl
    exact ⟨d, some, fun value => (circuits d some value).trans (knot_builds.eval_eq value)⟩

/-- The circuit is decomposable. -/
theorem Confined.compile_decomposable (confined : s.Confined f settings handler) (reachable : s.Reachable)
    (known : f ∈ s) : Strives (64 ≤ ((s.cnf f).2.vars (s.cnf f).1).length)
      (s.compile f settings handler) fun x => (handler = .never → ∃ d, x.1 = some d) ∧
        ∀ d, x.1 = some d → x.2.1.Decomposable d.formula :=
  (confined.compiles reachable known).mono id fun _ ⟨goes, circuits⟩ =>
    ⟨goes, fun d some => (circuits d some).countable.decomposable⟩

theorem compile_decomposable_knot : Delivers (knot.2.compile knot.1 {} .never) fun x => ∃ d, x.1 = some d ∧
    x.2.1.Decomposable d.formula := by
  refine ((knot_confined.compile_decomposable knot_reachable knot_mem).resolve_right
    fun hard => knot_narrow hard.1).mono fun x answers => ?_
  obtain ⟨goes, circuits⟩ := answers
  obtain ⟨d, some⟩ := goes rfl
  exact ⟨d, some, circuits d some⟩

/-- So the number that is counted for it is the number of models of the formula over its own variables. -/
theorem Confined.compile_counts (confined : s.Confined f settings handler) (reachable : s.Reachable)
    (known : f ∈ s) : Strives (64 ≤ ((s.cnf f).2.vars (s.cnf f).1).length)
      (s.compile f settings handler) fun x => (handler = .never → ∃ d, x.1 = some d) ∧
        ∀ d, x.1 = some d → d.modelCount x.2.1 = .ok (s.models f (s.vars f).toFinset).card :=
  (confined.compiles reachable known).mono id fun _ ⟨goes, circuits⟩ =>
    ⟨goes, fun d some => (circuits d some).modelCount_eq⟩

/-- Of the 32 assignments to its five variables, fourteen satisfy the knot. -/
theorem compile_counts_knot : Delivers (knot.2.compile knot.1 {} .never) fun x => ∃ d, x.1 = some d ∧
    d.modelCount x.2.1 = .ok 14 ∧ (knot.2.models knot.1 (knot.2.vars knot.1).toFinset).card = 14 := by
  have ran : Delivers (knot.2.compile knot.1 {} .never) fun x => ∃ d ∈ x.1, d.modelCount x.2.1 = .ok 14 := by
    decide +kernel
  obtain ⟨x, run, d, some, counted⟩ := ran
  obtain ⟨_, circuits⟩ := (knot_confined.compile_counts knot_reachable knot_mem).answer run
  exact ⟨x, run, d, some, counted, Except.ok.inj ((circuits d some).symm.trans counted)⟩

end Store

end ModelCounting
