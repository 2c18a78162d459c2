import ModelCounting.Proofs.Validity

/-!
What a confined compilation makes of a subtree. Each call that its recursion leads to either fails, and then
a lesson is left, or ends with a circuit for the literals it had to report and for what was left of its
subtree; on the way only variables left in the subtree have been assigned. However a call ends, the cache
answers for its keys all the time.
-/

namespace ModelCounting

namespace Compilation

open Store

variable {Γ : List (List Lit)} {c c' c₁ c₂ c₃ : Compilation} {t u left right : PlacedTree} {d : PlacedInner}
  {nested n : Nat} {v : Var} {phase : Bool} {implied f g h : Formula} {key : IndexSet} {ls : List Lit}
  {outcome : Outcome}

namespace Call

variable {r a : Call}

structure Faithful (r : Call) (c : Compilation) : Prop where
  wellFormed : c.store.WellFormed
  entries : ∀ key f, c.cache.find? key = some f → r.state.solver.Answers r.tree key c.store f

theorem Faithful.later (faithful : r.Faithful c) (grows : Grows c.store c'.store)
    (same : ∀ key, c'.cache.find? key = c.cache.find? key) : r.Faithful c' where
  wellFormed := grows.wellFormed faithful.wellFormed
  entries key f found := (faithful.entries key f (same key ▸ found)).later (grows.later faithful.wellFormed)

theorem Faithful.withSolver (faithful : r.Faithful c) (p : Stepper) : r.Faithful { c with solver := p } :=
  ⟨faithful.wellFormed, faithful.entries⟩

theorem Faithful.looked (faithful : r.Faithful c) (t : PlacedTree) : r.Faithful (c.looked t) :=
  faithful.later (.refl _) fun key => (SubproblemCache.find_query c.cache (c.key t) key).2

theorem Faithful.insert (faithful : r.Faithful c) (answers : r.state.solver.Answers r.tree key c.store f) :
    r.Faithful { c with cache := c.cache.insert key f } where
  wellFormed := faithful.wellFormed
  entries key' g found := by
    rcases SubproblemCache.find_insert found with ⟨rfl, same⟩ | found
    · exact answers.congr same
    · exact faithful.entries key' g found

/-- What a step for a subtree finds that has some literals to report. -/
structure Finds (r : Call) (t : PlacedTree) (ls : List Lit) (c : Compilation) (f : Formula)
    (c' : Compilation) : Prop where
  expresses : r.state.solver.Expresses t c.solver.core.trail.valueVar ls c'.store f
  reported : c'.solver.unreported = false
  inside : ∀ l ∈ c'.solver.core.trail.lits, l ∉ c.solver.core.trail.lits →
    l.var.id ∈ t.undecidedVars c.solver.core.trail.valueVar

/-- How such a step ends. -/
structure Resolves (r : Call) (t : PlacedTree) (ls : List Lit) (c : Compilation) (outcome : Outcome)
    (c' : Compilation) : Prop where
  grows : Grows c.store c'.store
  faithful : r.Faithful c'
  taught : outcome = .compiled .falsum → c'.solver.lesson ≠ none
  finds : ∀ f, outcome = .compiled f → f ≠ .falsum → r.Finds t ls c f c'

/-- How one side of an expansion ends: unless it fails, with a circuit for what was left of the subtree if
the variable has the phase. -/
structure ResolvesHalf (r : Call) (t : PlacedTree) (v : Var) (phase : Bool) (c : Compilation)
    (outcome : Outcome) (c' : Compilation) : Prop where
  grows : Grows c.store c'.store
  faithful : r.Faithful c'
  taught : outcome = .compiled .falsum → c'.solver.lesson ≠ none
  reported : c'.solver.unreported = false
  expresses : ∀ f, outcome = .compiled f → f ≠ .falsum → ∃ meaning : (Var → Bool) → Prop,
    r.state.solver.Represents (t.undecidedVars c.solver.core.trail.valueVar \ {v.id}) meaning c'.store f ∧
      ∀ value, value v = phase →
        (meaning value ↔ Dtree.Solves value (t.problem c.solver.core.trail.valueVar))

namespace Resolves

variable (grows : Grows c.store c'.store) (faithful : r.Faithful c')

include grows faithful

theorem cancelled : r.Resolves t ls c .cancelled c' := ⟨grows, faithful, nofun, nofun⟩

theorem failed (taught : c'.solver.lesson ≠ none) : r.Resolves t ls c (.compiled .falsum) c' :=
  ⟨grows, faithful, fun _ => taught, fun _ same some => absurd (Outcome.compiled.inj same).symm some⟩

theorem found (finds : r.Finds t ls c f c') : r.Resolves t ls c (.compiled f) c' where
  grows := grows
  faithful := faithful
  taught same := absurd (Outcome.compiled.inj same) (finds.expresses.ne_falsum faithful.wellFormed)
  finds _ same _ := Outcome.compiled.inj same ▸ finds

end Resolves

theorem expansion_outcome (run : expansion implied v f g c = .ok (outcome, c')) :
    ∃ h, outcome = .compiled h := by
  obtain ⟨name, _, made⟩ := bind_ok.mp run
  cases made
  exact ⟨_, rfl⟩

theorem not_left_of_reported {p : Stepper} {known : IndexSet} (wf : p.core.trail.WellFormed) {i : Nat}
    (listed : i ∈ Lit.indices (p.consequences known)) : i ∉ t.undecidedVars p.core.trail.valueVar := by
  obtain ⟨l, member, rfl⟩ := listed
  exact fun free => (wf.undef_iff l.var).mp (Dtree.undefined_of_mem free) l
    (Array.mem_toList_iff.mp (Stepper.consequences_sublist.subset member)) rfl

theorem problem_other {p q : Stepper} (larger : Enlarges p.core.trail.valueVar q.core.trail.valueVar)
    (wf : p.core.trail.WellFormed) (wf' : q.core.trail.WellFormed)
    (nothing : ∀ i, i ∉ (Dtree.node d left right).sharedVars p.core.trail.valueVar)
    (inside : ∀ l ∈ q.core.trail.lits, l ∉ p.core.trail.lits →
      l.var.id ∈ left.undecidedVars p.core.trail.valueVar) :
    right.problem q.core.trail.valueVar = right.problem p.core.trail.valueVar := by
  refine Dtree.problem_apart larger fun v there => ?_
  by_contra assigned
  obtain ⟨l, member, rfl⟩ := wf'.exists_mem assigned
  refine nothing l.var.id ⟨inside l member fun old => ?_, there⟩
  exact (wf.undef_iff l.var).mp (Dtree.undefined_of_mem there) l old rfl

section Steps

variable (opens : r.Opens Γ)

include opens

/-! Circuits. -/

section Circuits

variable {α : Var → Truth} {s : Store} (wf : s.WellFormed)
  (reports : r.state.solver.Represents (Lit.indices ls) (fun value => ∀ l ∈ ls, l.holds value = true) s
    implied)

include wf

theorem Opens.decision_expresses {meaning meaning' : (Var → Bool) → Prop} {name : Var}
    (first : r.state.solver.Represents (t.undecidedVars α \ {v.id}) meaning s f)
    (second : r.state.solver.Represents (t.undecidedVars α \ {v.id}) meaning' s g)
    (yes : ∀ value, value v = true → (meaning value ↔ Dtree.Solves value (t.problem α)))
    (no : ∀ value, value v = false → (meaning' value ↔ Dtree.Solves value (t.problem α)))
    (left_has : v.id ∈ t.undecidedVars α) (called : r.state.solver.names[v.id]? = some name) :
    Grows s (s.decision name f g).2 ∧
      r.state.solver.Expresses t α [] (s.decision name f g).2 (s.decision name f g).1 := by
  have fits : name.Fits := opens.fits name (Array.mem_of_getElem? called)
  obtain ⟨grows, decision⟩ := Stepper.decision_represents opens.named wf first second called fits
    (fun inside => inside.2 rfl) fun inside => inside.2 rfl
  refine ⟨grows, Stepper.expresses_nil.mpr (decision.mono ?_ fun value => ?_)⟩
  · rintro i (rfl | inside | inside)
    · exact left_has
    · exact inside.1
    · exact inside.1
  · cases phase : value v with
    | true => simpa [phase] using yes value phase
    | false => simpa [phase] using no value phase

include reports

theorem Opens.report_expresses (expresses : r.state.solver.Expresses t α [] s f)
    (assigned : ∀ i ∈ Lit.indices ls, i ∉ t.undecidedVars α) :
    Grows s (s.conj [implied, f]).2 ∧
      r.state.solver.Expresses t α ls (s.conj [implied, f]).2 (s.conj [implied, f]).1 := by
  rw [Stepper.expresses_nil] at expresses
  have known : ∀ k ∈ [implied, f], k ∈ s := by simp [Realizes.mem reports, Realizes.mem expresses]
  exact ⟨(Step.junction s .conj known).grows,
    Stepper.conj_two_represents opens.named wf reports expresses assigned⟩

theorem Opens.join_expresses (first : r.state.solver.Expresses left α [] s f)
    (second : r.state.solver.Expresses right α [] s g)
    (assigned : ∀ i ∈ Lit.indices ls, i ∉ (Dtree.node d left right).undecidedVars α)
    (nothing : ∀ i, i ∉ (Dtree.node d left right).sharedVars α) :
    Grows s (s.conj [implied, f, g]).2 ∧ r.state.solver.Expresses (.node d left right) α ls
      (s.conj [implied, f, g]).2 (s.conj [implied, f, g]).1 := by
  rw [Stepper.expresses_nil] at first second
  have known : ∀ k ∈ [implied, f, g], k ∈ s := by
    simp [Realizes.mem reports, Realizes.mem first, Realizes.mem second]
  have whole := Stepper.conj_three_represents opens.named wf reports first second
    (fun i listed left_has => assigned i listed (Dtree.undecidedVars_node.mpr left_has))
    fun i here there => nothing i ⟨here, there⟩
  refine ⟨(Step.junction s .conj known).grows, whole.mono ?_ fun value => ?_⟩
  · exact Set.union_subset_union_right _ fun i => Dtree.undecidedVars_node.mpr
  · rw [Dtree.solves_node]

end Circuits

/-! Reports and leaves. -/

theorem Opens.enter_represents (situated : r.Situated a) (faithful : r.Faithful a.state)
    (run : a.state.enter a.tree = .ok (implied, c)) : Grows a.state.store c.store ∧
      r.state.solver.Represents (Lit.indices (a.state.solver.consequences a.tree.vars))
        (fun value => ∀ l ∈ a.state.solver.consequences a.tree.vars, l.holds value = true)
        c.store implied := by
  unfold enter at run
  simp only at run
  split at run
  · rename_i reported
    cases run
    obtain ⟨ms, read, made⟩ := bind_ok.mp reported
    cases made
    rw [situated.abides.litOf_eq] at read
    refine Stepper.cube_represents (mapM_ok read) opens.named faithful.wellFormed opens.fits ?_
    exact (Stepper.consequences_sublist.map _).nodup situated.abides.sound.core.trail.nodup_vars
  · cases run

theorem Opens.entered (path : Relation.ReflTransGen Makes r ⟨n, t, nested, c⟩) (faithful : r.Faithful c)
    (enter : c.enter t = .ok (implied, c₁)) :
    c₁.solver.core = c.solver.core ∧ c₁.solver.unreported = false ∧ Grows c.store c₁.store ∧
      r.Faithful c₁ ∧ implied ≠ .falsum ∧ r.state.solver.Represents
        (Lit.indices (c.solver.consequences t.vars))
        (fun value => ∀ l ∈ c.solver.consequences t.vars, l.holds value = true) c₁.store implied := by
  obtain ⟨_, situated⟩ := opens.reaches path
  obtain ⟨grows, reports⟩ := opens.enter_represents situated faithful enter
  obtain ⟨beside, reported, _⟩ := enter_beside enter
  have core : c₁.solver.core = c.solver.core := by rw [beside.solver]
  exact ⟨core, reported, grows, faithful.later grows fun key => congrArg (·.find? key) beside.cache,
    reports.ne_falsum (grows.wellFormed faithful.wellFormed), reports⟩

/-- What a leaf is compiled to. -/
theorem Opens.leaf_expresses {l : PlacedLeaf} (leaf : l ∈ r.tree.leaves)
    (abides : r.state.solver.Abides c.solver) (calm : c.solver.Calm Γ) (wf : c.store.WellFormed)
    (run : c.leaf l = .ok (f, c')) : Grows c.store c'.store ∧ c' = { c with store := c'.store } ∧
      r.state.solver.Expresses (.leaf l) c.solver.core.trail.valueVar [] c'.store f := by
  have fits : c.solver.NamesIn Var.Fits := opens.fits.congr abides.spares.names_eq
  obtain ⟨grows, same, result⟩ :=
    leaf_result wf (fun _ _ named => Var.Fits.word (Stepper.litOf_in fits named)) run
  refine ⟨grows, same, Stepper.expresses_nil.mpr ?_⟩
  have wf' := grows.wellFormed wf
  have left : (Dtree.leaf l : PlacedTree).remaining c.solver.core.trail.valueVar =
      if l.Remains c.solver.core.trail.valueVar then [l] else [] := by
    simp [Dtree.remaining, Dtree.leaves, List.filter_cons]
  rcases result with ⟨⟨m, literal, true_⟩, rfl⟩ | ⟨unsatisfied, ms, called, oneOf⟩
  · rw [if_neg fun remains => remains m literal true_] at left
    refine (Stepper.verum_represents wf').mono (Set.empty_subset _) fun value => ?_
    simp [Dtree.solves_iff, left]
  · have remains : l.Remains c.solver.core.trail.valueVar := unsatisfied
    rw [if_pos remains] at left
    rw [abides.litOf_eq] at called
    -- The clause is not false, so one of its literals is undecided.
    have some : l.lits.filter (c.solver.value · = .undef) ≠ [] := by
      obtain ⟨m, literal, possible⟩ :=
        calm.unfalsified (abides.covered (fun r added => (opens.stocks r added).1) (opens.covers l leaf))
      refine List.ne_nil_of_mem (a := m) (List.mem_filter.mpr ⟨literal, decide_eq_true ?_⟩)
      cases value : c.solver.value m with
      | undef => rfl
      | tru => exact absurd value (unsatisfied m literal)
      | fls => exact absurd value possible
    refine (Stepper.oneOf_represents called oneOf some).mono ?_ fun value => ?_
    · rintro i ⟨m, member, rfl⟩
      obtain ⟨literal, free⟩ := List.mem_filter.mp member
      refine ⟨l, left ▸ List.mem_singleton_self l, m, List.mem_filter.mpr ⟨literal, ?_⟩, rfl⟩
      exact decide_eq_true ((Trail.value_of_var _ _).mp (of_decide_eq_true free))
    · simp only [Dtree.solves_iff, left, List.mem_singleton, forall_eq, List.mem_filter, decide_eq_true_eq]
      simp only [Stepper.value_eq, Lit.under_undef, and_assoc]

theorem Opens.leaf_finds {l : PlacedLeaf} (leaf : l ∈ r.tree.leaves)
    (abides : r.state.solver.Abides c.solver) (calm : c.solver.Calm Γ) (faithful : r.Faithful c)
    (reported : c.solver.unreported = false) (run : c.leaf l = .ok (f, c')) :
    Grows c.store c'.store ∧ r.Faithful c' ∧ r.Finds (.leaf l) [] c f c' := by
  obtain ⟨grows, same, expresses⟩ := opens.leaf_expresses leaf abides calm faithful.wellFormed run
  have solver : c'.solver = c.solver := by rw [same]
  exact ⟨grows, faithful.later grows (by rw [same]; simp), expresses, solver ▸ reported,
    fun _ member new => absurd (solver ▸ member) new⟩

theorem Opens.report_resolves {l : PlacedLeaf} (path : Relation.ReflTransGen Makes r ⟨n, .leaf l, nested, c⟩)
    (faithful : r.Faithful c) (enter : c.enter (.leaf l) = .ok (implied, c₁))
    (run : c₁.leaf l = .ok (f, c₂)) :
    r.Resolves (.leaf l) (c.solver.consequences (Dtree.leaf l).vars) c (c₂.conj [implied, f]).1
      (c₂.conj [implied, f]).2 := by
  obtain ⟨safe, situated⟩ := opens.reaches path
  obtain ⟨core, reported, grows₁, faithful₁, _, reports⟩ := opens.entered path faithful enter
  have abides := situated.abides.trans (enter_rejoins situated.abides.sound enter).abides
  have member : l ∈ r.tree.leaves := (Dtree.leaves_sublist situated.below).subset (List.mem_singleton_self l)
  obtain ⟨grows₂, faithful₂, finds⟩ :=
    opens.leaf_finds member abides (safe.admits.enter.answer enter).1.calm faithful₁ reported run
  obtain ⟨grows, expresses⟩ := opens.report_expresses faithful₂.wellFormed
    (reports.later (grows₂.later faithful₁.wellFormed)) (core ▸ finds.expresses)
    fun i => not_left_of_reported situated.abides.sound.core.trail
  exact .found ((grows₁.trans grows₂).trans grows) (faithful₂.later grows fun _ => rfl)
    ⟨expresses, finds.reported, fun m on new => core ▸ finds.inside m on (core ▸ new)⟩

/-! The parts of a node. -/

/-- A look-up finds what the entry answers for, and what is compiled is remembered as that. -/
theorem Opens.cached_resolves {step : CompilationStep} (below : t ∈ r.tree.subtrees)
    (abides : r.state.solver.Abides c.solver) (faithful : r.Faithful c)
    (reported : c.solver.unreported = false)
    (compiles : ∀ {outcome c₂}, c.cache.find? (c.key t) = none → r.Faithful (c.looked t) →
      step (c.looked t) = .ok (outcome, c₂) → r.Resolves t [] (c.looked t) outcome c₂)
    (run : cached step t nested c = .ok (outcome, c')) : r.Resolves t [] c outcome c' := by
  have key : c.key t =
      t.cacheKey (Lit.under c.solver.core.trail.valueVar) r.state.solver.varCount .empty := by
    rw [Compilation.key, Stepper.value_eq, Stepper.varCount, Stepper.varCount, abides.spares.names_eq]
  have looked := (SubproblemCache.find_query c.cache (c.key t) (c.key t)).1
  simp only [cached, bind_ok] at run
  obtain ⟨_, _, run⟩ := run
  split at run
  · rename_i f found
    cases run
    have expresses : r.state.solver.Expresses t c.solver.core.trail.valueVar [] c.store f := by
      rw [opens.expresses_iff below, ← key]
      exact faithful.entries _ _ (looked.symm.trans found)
    exact .found (.refl _) (faithful.looked t) ⟨expresses, reported, fun _ member new => absurd member new⟩
  · rename_i missing
    obtain ⟨⟨result, c₂⟩, compiled, run⟩ := bind_ok.mp run
    have resolves := compiles (looked.symm.trans missing) (faithful.looked t) compiled
    cases result with
    | cancelled =>
      cases run
      exact .cancelled resolves.grows resolves.faithful
    | compiled f =>
      simp only [pure_ok, Prod.mk.injEq] at run
      obtain ⟨rfl, rfl⟩ := run
      split
      · rename_i falsum
        subst falsum
        exact .failed resolves.grows resolves.faithful (resolves.taught rfl)
      · rename_i some
        have finds := resolves.finds f rfl some
        have answers : r.state.solver.Answers r.tree (c.key t) c₂.store f := by
          rw [key, ← opens.expresses_iff below]
          exact finds.expresses
        exact .found resolves.grows (resolves.faithful.insert answers)
          ⟨finds.expresses, finds.reported, finds.inside⟩

def Resolved (r : Call) (n : Nat) : Prop :=
  ∀ {t : PlacedTree} {nested : Nat} {c c' : Compilation} {outcome : Outcome},
    Relation.ReflTransGen Makes r ⟨n, t, nested, c⟩ → r.Faithful c →
      Compilation.tree n t nested c = .ok (outcome, c') →
        r.Resolves t (c.solver.consequences t.vars) c outcome c'

theorem Opens.part_resolves (below : Resolved r n)
    (path : Relation.ReflTransGen Makes r ⟨n + 1, t, nested, c⟩)
    (parts : Call.Parts ⟨n + 1, t, nested, c⟩ u c₁) (faithful : r.Faithful c₁)
    (reported : c₁.solver.unreported = false)
    (run : part (Compilation.tree n · 0) nested u c₁ = .ok (outcome, c')) :
    r.Resolves u [] c₁ outcome c' := by
  obtain ⟨safe, situated⟩ := opens.reaches path
  have abides := situated.abides.trans (parts.continues situated.abides.sound).abides
  have inner : u ∈ r.tree.subtrees := Dtree.subtrees_trans situated.below
    (parts.detached (situated.lists opens.lists) situated.detached).1
  cases u with
  | leaf l =>
    obtain ⟨⟨g, c₂⟩, leaf, run⟩ := bind_ok.mp run
    cases run
    have member : l ∈ r.tree.leaves := (Dtree.leaves_sublist inner).subset (List.mem_singleton_self l)
    obtain ⟨grows, faithful', finds⟩ :=
      opens.leaf_finds member abides (parts.admits safe).1.calm faithful reported leaf
    exact .found grows faithful' finds
  | node d left right =>
    refine opens.cached_resolves inner abides faithful reported (fun missing faithful' compiled => ?_) run
    have nothing : (c₁.looked (.node d left right)).solver.consequences (Dtree.node d left right).vars = [] :=
      Stepper.consequences_reported reported
    exact nothing ▸ below (path.tail (.part parts missing)) faithful' compiled

theorem Opens.conjoin_resolves (below : Resolved r n)
    (path : Relation.ReflTransGen Makes r ⟨n + 1, .node d left right, nested, c⟩)
    (faithful : r.Faithful c) (enter : c.enter (.node d left right) = .ok (implied, c₁))
    (apart : c₁.separator.isEmpty = true)
    (run : conjoin (Compilation.tree n · 0) nested implied left right c₁ = .ok (outcome, c')) :
    r.Resolves (.node d left right) (c.solver.consequences (Dtree.node d left right).vars) c outcome c' := by
  obtain ⟨safe, situated⟩ := opens.reaches path
  obtain ⟨core, reported, grows₁, faithful₁, some, reports⟩ := opens.entered path faithful enter
  have nothing := (enter_apart_iff (situated.lists opens.lists) enter).mp apart
  have wf : c.solver.core.trail.WellFormed := situated.abides.sound.core.trail
  unfold conjoin at run
  rw [if_neg some] at run
  obtain ⟨⟨result, c₂⟩, first, run⟩ := bind_ok.mp run
  have yes := opens.part_resolves below path (.left enter apart some) faithful₁ reported first
  have grows₂ := grows₁.trans yes.grows
  cases result with
  | cancelled =>
    cases run
    exact .cancelled grows₂ yes.faithful
  | compiled f =>
    simp only at run
    split at run
    · rename_i falsum
      cases run
      exact .failed grows₂ yes.faithful (yes.taught (congrArg _ falsum))
    rename_i some'
    have here := yes.finds f rfl some'
    obtain ⟨⟨result, c₃⟩, second, run⟩ := bind_ok.mp run
    have parts : Parts ⟨n + 1, .node d left right, nested, c⟩ right c₂ :=
      .right enter apart some first some'
    have no := opens.part_resolves below path parts yes.faithful here.reported second
    have grows₃ := grows₂.trans no.grows
    cases result with
    | cancelled =>
      cases run
      exact .cancelled grows₃ no.faithful
    | compiled g =>
      simp only at run
      split at run
      · rename_i falsum
        cases run
        exact .failed grows₃ no.faithful (no.taught (congrArg _ falsum))
      rename_i some''
      cases run
      have there := no.finds g rfl some''
      have wf₂ := yes.faithful.wellFormed
      have wf₃ := no.faithful.wellFormed
      have continues := parts.continues situated.abides.sound
      -- The first part has left the second one as it was.
      have same : right.problem c₂.solver.core.trail.valueVar = right.problem c.solver.core.trail.valueVar :=
        problem_other (continues.grows.enlarges wf continues.sound.core.trail) wf
          continues.sound.core.trail nothing (core ▸ here.inside)
      have same' : right.undecidedVars c₂.solver.core.trail.valueVar =
          right.undecidedVars c.solver.core.trail.valueVar := by
        ext i
        rw [Dtree.mem_undecidedVars, Dtree.mem_undecidedVars, same]
      have second := there.expresses
      rw [Stepper.expresses_nil, same, same', ← Stepper.expresses_nil] at second
      obtain ⟨grows, expresses⟩ := opens.join_expresses wf₃
        (reports.later ((yes.grows.trans no.grows).later faithful₁.wellFormed))
        ((core ▸ here.expresses).later (no.grows.later wf₂)) second
        (fun i => not_left_of_reported wf) nothing
      refine .found (grows₃.trans grows) (no.faithful.later grows fun _ => rfl)
        ⟨expresses, there.reported, fun l member new => ?_⟩
      rw [Dtree.undecidedVars_node]
      by_cases old : l ∈ c₂.solver.core.trail.lits
      · exact .inl (core ▸ here.inside l old (core ▸ new))
      · exact .inr (same' ▸ there.inside l member old)

/-! Expansions. -/

theorem Opens.branch_resolves (below : Resolved r n)
    (path : Relation.ReflTransGen Makes r ⟨n + 1, t, nested, c⟩)
    (confined : Confined ⟨n + 1, t, nested, c⟩) (before : Branches ⟨n + 1, t, nested, c⟩ v phase c₁)
    (faithful : r.Faithful c₁)
    (run : branch (Compilation.tree n t (nested + 1)) v phase c₁ = .ok (outcome, c')) :
    r.ResolvesHalf t v phase c₁ outcome c' := by
  obtain ⟨safe, situated⟩ := opens.reaches path
  obtain ⟨admits, candidate, _⟩ := before.admits safe
  rcases branch_ok run with ⟨p, q, decide, undo, rfl, rfl⟩ | ⟨p, c₂, q, decide, inner, undo, rfl⟩
  · have decides := admits.calm.decide_decides candidate.inside candidate.free decide
    obtain ⟨lesson, reported⟩ := Stepper.undo_lesson undo
    exact ⟨.refl _, faithful.withSolver q, fun _ => lesson ▸ decides.taught opens.model rfl, reported,
      fun f same some => absurd (Outcome.compiled.inj same).symm some⟩
  · have resolves := below (path.tail (.branch before decide)) (faithful.withSolver p) inner
    obtain ⟨lesson, reported⟩ := Stepper.undo_lesson undo
    obtain ⟨among, same⟩ := opens.decide_leaves path confined before decide
    exact ⟨resolves.grows, resolves.faithful.withSolver q, fun falsum => lesson ▸ resolves.taught falsum,
      reported, fun f finished some =>
        ⟨_, (resolves.finds f finished some).expresses.mono among fun _ => Iff.rfl, same⟩⟩

/-- A failed branch is made up for if its lesson can be asserted, and otherwise the failure is passed on. -/
theorem Opens.retry_resolves (below : Resolved r n)
    (path : Relation.ReflTransGen Makes r ⟨n + 1, t, nested, c⟩)
    (confined : Confined ⟨n + 1, t, nested, c⟩) (failed : Retries ⟨n + 1, t, nested, c⟩ c₁)
    (grows : Grows c.store c₁.store) (faithful : r.Faithful c₁) (taught : c₁.solver.lesson ≠ none)
    (run : retry (Compilation.tree n t 0) c₁ = .ok (outcome, c')) :
    r.Resolves t (c.solver.consequences t.vars) c outcome c' := by
  obtain ⟨safe, situated⟩ := opens.reaches path
  have rejoins := failed.rejoins situated.abides.sound
  obtain ⟨_, _, _, closes⟩ := failed.closes safe
  unfold retry at run
  split at run
  · rename_i level
    obtain ⟨⟨consistent, p⟩, learn, run⟩ := bind_ok.mp run
    cases consistent with
    | false =>
      cases run
      obtain ⟨_, _, _, _, settles⟩ := closes.recovered.assertLesson_settles level learn
      exact .failed grows (faithful.withSolver p) (settles.taught opens.model rfl)
    | true =>
      have resolves := below (path.tail (.again failed level learn)) (faithful.withSolver p) run
      obtain ⟨among, same⟩ := opens.assertLesson_leaves path confined failed learn
      have concerns := opens.assertLesson_concerns path confined failed learn
      have learnt := rejoins.sound.assertLesson learn
      have values : c₁.solver.core.trail.valueVar = c.solver.core.trail.valueVar :=
        Trail.valueVar_eq situated.abides.sound.core.trail.toFaithful
          rejoins.sound.core.trail.toFaithful rejoins.lits_eq
      refine ⟨grows.trans resolves.grows, resolves.faithful, resolves.taught, fun f finished some => ?_⟩
      have finds := resolves.finds f finished some
      refine ⟨finds.expresses.mono among same, finds.reported, fun l member new => ?_⟩
      by_cases old : l ∈ p.core.trail.lits
      · exact values ▸ concerns.inside l old (rejoins.lits_eq ▸ new)
      · have larger := learnt.grows.enlarges rejoins.sound.core.trail learnt.sound.core.trail
        exact values ▸ Dtree.undecidedVars_anti larger (finds.inside l member old)
  · cases run
    exact .failed grows faithful taught

/-- How an expansion ends that succeeds in both phases. -/
theorem Opens.expansion_resolves (path : Relation.ReflTransGen Makes r ⟨n, t, nested, c⟩)
    (faithful : r.Faithful c) (enter : c.enter t = .ok (implied, c₁))
    (before : Branches ⟨n, t, nested, c⟩ v true c₁.counted)
    (yes : r.ResolvesHalf t v true c₁.counted (.compiled f) c₂) (some : f ≠ .falsum)
    (between : Branches ⟨n, t, nested, c⟩ v false c₂)
    (no : r.ResolvesHalf t v false c₂ (.compiled g) c₃) (some' : g ≠ .falsum)
    (rejoins : c.solver.Rejoins c₃.solver)
    (run : expansion implied v f g c₃ = .ok (outcome, c')) :
    r.Resolves t (c.solver.consequences t.vars) c outcome c' := by
  obtain ⟨safe, situated⟩ := opens.reaches path
  obtain ⟨core, _, grows₁, faithful₁, _, reports⟩ := opens.entered path faithful enter
  have sound := situated.abides.sound
  have wf₂ := yes.faithful.wellFormed
  have wf₃ := no.faithful.wellFormed
  obtain ⟨h, rfl⟩ := expansion_outcome run
  obtain ⟨name, called, made⟩ := expansion_ok run
  cases made
  have called' : r.state.solver.names[v.id]? = Option.some name := by
    unfold Stepper.nameOf at called
    rw [(situated.abides.trans rejoins.toContinues.abides).spares.names_eq] at called
    split at called
    · rename_i found
      cases called
      exact found
    · cases called
  have values : c₂.solver.core.trail.valueVar = c.solver.core.trail.valueVar :=
    Trail.valueVar_eq sound.core.trail.toFaithful (between.rejoins sound).sound.core.trail.toFaithful
      (between.rejoins sound).lits_eq
  have left_has := Dtree.sharedVars_sub (before.shared safe (situated.lists opens.lists))
  obtain ⟨meaning, first, same⟩ := yes.expresses f rfl some
  obtain ⟨meaning', second, same'⟩ := no.expresses g rfl some'
  rw [show c₁.counted.solver.core = c.solver.core from core] at first same
  rw [values] at second same'
  obtain ⟨grows₃, decision⟩ := opens.decision_expresses wf₃ (first.later (no.grows.later wf₂)) second same
    same' left_has called'
  obtain ⟨grows₄, expresses⟩ := opens.report_expresses (grows₃.wellFormed wf₃) (reports.later
    (((yes.grows.trans no.grows).trans grows₃).later faithful₁.wellFormed)) decision
    fun i => not_left_of_reported sound.core.trail
  have grows := grows₃.trans grows₄
  exact .found (((grows₁.trans yes.grows).trans no.grows).trans grows)
    (no.faithful.later grows fun _ => rfl)
    ⟨expresses, no.reported, fun l member new => absurd (rejoins.lits_eq ▸ member) new⟩

/-- Whatever the compilation leads to resolves its subtree, as long as it is confined. -/
theorem Opens.tree_resolves (confined : ∀ b, Relation.ReflTransGen Makes r b → b.Confined) :
    r.Resolved n := by
  induction n with
  | zero => exact fun _ _ run => absurd run nofun
  | succ n below =>
    intro t nested c c' outcome path faithful run
    obtain ⟨safe, situated⟩ := opens.reaches path
    have confines := confined _ path
    rw [tree_succ] at run
    obtain ⟨⟨implied, c₁⟩, enter, run⟩ := bind_ok.mp run
    obtain ⟨_, _, grows, faithful₁, _, _⟩ := opens.entered path faithful enter
    unfold frame at run
    split at run
    · rename_i apart
      cases t with
      | leaf l =>
        obtain ⟨⟨g, c₂⟩, leaf, run⟩ := bind_ok.mp run
        cases run
        exact opens.report_resolves path faithful enter leaf
      | node d left right => exact opens.conjoin_resolves below path faithful enter apart run
    rename_i shared
    obtain ⟨v, choice, run⟩ := bind_ok.mp run
    have faithful₂ : r.Faithful c₁.counted := ⟨faithful₁.wellFormed, faithful₁.entries⟩
    split at run
    · cases run
      exact .cancelled grows faithful₂
    rename_i granted
    have before : Branches ⟨n + 1, t, nested, c⟩ v true c₁.counted :=
      .positive enter (Bool.eq_false_iff.mpr shared) choice (by simpa using granted)
    obtain ⟨⟨result, c₂⟩, positive, run⟩ := bind_ok.mp run
    have yes := opens.branch_resolves below path confines before faithful₂ positive
    have grows₂ := grows.trans yes.grows
    cases result with
    | cancelled =>
      cases run
      exact .cancelled grows₂ yes.faithful
    | compiled f =>
      simp only at run
      split at run
      · rename_i falsum
        subst falsum
        exact opens.retry_resolves below path confines ⟨before, positive⟩ grows₂ yes.faithful
          (yes.taught rfl) run
      rename_i some
      have between : Branches ⟨n + 1, t, nested, c⟩ v false c₂ := .negative before positive some
      obtain ⟨⟨result, c₃⟩, negative, run⟩ := bind_ok.mp run
      have no := opens.branch_resolves below path confines between yes.faithful negative
      have grows₃ := grows₂.trans no.grows
      cases result with
      | cancelled =>
        cases run
        exact .cancelled grows₃ no.faithful
      | compiled g =>
        simp only at run
        split at run
        · rename_i falsum
          subst falsum
          exact opens.retry_resolves below path confines ⟨between, negative⟩ grows₃ no.faithful
            (no.taught rfl) run
        · rename_i some'
          have first := between.rejoins situated.abides.sound
          exact opens.expansion_resolves path faithful enter before yes some between no some'
            (first.trans (branch_rejoins first.sound tree_nests negative)) run

/-! Calls. -/

variable (confined : ∀ b, Relation.ReflTransGen Makes r b → b.Confined)

include confined

theorem Opens.branches_faithful (path : Relation.ReflTransGen Makes r a) (faithful : r.Faithful a.state)
    (before : a.Branches v phase c) : r.Faithful c := by
  induction before with
  | positive enter _ _ _ =>
    obtain ⟨_, _, _, faithful', _⟩ := opens.entered path faithful enter
    exact ⟨faithful'.wellFormed, faithful'.entries⟩
  | negative before positive _ ih =>
    exact (opens.branch_resolves (opens.tree_resolves confined) path (confined _ path) before
      (ih path faithful) positive).faithful

theorem Opens.faithful (path : Relation.ReflTransGen Makes r a) : r.Faithful a.state := by
  induction path with
  | refl => exact ⟨opens.wellFormed, fun key f found => absurd found (opens.unfilled key ▸ nofun)⟩
  | tail path makes ih =>
    cases makes with
    | branch before decide => exact (opens.branches_faithful confined path ih before).withSolver _
    | again failed level learn =>
      obtain ⟨before, failed⟩ := failed
      have faithful := opens.branches_faithful confined path ih before
      exact (opens.branch_resolves (opens.tree_resolves confined) path (confined _ path) before faithful
        failed).faithful.withSolver _
    | part parts missing =>
      refine Faithful.looked ?_ _
      cases parts with
      | left enter apart some => exact (opens.entered path ih enter).2.2.2.1
      | right enter apart some first some' =>
        obtain ⟨_, reported, _, faithful, _⟩ := opens.entered path ih enter
        exact (opens.part_resolves (opens.tree_resolves confined) path (.left enter apart some) faithful
          reported first).faithful

end Steps

end Call

end Compilation

end ModelCounting
