import ModelCounting.Proofs.Determinism

/-!
Circuits for conditions. A decomposable circuit realizes a condition on the values of variables if it
holds exactly where the condition does, and the condition can be met. Where circuits have no variable in
common, what meets one of their conditions can be put together with what meets another. So the
conjunction of such circuits realizes that all conditions hold, and never folds to the falsum.
-/

namespace ModelCounting

namespace Store

/-- A decomposable circuit over the given variables for a condition that can be met. -/
structure Realizes (scope : Var → Prop) (meaning : (Var → Bool) → Prop) (s : Store) (f : Formula) :
    Prop where
  mem : f ∈ s
  vars_sub : ∀ v ∈ s.vars f, scope v
  decomposable : s.Decomposable f
  eval_iff : ∀ value, s.eval value f = true ↔ meaning value
  satisfiable : ∃ value, s.eval value f = true

variable {scope scope' : Var → Prop} {meaning meaning' : (Var → Bool) → Prop} {s s' : Store}
  {f g : Formula} {fs : List Formula} {ls : List Lit} {name : Var}

namespace Realizes

theorem later (realizes : Realizes scope meaning s f) (later : Extends s s') :
    Realizes scope meaning s' f where
  mem := later.mem realizes.mem
  vars_sub := by
    rw [later.vars_eq realizes.mem]
    exact realizes.vars_sub
  decomposable := (later.decomposable_iff realizes.mem).mpr realizes.decomposable
  eval_iff value := by
    rw [later.eval_eq realizes.mem]
    exact realizes.eval_iff value
  satisfiable := realizes.satisfiable.imp fun value true_ => (later.eval_eq realizes.mem value).trans true_

theorem mono (realizes : Realizes scope meaning s f) (wider : ∀ v, scope v → scope' v)
    (same : ∀ value, meaning value ↔ meaning' value) : Realizes scope' meaning' s f where
  mem := realizes.mem
  vars_sub v mentioned := wider v (realizes.vars_sub v mentioned)
  decomposable := realizes.decomposable
  eval_iff value := (realizes.eval_iff value).trans (same value)
  satisfiable := realizes.satisfiable

theorem ne_falsum (realizes : Realizes scope meaning s f) (wf : s.WellFormed) : f ≠ .falsum := by
  rintro rfl
  obtain ⟨value, true_⟩ := realizes.satisfiable
  rw [wf.eval_falsum] at true_
  cases true_

end Realizes

theorem WellFormed.exists_model (wf : s.WellFormed) (known : ∀ f ∈ fs, f ∈ s)
    (each : ∀ f ∈ fs, ∃ value, s.eval value f = true)
    (apart : ∀ f ∈ fs, ∀ g ∈ fs, f ≠ g → s.Apart f g) :
    ∃ value, ∀ f ∈ fs, s.eval value f = true := by
  classical
  choose! model models using each
  -- A variable has the value that it has in the model of the formula that mentions it.
  refine ⟨fun v => if h : ∃ f ∈ fs, v ∈ s.vars f then model h.choose v else false, fun f member => ?_⟩
  rw [← models f member]
  refine wf.eval_congr (known f member) fun v mentioned => ?_
  have some : ∃ f ∈ fs, v ∈ s.vars f := ⟨f, member, mentioned⟩
  rw [dif_pos some]
  obtain ⟨chosen, mentions⟩ := some.choose_spec
  by_cases same : some.choose = f
  · rw [same]
  · exact absurd mentioned (apart _ chosen f member same v mentions)

theorem WellFormed.conj_realizes (wf : s.WellFormed)
    (each : ∀ f ∈ fs, ∃ scope meaning, Realizes scope meaning s f)
    (apart : ∀ f ∈ fs, ∀ g ∈ fs, f ≠ g → s.Apart f g) :
    Realizes (fun v => ∃ f ∈ fs, v ∈ s.vars f) (fun value => ∀ f ∈ fs, s.eval value f = true)
      (s.conj fs).2 (s.conj fs).1 := by
  have known (f : Formula) (member : f ∈ fs) : f ∈ s := by
    obtain ⟨_, _, realizes⟩ := each f member
    exact realizes.mem
  have joined : Joined s .conj fs (s.conj fs).1 (s.conj fs).2 := wf.junction_joined known
  have eval_iff (value : Var → Bool) :
      (s.conj fs).2.eval value (s.conj fs).1 = true ↔ ∀ f ∈ fs, s.eval value f = true := by
    rw [joined.eval_eq wf known]
    exact List.all_eq_true
  obtain ⟨value, models⟩ := wf.exists_model known (fun f member => by
    obtain ⟨_, _, realizes⟩ := each f member
    exact realizes.satisfiable) apart
  refine ⟨joined.mem, fun v mentioned => joined.vars_subset wf known mentioned, ?_, eval_iff,
    value, (eval_iff value).mpr models⟩
  refine joined.decomposable_conj wf known (fun f member => ?_) apart
  obtain ⟨_, _, realizes⟩ := each f member
  exact realizes.decomposable

section Two

variable (wf : s.WellFormed) (hf : Realizes scope meaning s f) (hg : Realizes scope' meaning' s g)

include wf hf hg

theorem WellFormed.conj_two_realizes (apart : ∀ v, scope v → ¬ scope' v) :
    Realizes (fun v => scope v ∨ scope' v) (fun value => meaning value ∧ meaning' value)
      (s.conj [f, g]).2 (s.conj [f, g]).1 := by
  have distinct : s.Apart f g := fun v here there =>
    apart v (hf.vars_sub v here) (hg.vars_sub v there)
  have pairwise : [f, g].Pairwise s.Apart := by simpa using distinct
  have each : ∀ h ∈ [f, g], ∃ scope meaning, Realizes scope meaning s h := by
    simpa using ⟨⟨_, _, hf⟩, ⟨_, _, hg⟩⟩
  refine (wf.conj_realizes each pairwise.forall).mono ?_ fun value => ?_
  · rintro v ⟨h, member, mentioned⟩
    rcases List.mem_pair.mp member with rfl | rfl
    · exact .inl (hf.vars_sub v mentioned)
    · exact .inr (hg.vars_sub v mentioned)
  · simp [hf.eval_iff, hg.eval_iff]

theorem WellFormed.disj_two_realizes :
    Realizes (fun v => scope v ∨ scope' v) (fun value => meaning value ∨ meaning' value)
      (s.disj [f, g]).2 (s.disj [f, g]).1 := by
  have known : ∀ h ∈ [f, g], h ∈ s := by simp [hf.mem, hg.mem]
  have joined : Joined s .disj [f, g] (s.disj [f, g]).1 (s.disj [f, g]).2 :=
    wf.junction_joined known
  have eval_iff (value : Var → Bool) :
      (s.disj [f, g]).2.eval value (s.disj [f, g]).1 = true ↔ meaning value ∨ meaning' value := by
    rw [joined.eval_eq wf known]
    simp [Connective.holds, hf.eval_iff, hg.eval_iff]
  obtain ⟨value, true_⟩ := hf.satisfiable
  refine ⟨joined.mem, fun v mentioned => ?_, joined.decomposable_disj wf known ?_, eval_iff,
    value, (eval_iff value).mpr (.inl ((hf.eval_iff value).mp true_))⟩
  · obtain ⟨h, member, inside⟩ := joined.vars_subset wf known mentioned
    rcases List.mem_pair.mp member with rfl | rfl
    · exact .inl (hf.vars_sub v inside)
    · exact .inr (hg.vars_sub v inside)
  · simp [hf.decomposable, hg.decomposable]

end Two

/-- A third circuit beside two. -/
theorem WellFormed.conj_three_realizes {scope'' : Var → Prop} {meaning'' : (Var → Bool) → Prop}
    {h : Formula} (wf : s.WellFormed) (hf : Realizes scope meaning s f)
    (hg : Realizes scope' meaning' s g) (hh : Realizes scope'' meaning'' s h)
    (apart : ∀ v, scope v → ¬ (scope' v ∨ scope'' v)) (apart' : ∀ v, scope' v → ¬ scope'' v) :
    Realizes (fun v => scope v ∨ scope' v ∨ scope'' v)
      (fun value => meaning value ∧ meaning' value ∧ meaning'' value)
      (s.conj [f, g, h]).2 (s.conj [f, g, h]).1 := by
  have pairwise : [f, g, h].Pairwise s.Apart := by
    refine .cons ?_ (.cons ?_ (.cons nofun .nil))
    · rintro k member v here there
      rcases List.mem_pair.mp member with rfl | rfl
      · exact apart v (hf.vars_sub v here) (.inl (hg.vars_sub v there))
      · exact apart v (hf.vars_sub v here) (.inr (hh.vars_sub v there))
    · rintro k member v here there
      obtain rfl := List.mem_singleton.mp member
      exact apart' v (hg.vars_sub v here) (hh.vars_sub v there)
  have each : ∀ k ∈ [f, g, h], ∃ scope meaning, Realizes scope meaning s k := by
    simpa using ⟨⟨_, _, hf⟩, ⟨_, _, hg⟩, ⟨_, _, hh⟩⟩
  refine (wf.conj_realizes each pairwise.forall).mono ?_ fun value => ?_
  · rintro v ⟨k, member, mentioned⟩
    simp only [List.mem_cons, List.not_mem_nil, or_false] at member
    rcases member with rfl | rfl | rfl
    · exact .inl (hf.vars_sub v mentioned)
    · exact .inr (.inl (hg.vars_sub v mentioned))
    · exact .inr (.inr (hh.vars_sub v mentioned))
  · simp [hf.eval_iff, hg.eval_iff, hh.eval_iff]

theorem Cube.realizes (cube : s.Cube ls f) (distinct : (ls.map Lit.var).Nodup) :
    Realizes (fun v => ∃ l ∈ ls, l.var = v) (fun value => ∀ l ∈ ls, l.holds value = true) s f where
  mem := cube.mem
  vars_sub := cube.vars_sub
  decomposable := cube.decomposable
  eval_iff value := by rw [cube.eval_eq, List.all_eq_true]
  satisfiable := by
    refine ⟨fun v => ls.any fun l => l.var = v && l.phase, ?_⟩
    rw [cube.eval_eq, List.all_eq_true]
    intro l member
    have single (m : Lit) (inside : m ∈ ls) (same : m.var = l.var) : m = l :=
      List.inj_on_of_nodup_map distinct inside member same
    rw [Lit.holds, beq_iff_eq, Bool.eq_iff_iff, List.any_eq_true]
    constructor
    · rintro ⟨m, inside, both⟩
      simp only [Bool.and_eq_true, decide_eq_true_eq] at both
      exact single m inside both.1 ▸ both.2
    · exact fun phase => ⟨l, member, by simp [phase]⟩

theorem WellFormed.verum_realizes (wf : s.WellFormed) :
    Realizes (fun _ => False) (fun _ => True) s .verum where
  mem := wf.verum_mem
  vars_sub := by simp [wf.vars_constant (f := .verum) rfl]
  decomposable := wf.decomposable_constant rfl
  eval_iff value := by simp [wf.eval_verum]
  satisfiable := ⟨fun _ => false, wf.eval_verum _⟩

theorem OneOf.realizes (oneOf : s.OneOf ls f) (some : ls ≠ []) :
    Realizes (fun v => ∃ l ∈ ls, l.var = v) (fun value => ∃ l ∈ ls, l.holds value = true) s f where
  mem := oneOf.mem
  vars_sub := oneOf.vars_sub
  decomposable := oneOf.decomposable
  eval_iff value := by rw [oneOf.eval_eq, List.any_eq_true]
  satisfiable := by
    obtain ⟨l, member⟩ := List.exists_mem_of_ne_nil ls some
    refine ⟨fun _ => l.phase, ?_⟩
    rw [oneOf.eval_eq, List.any_eq_true]
    exact ⟨l, member, by simp [Lit.holds]⟩

/-- A circuit guarded by a literal of another variable. -/
theorem WellFormed.guard_realizes (wf : s.WellFormed) (fits : name.Fits) (phase : Bool)
    (hf : Realizes scope meaning s f) (other : ¬ scope name) :
    Grows s (s.guard name phase f).2 ∧
      Realizes (fun v => v = name ∨ scope v) (fun value => value name = phase ∧ meaning value)
        (s.guard name phase f).2 (s.guard name phase f).1 := by
  have word : (Lit.of name phase).code < Node.wordLimit := by
    apply Var.Fits.word
    rwa [Lit.var_of]
  have interned := wf.lit_interned word
  have later := interned.later
  have wf' := interned.wellFormed
  have literal : Realizes (· = name) (fun value => value name = phase) (s.lit (.of name phase)).2
      (s.lit (.of name phase)).1 := by
    obtain ⟨eval, vars⟩ := wf'.lit_meaning interned.mem interned.node_eq
    refine ⟨interned.mem, fun v mentioned => ?_, decomposable_lit interned.node_eq, fun value => ?_,
      fun _ => phase, ?_⟩
    · rw [vars v mentioned, Lit.var_of]
    · rw [eval, Lit.holds, beq_iff_eq, Lit.var_of, Lit.phase_of]
    · rw [eval, Lit.holds, beq_iff_eq, Lit.phase_of]
  have both := wf'.conj_two_realizes literal (hf.later later) fun v here => here ▸ other
  have known : ∀ g ∈ [(s.lit (.of name phase)).1, f], g ∈ (s.lit (.of name phase)).2 := by
    simp [interned.mem, later.mem hf.mem]
  exact ⟨(Step.lit s word).grows.trans (Step.junction _ .conj known).grows, both⟩

/-- Two circuits guarded by complementary literals of a variable that neither of them mentions. -/
theorem WellFormed.decision_realizes (wf : s.WellFormed) (fits : name.Fits)
    (hf : Realizes scope meaning s f) (hg : Realizes scope' meaning' s g) (other : ¬ scope name)
    (other' : ¬ scope' name) : Grows s (s.decision name f g).2 ∧
      Realizes (fun v => v = name ∨ scope v ∨ scope' v)
        (fun value => if value name then meaning value else meaning' value)
        (s.decision name f g).2 (s.decision name f g).1 := by
  unfold decision
  obtain ⟨grows, first⟩ := wf.guard_realizes fits true hf other
  have wf' := grows.wellFormed wf
  obtain ⟨grows', second⟩ := wf'.guard_realizes fits false (hg.later (grows.later wf)) other'
  have wf'' := grows'.wellFormed wf'
  have first := first.later (grows'.later wf')
  simp only
  generalize s.guard name true f = x at *
  generalize x.2.guard name false g = y at *
  have known : ∀ h ∈ [x.1, y.1], h ∈ y.2 := by simp [first.mem, second.mem]
  refine ⟨(grows.trans grows').trans (Step.junction _ .disj known).grows,
    (wf''.disj_two_realizes first second).mono ?_ fun value => ?_⟩
  · rintro v ((here | here) | here | here)
    · exact .inl here
    · exact .inr (.inl here)
    · exact .inl here
    · exact .inr (.inr here)
  · cases value name <;> simp

end Store

end ModelCounting
