import ModelCounting.Proofs.Backbone
import ModelCounting.Proofs.Safety
import ModelCounting.Proofs.Sharing

/-!
Compiling a formula again. The first compilation has a result, unless the clauses have at least 64
variables and the search for their backbone runs out of restarts. Every later one, whatever the store
has been asked for in between, has the same result and leaves the store as it is.
-/

namespace ModelCounting

namespace Stepper

variable {p q : Stepper} {v : Var} {s : Store} {f : Formula}

structure Open (p : Stepper) : Prop where
  available : ∃ Γ, p.core.Available Γ
  inside : ∀ v i : Var, p.numbers[v]? = some i → i.id < p.core.varCount

theorem Open.fresh (settings : Settings) : Open { core := { settings } } where
  available := ⟨[], .fresh settings⟩
  inside v i here := by simp at here

theorem Open.number (free : p.Open) : Delivers (p.number v) fun x =>
    x.2.Open ∧ x.1.id < x.2.core.varCount ∧ p.core.varCount ≤ x.2.core.varCount := by
  unfold Stepper.number
  split
  · rename_i i here
    exact .ok ⟨free, free.inside v i here, Nat.le_refl _⟩
  · obtain ⟨Γ, available⟩ := free.available
    refine available.newVar.bind fun ⟨i, core⟩ _ ⟨available', new, count, _⟩ => .pure ?_
    simp only at new count
    have below : i.id < core.varCount := by
      rw [new, count]
      exact Nat.lt_succ_self _
    refine ⟨⟨⟨Γ, available'⟩, fun w j here => ?_⟩, below, ?_⟩
    · rw [Std.TreeMap.getElem?_insert] at here
      split at here
      · exact Option.some.inj here ▸ below
      · have := free.inside w j here
        simp only
        omega
    · simp only
      omega

theorem Open.numberLits {ls : List Lit} (free : p.Open) : Delivers (p.numberLits ls) fun x =>
    x.2.Open ∧ (∀ l ∈ x.1, l.var.id < x.2.core.varCount) ∧ p.core.varCount ≤ x.2.core.varCount := by
  induction ls generalizing p with
  | nil => exact .ok ⟨free, by simp, Nat.le_refl _⟩
  | cons l ls ih =>
    unfold Stepper.numberLits
    refine free.number.bind ?_
    rintro ⟨i, p₁⟩ _ ⟨free₁, below, more⟩
    refine (ih free₁).bind ?_
    rintro ⟨ms, p₂⟩ _ ⟨free₂, inside, more'⟩
    refine .pure ⟨free₂, fun m member => ?_, Nat.le_trans more more'⟩
    rcases List.mem_cons.mp member with rfl | member
    · rw [Lit.var_of]
      exact Nat.lt_of_lt_of_le below more'
    · exact inside m member

theorem Open.addClause {ls : List Lit} (free : p.Open) : Delivers (p.addClause ls) Open := by
  unfold Stepper.addClause
  refine free.numberLits.bind fun ⟨ms, p₁⟩ _ ⟨free₁, inside, _⟩ => ?_
  obtain ⟨Γ, available⟩ := free₁.available
  refine (available.addClause inside).bind fun ⟨_, core⟩ _ ⟨available', count, _⟩ => .pure ?_
  exact ⟨⟨_, available'⟩, fun v i here => Nat.lt_of_lt_of_eq (free₁.inside v i here) count.symm⟩

theorem Open.add (free : p.Open) (cnf : s.isCnf f = true) : Delivers (p.add s f) Open := by
  unfold Stepper.add
  refine (Store.clauses_delivers cnf).bind fun cs _ _ => ?_
  exact .foldlM (fun q free' c _ => free'.addClause) free

end Stepper

namespace Store

theorem subsumption_delivers {s : Store} {f : Formula} (cnf : s.isCnf f = true) :
    Delivers (s.subsumption f) fun _ => True := by
  unfold subsumption
  simp only [cnf, Bool.not_true, Bool.false_eq_true, if_false]
  split
  · rename_i fs shape
    rw [isCnf, shape] at cnf
    exact (Delivers.mapM fun g member => clauseLits_delivers (List.all_eq_true.mp cnf g member)).bind
      fun _ _ _ => .pure trivial
  · exact .ok trivial

end Store

namespace Compiler

variable {s s' : Store} {f : Formula} {settings : Settings} {m : Compiler}

theorem prepare_delivers (wf : s.WellFormed) (known : f ∈ s) (cnf : s.isCnf f = true)
    {r : Formula × Store} (fixed : s.fixBackbone f = .ok r) (settings : Settings) :
    Delivers (prepare s f settings) fun x => x.1.Ready x.2 := by
  have delivers : Delivers (prepare s f settings) fun _ => True := by
    unfold prepare
    simp only [cnf, Bool.not_true, Bool.false_eq_true, if_false, fixed]
    obtain ⟨grows, mem, _⟩ := Store.fixBackbone_within wf known fixed
    have cnf₁ := (wf.fixBackbone_strives known cnf).answer fixed
    refine (Store.subsumption_delivers cnf₁).bind fun ⟨h, s₂⟩ subsumed _ => ?_
    have cnf₂ := (grows.wellFormed wf).subsumption_isCnf mem subsumed
    exact ((Stepper.Open.fresh settings).add cnf₂).bind fun p _ _ => .pure trivial
  exact (delivers.and fun x run => prepare_ready wf known
    (show prepare s f settings = .ok (x.1, x.2) from run)).mono fun x post => post.2

theorem prepare_exhausted (cnf : s.isCnf f = true) (exhausted : s.fixBackbone f = .error .restartsExhausted) :
    prepare s f settings = .error .restartsExhausted := by
  unfold prepare
  simp only [cnf, Bool.not_true, Bool.false_eq_true, if_false, exhausted]
  rfl

theorem prepare_strives (wf : s.WellFormed) (known : f ∈ s) (cnf : s.isCnf f = true) :
    Strives (64 ≤ (s.vars f).length) (prepare s f settings) fun x => x.1.Ready x.2 := by
  rcases wf.fixBackbone_strives known cnf with ⟨r, fixed, _⟩ | ⟨hard, exhausted⟩
  · exact .inl (prepare_delivers wf known cnf fixed settings)
  · exact .inr ⟨hard, prepare_exhausted cnf exhausted⟩

end Compiler

namespace Compilation

variable {c c' : Compilation} {t : PlacedTree} {nested n : Nat} {implied : Formula}
  {step : CompilationStep} {compile : PlacedTree → CompilationStep} {v : Var} {phase : Bool}

/-! Without a handler that cancels, nothing is cancelled. -/

def Untired (x : Outcome × Compilation) : Prop := x.1 ≠ .cancelled ∧ x.2.handler = .never

theorem Untired.compiled {f : Formula} (never : c.handler = .never) : Untired (.compiled f, c) :=
  ⟨nofun, never⟩

def Untiring (step : CompilationStep) : Prop :=
  ∀ c, c.handler = .never → ∀ x, step c = .ok x → Untired x

theorem branch_untiring (below : Untiring step) : Untiring (branch step v phase) := by
  intro c never x run
  obtain ⟨⟨consistent, p⟩, _, run⟩ := bind_ok.mp run
  cases consistent with
  | true =>
    obtain ⟨⟨outcome, c₁⟩, ran, rest⟩ := bind_ok.mp run
    obtain ⟨q, _, rest⟩ := bind_ok.mp rest
    have untired := below { c with solver := p } never _ ran
    cases rest
    exact untired
  | false =>
    obtain ⟨_, ran, rest⟩ := bind_ok.mp run
    cases ran
    obtain ⟨q, _, rest⟩ := bind_ok.mp rest
    cases rest
    exact .compiled never

theorem retry_untiring (below : Untiring step) : Untiring (retry step) := by
  intro c never x run
  unfold retry at run
  split at run
  · simp only [bind_ok, Prod.exists] at run
    obtain ⟨consistent, p, _, ran⟩ := run
    cases consistent with
    | true => exact below { c with solver := p } never _ ran
    | false =>
      cases ran
      exact .compiled never
  · cases run
    exact .compiled never

theorem leaf_handler {l : PlacedLeaf} {f : Formula} (run : c.leaf l = .ok (f, c')) :
    c'.handler = c.handler := by
  simp only [leaf, bind_ok, Prod.exists] at run
  obtain ⟨terms, s, _, rest⟩ := run
  cases terms <;> cases rest <;> rfl

theorem part_untiring (below : Untiring (compile t)) : Untiring (part compile nested t) := by
  intro c never x run
  cases t with
  | leaf l =>
    obtain ⟨⟨f, c₁⟩, ran, rest⟩ := bind_ok.mp run
    cases rest
    exact .compiled ((leaf_handler ran).trans never)
  | node d left right =>
    change cached _ _ nested c = _ at run
    simp only [cached, bind_ok] at run
    obtain ⟨_, _, run⟩ := run
    split at run
    · cases run
      exact .compiled never
    · simp only [bind_ok] at run
      obtain ⟨⟨outcome, c₁⟩, ran, rest⟩ := run
      have untired := below _ (by exact never) _ ran
      cases outcome with
      | cancelled => exact absurd rfl untired.1
      | compiled f =>
        cases rest
        refine .compiled ?_
        split <;> exact untired.2

theorem conjoin_untiring {left right : PlacedTree} (below : ∀ t, Untiring (compile t)) :
    Untiring (conjoin compile nested implied left right) := by
  intro c never x run
  simp only [conjoin] at run
  split at run
  · cases run
    exact .compiled never
  simp only [bind_ok, Prod.exists] at run
  obtain ⟨outcome, c₁, ran, rest⟩ := run
  have untired := part_untiring (below left) c never _ ran
  cases outcome with
  | cancelled => exact absurd rfl untired.1
  | compiled l =>
    simp only at rest
    split at rest
    · cases rest
      exact .compiled untired.2
    simp only [bind_ok, Prod.exists] at rest
    obtain ⟨outcome, c₂, ran', rest⟩ := rest
    have untired' := part_untiring (below right) c₁ untired.2 _ ran'
    cases outcome with
    | cancelled => exact absurd rfl untired'.1
    | compiled r =>
      simp only at rest
      split at rest
      · cases rest
        exact .compiled untired'.2
      · cases rest
        exact .compiled untired'.2

theorem expansion_untiring {p q : Formula} (never : c.handler = .never) {x : Outcome × Compilation}
    (run : expansion implied v p q c = .ok x) : Untired x := by
  simp only [expansion, bind_ok] at run
  obtain ⟨name, _, rest⟩ := run
  cases rest
  exact .compiled never

theorem frame_untiring {compile : PlacedTree → Nat → CompilationStep}
    (below : ∀ t nested, Untiring (compile t nested)) : Untiring (frame compile t nested implied) := by
  intro c never x run
  unfold frame at run
  split at run
  · cases t with
    | leaf l =>
      obtain ⟨⟨f, c₁⟩, ran, rest⟩ := bind_ok.mp run
      cases rest
      exact .compiled ((leaf_handler ran).trans never)
    | node d left right => exact conjoin_untiring (fun t => below t 0) c never x run
  · obtain ⟨v, _, run⟩ := bind_ok.mp run
    have counted : c.counted.handler = .never := by
      rw [Compilation.counted]
      simp only [never]
      rfl
    split at run
    · rename_i refused
      rw [never] at refused
      cases refused
    obtain ⟨⟨outcome, c₁⟩, ran, rest⟩ := bind_ok.mp run
    have untired := branch_untiring (below t (nested + 1)) _ counted _ ran
    cases outcome with
    | cancelled => exact absurd rfl untired.1
    | compiled positive =>
      simp only at rest
      split at rest
      · exact retry_untiring (below t 0) c₁ untired.2 x rest
      obtain ⟨⟨outcome, c₂⟩, ran', rest⟩ := bind_ok.mp rest
      have untired' := branch_untiring (below t (nested + 1)) c₁ untired.2 _ ran'
      cases outcome with
      | cancelled => exact absurd rfl untired'.1
      | compiled negative =>
        simp only at rest
        split at rest
        · exact retry_untiring (below t 0) c₂ untired'.2 x rest
        · exact expansion_untiring untired'.2 rest

theorem tree_untiring : Untiring (tree n t nested) := by
  induction n generalizing t nested with
  | zero =>
    intro c _ x run
    cases run
  | succ n ih =>
    intro c never x run
    rw [tree_succ] at run
    obtain ⟨⟨f, c₁⟩, entered, rest⟩ := bind_ok.mp run
    refine frame_untiring (fun t nested => ih) c₁ ?_ x rest
    unfold enter at entered
    simp only at entered
    split at entered
    · cases entered
      exact never
    · cases entered

end Compilation

namespace Compiler

variable {s s' : Store} {f : Formula} {m m' : Compiler} {outcome : Outcome} {handler : Handler}

theorem compile_untiring (run : m.compile s .never = .ok (outcome, m', s', handler)) :
    outcome ≠ .cancelled ∧ handler = .never := by
  unfold compile at run
  split at run
  · cases run
  simp only at run
  split at run
  · cases run
    exact ⟨nofun, rfl⟩
  obtain ⟨⟨consistent, p⟩, _, run⟩ := bind_ok.mp run
  simp only at run
  split at run
  · cases run
    exact ⟨nofun, rfl⟩
  obtain ⟨⟨d, e⟩, _, run⟩ := bind_ok.mp run
  obtain ⟨t, _, run⟩ := bind_ok.mp run
  obtain ⟨⟨result, c⟩, ran, rest⟩ := bind_ok.mp run
  have untired := Compilation.tree_untiring _ (by rfl) _ ran
  cases result with
  | cancelled => exact absurd rfl untired.1
  | compiled g =>
    cases rest
    exact ⟨nofun, untired.2⟩

end Compiler

namespace Store

variable {s : Store} {f : Formula}

theorem WellFormed.compile_answers (wf : s.WellFormed) (known : f ∈ s) (settings : Settings)
    (handler : Handler) : Strives (64 ≤ ((s.cnf f).2.vars (s.cnf f).1).length)
      (s.compile f settings handler) fun x =>
        handler = .never → (∃ d, x.1 = some d) ∧ x.2.2 = .never := by
  unfold compile
  obtain ⟨grows, restates⟩ := wf.cnf_restates known
  refine (Compiler.prepare_strives (grows.wellFormed wf) restates.2.mem (wf.cnf_isCnf known)).bind
    fun ⟨m, s₁⟩ _ ready => ?_
  refine (ready.compile handler).strives.bind fun ⟨outcome, m', s₂, handler'⟩ ran _ => ?_
  have goes (untiring : handler = .never) : outcome ≠ .cancelled ∧ handler' = .never :=
    Compiler.compile_untiring (untiring ▸ ran)
  cases outcome with
  | cancelled => exact .inl (.pure fun untiring => absurd rfl (goes untiring).1)
  | compiled g => exact .inl (.pure fun untiring => ⟨⟨_, rfl⟩, (goes untiring).2⟩)

theorem WellFormed.compile_strives (wf : s.WellFormed) (known : f ∈ s) (settings : Settings) :
    Strives (64 ≤ ((s.cnf f).2.vars (s.cnf f).1).length) (s.compile f settings .never) fun x =>
      (∃ d, x.1 = some d) ∧ x.2.2 = .never :=
  (wf.compile_answers known settings .never).mono id fun _ answers => answers rfl

/-- The first compilation of a formula answers a circuit, unless the clauses have at least 64 variables
and the search for their backbone runs out of restarts. Whatever is asked of the store afterwards,
compiling the formula again answers the same circuit and leaves the store as it is. -/
theorem compile_repeatable (leads : Leads initial s) (known : f ∈ s) (settings : Settings) :
    Strives (64 ≤ ((s.cnf f).2.vars (s.cnf f).1).length) (s.compile f settings .never) fun x =>
      ∃ d, x.1 = some d ∧
        ∀ t, Leads x.2.1 t → t.compile f settings .never = .ok (some d, t, .never) := by
  have wf := leads.wellFormed
  have strives := wf.compile_strives known settings
  rcases strives with ⟨⟨d, s', handler⟩, run, ⟨c, rfl⟩, rfl⟩ | exhausted
  · refine .inl ⟨_, run, c, rfl, fun t later => ?_⟩
    obtain ⟨grows, again⟩ := compile_repeats wf known run
    have wf' := grows.wellFormed wf
    have grown := later.grows wf'
    exact again t (grown.wellFormed wf') (grown.later wf')
  · exact .inr exhausted

/-- Five clauses are compiled, and compiled again when more literals are there. -/
theorem compile_repeatable_knot : ∃ d s', knot.2.compile knot.1 {} .never = .ok (some d, s', .never) ∧
    (s'.lit ⟨12⟩).1 ∉ s' ∧
      (s'.lit ⟨12⟩).2.compile knot.1 {} .never = .ok (some d, (s'.lit ⟨12⟩).2, .never) ∧
        ∀ t, Leads s' t → t.compile knot.1 {} .never = .ok (some d, t, .never) := by
  have ran : Delivers (knot.2.compile knot.1 {} .never) fun x => x.2.1.size ≤ (x.2.1.lit ⟨12⟩).1.id := by
    decide +kernel
  obtain ⟨⟨circuit, s', handler⟩, run, new⟩ := ran
  obtain ⟨d, rfl, again⟩ := (compile_repeatable knot_reachable.leads knot_mem {}).answer run
  obtain ⟨_, rfl⟩ := (knot_reachable.wellFormed.compile_strives knot_mem {}).answer run
  have word : (⟨12⟩ : Lit).code < Node.wordLimit := by decide
  exact ⟨d, s', run, fun known => absurd (mem_iff.mp known) (Nat.not_lt.mpr new),
    again _ (.single (.lit word)), again⟩

end Store

end ModelCounting
