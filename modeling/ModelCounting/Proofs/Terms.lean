import ModelCounting.Compilation.Recursion
import ModelCounting.Proofs.Answer
import ModelCounting.Proofs.Circuit

/-!
A clause as a circuit. Its undecided literals are taken in turn, each with those before it negated, so
the terms are the cases of which literal is the first true one: no two hold together, and one holds where
the clause does. A term is a conjunction of literals, whatever the constructors make of it.
-/

namespace ModelCounting

/-! Cases. -/

def firstTrueCases : List Lit → List Lit → List (List Lit)
  | _, [] => []
  | before, m :: ms => (before ++ [m]) :: firstTrueCases (before ++ [-m]) ms

section Cases

variable {before ms case : List Lit}

theorem subset_firstTrueCases (member : case ∈ firstTrueCases before ms) : before ⊆ case := by
  induction ms generalizing before with
  | nil => cases member
  | cons m ms ih =>
    rcases List.mem_cons.mp member with rfl | member
    · exact List.subset_append_left _ _
    · exact List.Subset.trans (List.subset_append_left _ _) (ih member)

theorem firstTrueCases_vars (member : case ∈ firstTrueCases before ms) {l : Lit} (literal : l ∈ case) :
    ∃ m ∈ before ++ ms, m.var = l.var := by
  induction ms generalizing before with
  | nil => cases member
  | cons m ms ih =>
    rcases List.mem_cons.mp member with rfl | member
    · refine ⟨l, ?_, rfl⟩
      rw [List.append_cons]
      exact List.mem_append_left _ literal
    · obtain ⟨k, inside, same⟩ := ih member
      simp only [List.mem_append, List.mem_singleton] at inside
      rcases inside with (inside | rfl) | inside
      · exact ⟨k, List.mem_append_left _ inside, same⟩
      · exact ⟨m, by simp, by rwa [Lit.var_neg] at same⟩
      · exact ⟨k, by simp [inside], same⟩

theorem any_firstTrueCases (value : Var → Bool) :
    ((firstTrueCases before ms).any fun case => case.all (·.holds value)) =
      (before.all (·.holds value) && ms.any (·.holds value)) := by
  induction ms generalizing before with
  | nil => simp [firstTrueCases]
  | cons m ms ih =>
    rw [firstTrueCases, List.any_cons, ih, List.all_append, List.all_append, List.any_cons]
    simp only [List.all_cons, List.all_nil, Bool.and_true, Store.holds_neg]
    cases m.holds value <;> simp

def NeverBoth (case case' : List Lit) : Prop :=
  ∀ value, ¬ (case.all (·.holds value) = true ∧ case'.all (·.holds value) = true)

theorem firstTrueCases_exclusive : (firstTrueCases before ms).Pairwise NeverBoth := by
  induction ms generalizing before with
  | nil => exact .nil
  | cons m ms ih =>
    refine List.pairwise_cons.mpr ⟨fun case member value both => ?_, ih⟩
    have yes : m.holds value = true := List.all_eq_true.mp both.1 m (by simp)
    have no : (-m).holds value = true :=
      List.all_eq_true.mp both.2 (-m) (subset_firstTrueCases member (by simp))
    rw [Store.holds_neg, yes] at no
    cases no

end Cases

/-! Cubes. -/

namespace Store

variable {s s' : Store} {f : Formula} {ls ms : List Lit} {gs terms : List Formula}

def Literal (s : Store) (l : Lit) (g : Formula) : Prop := g ∈ s ∧ s.node g = .lit l

theorem Literal.later {l : Lit} {g : Formula} (literal : s.Literal l g) (later : Extends s s') :
    s'.Literal l g :=
  ⟨later.mem literal.1, (later.node_eq literal.1).trans literal.2⟩

theorem WellFormed.lit_literal (wf : s.WellFormed) {l : Lit} (word : l.code < Node.wordLimit) :
    (s.lit l).2.Literal l (s.lit l).1 :=
  have interned := wf.lit_interned word
  ⟨interned.mem, interned.node_eq⟩

theorem WellFormed.neg_literal (wf : s.WellFormed) {l : Lit} {g : Formula} (literal : s.Literal l g) :
    (s.neg g).2.Literal (-l) (s.neg g).1 := by
  have run : s.neg g = s.lit (-l) := by
    unfold neg
    rw [literal.2]
  rw [run]
  exact wf.lit_literal (neg_word (wf.lit_word literal.1 literal.2))

structure Cube (s : Store) (ls : List Lit) (f : Formula) : Prop
    extends DetNnf (fun v => ∃ l ∈ ls, l.var = v) s f where
  decomposable : s.Decomposable f
  eval_eq : ∀ value, s.eval value f = ls.all (·.holds value)

theorem Cube.later (cube : s.Cube ls f) (later : Extends s s') : s'.Cube ls f where
  toDetNnf := cube.toDetNnf.later later
  decomposable := (later.decomposable_iff cube.mem).mpr cube.decomposable
  eval_eq value := (later.eval_eq cube.mem value).trans (cube.eval_eq value)

/-- Different literals of one variable decide their conjunction. -/
theorem WellFormed.decided_of_clash (wf : s.WellFormed) {l l' : Lit} {g g' : Formula} (hg : g ∈ gs)
    (hg' : g' ∈ gs) (literal : s.Literal l g) (literal' : s.Literal l' g') (differ : g ≠ g')
    (same : l.var = l'.var) : s.Decided .conj gs := by
  have opposite : l' = -l := by
    refine Lit.ext_var_phase (by rw [Lit.var_neg, same]) ?_
    rw [Lit.phase_neg, Bool.eq_not]
    refine fun phase => differ (wf.node_inj literal.1 literal'.1 ?_)
    rw [literal.2, literal'.2, Lit.ext_var_phase same phase.symm]
  have operand {k : Lit} {h : Formula} (listed : h ∈ gs) (literal : s.Literal k h) :
      h ∈ s.operandsOf .conj gs := by
    refine mem_operandsOf.mpr ⟨h, listed, ?_⟩
    have proper : h ≠ Connective.conj.neutral := by
      rintro rfl
      have constant : s.node Connective.conj.neutral = .verum := wf.node_verum
      rw [literal.2] at constant
      cases constant
    have other (fs : List Formula) : s.node h ≠ Connective.conj.node fs :=
      literal.2 ▸ (Connective.conj.node_ne_lit fs k).symm
    rw [flatten_self proper other]
    exact List.mem_singleton_self h
  exact .inr ((s.clashing_iff _).mpr
    ⟨g, operand hg literal, g', operand hg' literal', l, literal.2, opposite ▸ literal'.2⟩)

theorem WellFormed.all_literals (wf : s.WellFormed) (literals : List.Forall₂ s.Literal ls gs)
    (value : Var → Bool) : gs.all (s.eval value) = ls.all (·.holds value) := by
  induction literals with
  | nil => rfl
  | cons literal _ ih => rw [List.all_cons, List.all_cons, ih, (wf.lit_meaning literal.1 literal.2).1]

theorem WellFormed.conj_cube (wf : s.WellFormed) (literals : List.Forall₂ s.Literal ls gs) :
    (s.conj gs).2.Cube ls (s.conj gs).1 := by
  have known : ∀ g ∈ gs, g ∈ s := fun g member => by
    obtain ⟨_, _, here, _⟩ := forall₂_mem_right literals g member
    exact here
  have each : ∀ g ∈ gs, DetNnf (fun v => ∃ l ∈ ls, l.var = v) s g := fun g member => by
    obtain ⟨l, inside, here, shape⟩ := forall₂_mem_right literals g member
    exact wf.lit_detNnf here shape ⟨l, inside, rfl⟩
  have joined : Joined s .conj gs (s.conj gs).1 (s.conj gs).2 := wf.junction_joined known
  refine ⟨wf.conj_detNnf each, ?_, fun value => ?_⟩
  · by_cases decided : s.Decided .conj gs
    · rw [joined.decided decided]
      exact joined.wellFormed.decomposable_constant rfl
    · have single : ∀ g ∈ gs, s.Decomposable g := fun g member => by
        obtain ⟨_, _, _, shape⟩ := forall₂_mem_right literals g member
        exact decomposable_lit shape
      refine joined.decomposable_conj wf known single fun g hg g' hg' differ v here there => ?_
      obtain ⟨l, _, literal⟩ := forall₂_mem_right literals g hg
      obtain ⟨l', _, literal'⟩ := forall₂_mem_right literals g' hg'
      refine decided (wf.decided_of_clash hg hg' literal literal' differ ?_)
      rw [← (wf.lit_meaning literal.1 literal.2).2 v here,
        ← (wf.lit_meaning literal'.1 literal'.2).2 v there]
  · rw [joined.eval_eq wf known]
    exact wf.all_literals literals value

section Cubes

variable {cases_ : List (List Lit)}

theorem any_cubes (cubes : List.Forall₂ s.Cube cases_ terms) (value : Var → Bool) :
    terms.any (s.eval value) = cases_.any fun case => case.all (·.holds value) := by
  induction cubes with
  | nil => rfl
  | cons cube _ ih => rw [List.any_cons, List.any_cons, ih, cube.eval_eq]

theorem exclusive_cubes (cubes : List.Forall₂ s.Cube cases_ terms) (apart : cases_.Pairwise NeverBoth) :
    terms.Pairwise s.Exclusive := by
  induction cubes with
  | nil => exact .nil
  | cons cube cubes ih =>
    obtain ⟨first, rest⟩ := List.pairwise_cons.mp apart
    refine List.pairwise_cons.mpr ⟨fun t member value both => ?_, ih rest⟩
    obtain ⟨case, listed, other⟩ := forall₂_mem_right cubes t member
    rw [cube.eval_eq, other.eval_eq] at both
    exact first case listed value both

end Cubes

structure OneOf (s : Store) (ms : List Lit) (f : Formula) : Prop
    extends DetNnf (fun v => ∃ m ∈ ms, m.var = v) s f where
  decomposable : s.Decomposable f
  eval_eq : ∀ value, s.eval value f = ms.any (·.holds value)
  falsum : ms = [] → f = .falsum

/-- The cases of the first true literal make up the clause. -/
theorem WellFormed.disj_oneOf (wf : s.WellFormed)
    (cubes : List.Forall₂ s.Cube (firstTrueCases [] ms) terms) :
    (s.disj terms).2.OneOf ms (s.disj terms).1 := by
  have each : ∀ t ∈ terms, DetNnf (fun v => ∃ m ∈ ms, m.var = v) s t ∧ s.Decomposable t := by
    intro t member
    obtain ⟨case, listed, cube⟩ := forall₂_mem_right cubes t member
    refine ⟨cube.toDetNnf.mono ?_, cube.decomposable⟩
    rintro _ ⟨l, literal, rfl⟩
    exact firstTrueCases_vars listed literal
  have exclusive := exclusive_cubes cubes firstTrueCases_exclusive
  have known : ∀ t ∈ terms, t ∈ s := fun t member => (each t member).1.mem
  have joined : Joined s .disj terms (s.disj terms).1 (s.disj terms).2 := wf.junction_joined known
  refine ⟨wf.disj_detNnf (fun t member => (each t member).1) exclusive.forall,
    joined.decomposable_disj wf known fun t member => (each t member).2, fun value => ?_, ?_⟩
  · rw [joined.eval_eq wf known]
    change terms.any (s.eval value) = _
    rw [any_cubes cubes, any_firstTrueCases, List.all_nil, Bool.true_and]
  · rintro rfl
    cases cubes
    rfl

end Store

/-! The terms of a clause. -/

namespace Compilation

open Store

variable {value : Lit → Truth} {name : Lit → Except Fault Lit} {ls before : List Lit}
  {negated : List Formula} {out : Option (List Formula)} {s s' : Store}

/-- A clause has no terms if it is satisfied, and otherwise one for each undecided literal. -/
def Terms (value : Lit → Truth) (name : Lit → Except Fault Lit) (ls before : List Lit) (s : Store) :
    Option (List Formula) → Prop
  | none => ∃ l ∈ ls, value l = .tru
  | some terms => (∀ l ∈ ls, value l ≠ .tru) ∧ ∃ ms,
      List.Forall₂ (fun l m => name l = .ok m) (ls.filter (value · = .undef)) ms ∧
        List.Forall₂ s.Cube (firstTrueCases before ms) terms

theorem leafTerms_terms (wf : s.WellFormed) (words : ∀ l m, name l = .ok m → m.code < Node.wordLimit)
    (literals : List.Forall₂ s.Literal before negated)
    (run : leafTerms value name ls negated s = .ok (out, s')) :
    Grows s s' ∧ Terms value name ls before s' out := by
  induction ls generalizing s s' before negated out with
  | nil =>
    cases run
    exact ⟨Grows.refl _, by simp, [], .nil, .nil⟩
  | cons l ls ih =>
    unfold leafTerms at run
    split at run
    case h_1 satisfied =>
      cases run
      exact ⟨Grows.refl _, l, List.mem_cons_self, satisfied⟩
    case h_2 falsified =>
      obtain ⟨grows, terms⟩ := ih wf literals run
      refine ⟨grows, ?_⟩
      cases out with
      | none =>
        obtain ⟨m, member, holds⟩ := terms
        exact ⟨m, List.mem_cons_of_mem l member, holds⟩
      | some terms' => simpa [Terms, falsified] using terms
    case h_3 undecided =>
      simp only [bind_ok, Prod.exists] at run
      obtain ⟨m, called, out', s₄, rest, done⟩ := run
      -- the literal, its term, its complement, and then the other terms
      have grows₁ := (Step.lit s (words l m called)).grows
      have literal := wf.lit_literal (words l m called)
      have wf₁ := grows₁.wellFormed wf
      have literals₁ := literals.imp fun _ _ here => here.later (grows₁.later wf)
      generalize s.lit m = x at *
      have operands : List.Forall₂ x.2.Literal (before ++ [m]) (negated ++ [x.1]) :=
        List.rel_append literals₁ (.cons literal .nil)
      have grows₂ : Grows x.2 (x.2.conj (negated ++ [x.1])).2 :=
        (Step.junction x.2 .conj fun g member => by
          obtain ⟨_, _, here, _⟩ := forall₂_mem_right operands g member
          exact here).grows
      have cube := wf₁.conj_cube operands
      have wf₂ := grows₂.wellFormed wf₁
      have later₂ := grows₂.later wf₁
      have literal₂ := literal.later later₂
      generalize x.2.conj (negated ++ [x.1]) = y at *
      have grows₃ := (Step.neg y.2 literal₂.1).grows
      have complement := wf₂.neg_literal literal₂
      have wf₃ := grows₃.wellFormed wf₂
      have later₃ := grows₃.later wf₂
      generalize y.2.neg x.1 = z at *
      have literals₃ : List.Forall₂ z.2.Literal (before ++ [-m]) (negated ++ [z.1]) :=
        List.rel_append (literals₁.imp fun _ _ here => (here.later later₂).later later₃)
          (.cons complement .nil)
      obtain ⟨grows₄, terms⟩ := ih wf₃ literals₃ rest
      have toEnd := later₃.trans (grows₄.later wf₃)
      have grows := ((grows₁.trans grows₂).trans grows₃).trans grows₄
      cases out' with
      | none =>
        cases done
        obtain ⟨k, member, holds⟩ := terms
        exact ⟨grows, k, List.mem_cons_of_mem l member, holds⟩
      | some terms' =>
        cases done
        obtain ⟨unsatisfied, ms, named, cubes⟩ := terms
        refine ⟨grows, ?_, m :: ms, ?_, .cons (cube.later toEnd) cubes⟩
        · simpa [undecided] using unsatisfied
        · rw [List.filter_cons_of_pos (by simpa using undecided)]
          exact .cons called named

def LeafResult (value : Lit → Truth) (name : Lit → Except Fault Lit) (ls : List Lit) (s : Store)
    (f : Formula) : Prop :=
  ((∃ l ∈ ls, value l = .tru) ∧ f = .verum) ∨ ((∀ l ∈ ls, value l ≠ .tru) ∧ ∃ ms,
    List.Forall₂ (fun l m => name l = .ok m) (ls.filter (value · = .undef)) ms ∧ s.OneOf ms f)

theorem leaf_result {c c' : Compilation} {l : PlacedLeaf} {f : Formula} (wf : c.store.WellFormed)
    (words : ∀ l m, c.solver.litOf l = .ok m → m.code < Node.wordLimit)
    (run : c.leaf l = .ok (f, c')) : Grows c.store c'.store ∧ c' = { c with store := c'.store } ∧
      LeafResult c.solver.value c.solver.litOf l.lits c'.store f := by
  simp only [leaf, bind_ok, Prod.exists] at run
  obtain ⟨out, s, computed, rest⟩ := run
  obtain ⟨grows, terms⟩ := leafTerms_terms wf words .nil computed
  cases out with
  | none =>
    cases rest
    exact ⟨grows, rfl, .inl ⟨terms, rfl⟩⟩
  | some terms' =>
    cases rest
    obtain ⟨unsatisfied, ms, named, cubes⟩ := terms
    have step : Grows s (s.disj terms').2 := (Step.junction s .disj fun t member => by
      obtain ⟨_, _, cube⟩ := forall₂_mem_right cubes t member
      exact cube.mem).grows
    exact ⟨grows.trans step, rfl,
      .inr ⟨unsatisfied, ms, named, (grows.wellFormed wf).disj_oneOf cubes⟩⟩

end Compilation

end ModelCounting
