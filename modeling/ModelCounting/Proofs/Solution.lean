import ModelCounting.Proofs.Safety
import ModelCounting.Proofs.Shrinking
import ModelCounting.Proofs.SubproblemKey

/-!
What solves the rest of a subtree: values that make one of the literals left true in each clause left.
Assigning more variables leaves the solutions alone that agree with what was assigned, and it leaves all
of them alone where the subtree has none of the variables. A step of the solver keeps to a subtree if it
assigns variables left in it only, and only as every solution has it.
-/

namespace ModelCounting

theorem Lit.under_neg_of_ne {a : Var → Truth} {l : Lit} (assigned : a l.var ≠ .undef)
    (untrue : l.under a ≠ .tru) : (-l).under a = .tru := by
  unfold Lit.under at *
  rw [Lit.phase_neg, Lit.var_neg]
  cases phase : l.phase <;> cases here : a l.var <;> simp_all [Truth.negate]

namespace Dtree

variable {t left right : PlacedTree} {d : PlacedInner} {a a' : Var → Truth} {value : Var → Bool} {i : Nat}

/-- In each clause left one of the literals left is true. -/
def Solves (value : Var → Bool) (problem : List (ClauseLeaf × List Lit)) : Prop :=
  ∀ x ∈ problem, Holds value x.2

theorem problem_node :
    (Dtree.node d left right).problem a = left.problem a ++ right.problem a := by
  simp only [problem, remaining, leaves, List.filter_append, List.map_append]

theorem solves_node : Solves value ((Dtree.node d left right).problem a) ↔
    Solves value (left.problem a) ∧ Solves value (right.problem a) := by
  rw [problem_node]
  exact List.forall_mem_append

theorem undecidedVars_node : i ∈ (Dtree.node d left right).undecidedVars a ↔
    i ∈ left.undecidedVars a ∨ i ∈ right.undecidedVars a := by
  simp only [mem_undecidedVars, problem_node, List.mem_append, or_and_right, exists_or]

theorem sharedVars_sub : t.sharedVars a ⊆ t.undecidedVars a := by
  cases t with
  | leaf l => exact Set.empty_subset _
  | node d left right => exact fun i both => undecidedVars_node.mpr (.inl both.1)

theorem solves_iff : Solves value (t.problem a) ↔
    ∀ l ∈ t.remaining a, ∃ m ∈ l.lits, a m.var = .undef ∧ m.holds value = true := by
  simp [Solves, problem, Holds, PlacedLeaf.undecided, and_assoc]

theorem undefined_of_mem (left : i ∈ t.undecidedVars a) : a ⟨i⟩ = .undef := by
  obtain ⟨l, _, m, member, rfl⟩ := left
  exact of_decide_eq_true (List.mem_filter.mp member).2

/-- Values that agree with what was assigned since solve the rest if they solved it before. -/
theorem solves_enlarged (larger : Enlarges a a')
    (agrees : ∀ l : Lit, l.under a' = .tru → a l.var = .undef → l.holds value = true) :
    Solves value (t.problem a') ↔ Solves value (t.problem a) := by
  simp only [solves_iff]
  constructor
  · intro solved l remains
    obtain ⟨leaf, unsatisfied⟩ := List.mem_filter.mp remains
    by_cases still : l.Remains a'
    · obtain ⟨m, literal, free, holds⟩ :=
        solved l (List.mem_filter.mpr ⟨leaf, decide_eq_true still⟩)
      exact ⟨m, literal, larger.undef free, holds⟩
    -- One of its literals has become true.
    · simp only [PlacedLeaf.Remains, not_forall, Decidable.not_not] at still
      obtain ⟨m, literal, true_⟩ := still
      have free : a m.var = .undef := by
        by_contra assigned
        refine of_decide_eq_true unsatisfied m literal ?_
        rw [← true_, Lit.under, Lit.under, larger m.var assigned]
      exact ⟨m, literal, free, agrees m true_ free⟩
  · intro solved l remains
    obtain ⟨leaf, unsatisfied⟩ := List.mem_filter.mp remains
    obtain ⟨m, literal, free, holds⟩ := solved l (remaining_anti larger remains)
    refine ⟨m, literal, ?_, holds⟩
    by_contra assigned
    -- It is not true, and it is not false either, since the values agree.
    have false_ := Lit.under_neg_of_ne assigned (of_decide_eq_true unsatisfied m literal)
    have opposite := agrees (-m) false_ (by rwa [Lit.var_neg])
    rw [Store.holds_neg, holds] at opposite
    cases opposite

theorem problem_apart (larger : Enlarges a a')
    (apart : ∀ v : Var, v.id ∈ t.undecidedVars a → a' v = .undef) : t.problem a' = t.problem a := by
  have same (l : PlacedLeaf) (remains : l ∈ t.remaining a) (m : Lit) (literal : m ∈ l.lits) :
      a' m.var = a m.var := by
    by_cases free : a m.var = .undef
    · rw [free]
      exact apart m.var ((mem_undecidedVars_of_remaining remains literal).mpr free)
    · exact larger m.var free
  have remaining : t.remaining a' = t.remaining a := by
    refine List.filter_congr fun l leaf => decide_eq_decide.mpr ⟨.anti larger, fun remains m literal => ?_⟩
    have here : l ∈ t.remaining a := List.mem_filter.mpr ⟨leaf, decide_eq_true remains⟩
    have unsatisfied := remains m literal
    rwa [Lit.under, ← same l here m literal, ← Lit.under] at unsatisfied
  unfold problem
  rw [remaining]
  refine List.map_congr_left fun l remains => congrArg (l.source, ·) ?_
  exact List.filter_congr fun m literal => by rw [same l remains m literal]

theorem Sited.contains_vars_iff {n : Nat} (sited : t.Sited n) :
    t.vars.contains i = true ↔ ∃ l ∈ t.leaves, ∃ m ∈ l.lits, m.var.id = i := by
  induction t with
  | leaf l =>
    obtain ⟨_, listed, _⟩ := sited
    rw [vars, footprint, listed, IndexSet.contains_ofList]
    simp [leaves]
  | node d left right ihl ihr =>
    obtain ⟨⟨first, second⟩, union, _⟩ := sited
    rw [vars, footprint, union, IndexSet.contains_union, Bool.or_eq_true, ihl first, ihr second]
    simp only [leaves, List.mem_append, or_and_right, exists_or]

theorem Sited.contains_undecided {n : Nat} (sited : t.Sited n) (left : i ∈ t.undecidedVars a) :
    t.vars.contains i = true := by
  obtain ⟨l, remains, m, free, rfl⟩ := left
  exact sited.contains_vars_iff.mpr
    ⟨l, List.mem_of_mem_filter remains, m, List.mem_of_mem_filter free, rfl⟩

def Detached (a : Var → Truth) (t u : PlacedTree) : Prop :=
  ∀ l ∈ t.remaining a, ∀ m ∈ l.undecided a, m.var.id ∈ u.undecidedVars a → l ∈ u.leaves

namespace Detached

variable {u : PlacedTree}

theorem self (a : Var → Truth) (t : PlacedTree) : Detached a t t := fun _ remains _ _ _ =>
  (List.mem_filter.mp remains).1

theorem enlarged (detached : Detached a t u) (larger : Enlarges a a') : Detached a' t u :=
  fun l remains m free left => detached l (remaining_anti larger remains) m
    (PlacedLeaf.undecided_anti larger free) (undecidedVars_anti larger left)

theorem parts (detached : Detached a t (.node d left right))
    (nothing : ∀ i, i ∉ (Dtree.node d left right).sharedVars a) :
    Detached a t left ∧ Detached a t right := by
  have inside {u' : PlacedTree} {l : PlacedLeaf} {m : Lit} (remains : l ∈ t.remaining a)
      (free : m ∈ l.undecided a) (leaf : l ∈ u'.leaves) : m.var.id ∈ u'.undecidedVars a :=
    ⟨l, List.mem_filter.mpr ⟨leaf, (List.mem_filter.mp remains).2⟩, m, free, rfl⟩
  constructor
  · intro l remains m free left_has
    have leaf := detached l remains m free (undecidedVars_node.mpr (.inl left_has))
    refine (List.mem_append.mp leaf).resolve_right fun leaf' => ?_
    exact nothing _ ⟨left_has, inside remains free leaf'⟩
  · intro l remains m free right_has
    have leaf := detached l remains m free (undecidedVars_node.mpr (.inr right_has))
    refine (List.mem_append.mp leaf).resolve_left fun leaf' => ?_
    exact nothing _ ⟨inside remains free leaf', right_has⟩

theorem remaining (detached : Detached a t u) {l : PlacedLeaf} {m : Lit} (remains : l ∈ t.remaining a)
    (free : m ∈ l.undecided a) (left : m.var.id ∈ u.undecidedVars a) : l ∈ u.remaining a :=
  List.mem_filter.mpr ⟨detached l remains m free left, (List.mem_filter.mp remains).2⟩

end Detached

end Dtree

/-! Trails. -/

namespace Trail

variable {t t' : Trail} {l : Lit}

theorem Grows.enlarges (grows : t.Grows t') (wf : t.WellFormed) (wf' : t'.WellFormed) :
    Enlarges t.valueVar t'.valueVar := by
  intro v assigned
  obtain ⟨l, member, rfl⟩ := wf.exists_mem assigned
  have here := (wf.true_iff l).mpr member
  have there := (wf'.true_iff l).mpr (grows.mem member)
  unfold value at here there
  cases phase : l.phase <;> simp only [phase, if_true, Bool.false_eq_true, if_false] at here there
  · rw [Truth.negate_eq_tru] at here there
    exact there.trans here.symm
  · exact there.trans here.symm

theorem valueVar_eq (wf : t.Faithful) (wf' : t'.Faithful) (same : t'.lits = t.lits) :
    t'.valueVar = t.valueVar := by
  funext v
  have values := wf.value_congr wf' same (.of v true)
  simpa [value] using values

theorem under_tru_iff (wf : t.Faithful) : l.under t.valueVar = .tru ↔ l ∈ t.lits := wf.true_iff l

end Trail

/-! Steps. -/

namespace Stepper

variable {p q : Stepper} {t : PlacedTree} {given : List Lit} {value : Var → Bool} {l : Lit}

/-- What a step puts on the trail, granted some literals, is a matter of a subtree: literals of variables
left in it, and true in every solution of what is left. -/
structure Concerns (t : PlacedTree) (given : List Lit) (p q : Stepper) : Prop where
  inside : ∀ l ∈ q.core.trail.lits, l ∉ p.core.trail.lits →
    l.var.id ∈ t.undecidedVars p.core.trail.valueVar
  follows : ∀ l ∈ q.core.trail.lits, l ∉ p.core.trail.lits → ∀ value,
    (∀ m ∈ given, m.holds value = true) → Dtree.Solves value (t.problem p.core.trail.valueVar) →
      l.holds value = true

theorem Concerns.solves_iff (concerns : Concerns t given p q) (wf : p.core.trail.WellFormed)
    (wf' : q.core.trail.WellFormed) (larger : Enlarges p.core.trail.valueVar q.core.trail.valueVar)
    (granted : ∀ m ∈ given, m.holds value = true) :
    ((∀ l ∈ q.core.trail.lits, l ∉ p.core.trail.lits → l.holds value = true) ∧
      Dtree.Solves value (t.problem q.core.trail.valueVar)) ↔
        Dtree.Solves value (t.problem p.core.trail.valueVar) := by
  have agree (news : ∀ l ∈ q.core.trail.lits, l ∉ p.core.trail.lits → l.holds value = true)
      (l : Lit) (true_ : l.under q.core.trail.valueVar = .tru)
      (free : p.core.trail.valueVar l.var = .undef) : l.holds value = true := by
    refine news l ((Trail.under_tru_iff wf'.toFaithful).mp true_) fun old => ?_
    exact (wf.undef_iff l.var).mp free l old rfl
  constructor
  · rintro ⟨news, solved⟩
    exact (Dtree.solves_enlarged larger (agree news)).mp solved
  · intro solved
    have news (l : Lit) (member : l ∈ q.core.trail.lits) (new : l ∉ p.core.trail.lits) :
        l.holds value = true := concerns.follows l member new value granted solved
    exact ⟨news, (Dtree.solves_enlarged larger (agree news)).mpr solved⟩

end Stepper

end ModelCounting
