import ModelCounting.Proofs.Residual
import ModelCounting.Proofs.Separators

/-!
What is left shrinks. Assigning more variables satisfies more clauses and leaves fewer variables in the
others, so a node has less left under the larger assignment, and its subtrees share less. What they
share was among the variables that both have from the start. So subtrees that were separated once are
separated for good, and what is left of their clauses has no variable in common.
-/

namespace ModelCounting

/-- The second assignment gives each variable the value that it has in the first, if any. -/
def Enlarges (a a' : Var → Truth) : Prop := ∀ v, a v ≠ .undef → a' v = a v

variable {a a' : Var → Truth}

theorem Enlarges.undef (larger : Enlarges a a') {v : Var} (free : a' v = .undef) : a v = .undef :=
  by_contra fun assigned => assigned ((larger v assigned).symm.trans free)

theorem Enlarges.tru (larger : Enlarges a a') {l : Lit} (holds : l.under a = .tru) :
    l.under a' = .tru := by
  have assigned : a l.var ≠ .undef := by
    rw [Ne, ← Lit.under_undef, holds]
    decide
  rw [← holds]
  unfold Lit.under
  rw [larger l.var assigned]

namespace PlacedLeaf

variable {l : PlacedLeaf}

theorem Remains.anti (larger : Enlarges a a') (remains : l.Remains a') : l.Remains a :=
  fun m literal holds => remains m literal (larger.tru holds)

theorem undecided_anti (larger : Enlarges a a') : l.undecided a' ⊆ l.undecided a := by
  intro m member
  obtain ⟨literal, free⟩ := List.mem_filter.mp member
  exact List.mem_filter.mpr ⟨literal, decide_eq_true (larger.undef (of_decide_eq_true free))⟩

end PlacedLeaf

namespace Dtree

variable {p : Stepper} {s : Store} {f : Formula} {c : ClauseTree} {t u : PlacedTree} {n i : Nat}

theorem remaining_anti (larger : Enlarges a a') : t.remaining a' ⊆ t.remaining a := by
  intro l member
  obtain ⟨leaf, remains⟩ := List.mem_filter.mp member
  exact List.mem_filter.mpr ⟨leaf, decide_eq_true ((of_decide_eq_true remains).anti larger)⟩

theorem undecidedVars_anti (larger : Enlarges a a') : t.undecidedVars a' ⊆ t.undecidedVars a := by
  rintro i ⟨l, left, m, free, same⟩
  exact ⟨l, remaining_anti larger left, m, PlacedLeaf.undecided_anti larger free, same⟩

theorem sharedVars_anti (larger : Enlarges a a') : t.sharedVars a' ⊆ t.sharedVars a := by
  cases t with
  | leaf l => exact Set.Subset.rfl
  | node d left right =>
    exact Set.inter_subset_inter (undecidedVars_anti larger) (undecidedVars_anti larger)

/-- No clause left in the first tree has an undecided variable in common with a clause left in the
second. -/
def Separated (a : Var → Truth) (left right : PlacedTree) : Prop :=
  ∀ l ∈ left.remaining a, ∀ r ∈ right.remaining a, ∀ m ∈ l.undecided a, ∀ k ∈ r.undecided a,
    m.var ≠ k.var

theorem separated_of_sharedVars {d : PlacedInner} {left right : PlacedTree}
    (nothing : ∀ i, i ∉ (node d left right).sharedVars a) : Separated a left right := by
  intro l leftRemains r rightRemains m leftFree k rightFree same
  exact nothing m.var.id ⟨⟨l, leftRemains, m, leftFree, rfl⟩,
    ⟨r, rightRemains, k, rightFree, congrArg Var.id same.symm⟩⟩

theorem Sited.subtree (sited : t.Sited n) (below : u ∈ t.subtrees) : u.Sited n := by
  induction t with
  | leaf l => rwa [List.mem_singleton.mp below]
  | node d left right ihl ihr =>
    rw [subtrees, List.mem_cons, List.mem_append] at below
    rcases below with rfl | below | below
    · exact sited
    · exact ihl sited.1.1 below
    · exact ihr sited.1.2 below

/-- What a node answers about a partial assignment bounds what it answers about every larger one: the
variables left, and those that its subtrees share, which are always among its separator. Where they
share none, they never will, and what is left of them is apart. -/
structure Shrinks (t : PlacedTree) : Prop where
  vars : ∀ a a', Enlarges a a' → ∀ out i,
    (t.dynamicVars (Lit.under a') out).contains i = true →
      (t.dynamicVars (Lit.under a) out).contains i = true
  shared : ∀ a a', Enlarges a a' → ∀ out scratch out' scratch' i,
    (t.dynamicSeparator (Lit.under a') out' scratch').1.contains i = true →
      (t.dynamicSeparator (Lit.under a) out scratch).1.contains i = true
  static : ∀ a out scratch i,
    (t.dynamicSeparator (Lit.under a) out scratch).1.contains i = true → i ∈ t.separator
  separated : ∀ d left right, t = .node d left right → ∀ a out scratch,
    (t.dynamicSeparator (Lit.under a) out scratch).1.isEmpty = true → ∀ a', Enlarges a a' →
      (∀ out' scratch', (t.dynamicSeparator (Lit.under a') out' scratch').1.isEmpty = true) ∧
        Separated a' left right

theorem Sited.shrinks (sited : t.Sited n) (lists : ∀ u ∈ t.subtrees, u.Lists) : t.Shrinks := by
  have shared (a : Var → Truth) (out scratch : IndexSet) (i : Nat) :
      (t.dynamicSeparator (Lit.under a) out scratch).1.contains i = true ↔ i ∈ t.sharedVars a :=
    Lists.contains_dynamicSeparator_iff lists
  constructor
  case vars =>
    intro a a' larger out i
    have root := lists t t.self_subtree
    rw [root.contains_dynamicVars_iff, root.contains_dynamicVars_iff]
    exact Or.imp_right fun left => undecidedVars_anti larger left
  case shared =>
    intro a a' larger out scratch out' scratch' i
    rw [shared, shared]
    exact fun both => sharedVars_anti larger both
  case static =>
    intro a out scratch i member
    obtain ⟨d, left, right, rfl, inside, _⟩ := sited.separator member
    exact inside
  case separated =>
    rintro d left right rfl a out scratch nothing a' larger
    have never (i : Nat) : i ∉ (node d left right).sharedVars a' := fun both => by
      have still := (shared a out scratch i).mpr (sharedVars_anti larger both)
      rw [IndexSet.isEmpty_iff.mp nothing] at still
      cases still
    refine ⟨fun out' scratch' => IndexSet.isEmpty_iff.mpr fun i => ?_, separated_of_sharedVars never⟩
    rw [Bool.eq_false_iff, Ne, shared]
    exact never i

/-- However the clauses of a formula are put into a tree, and into the variables of a solver that holds
them, at each node less is left under the larger of two partial assignments. -/
theorem place_shrinks (leads : Store.Leads Store.initial s) (known : f ∈ s) (cnf : s.isCnf f = true)
    (gathers : c.Gathers s f) {settings : Settings} (holds : Stepper.Holds settings s f p) :
    Delivers (place p c) fun t => ∀ u ∈ t.subtrees, u.Shrinks := by
  have wf := leads.wellFormed
  obtain ⟨cs, read, _⟩ := Store.clauses_delivers cnf
  obtain ⟨sound, _⟩ := holds.numbers read
  obtain ⟨t, run, placed⟩ := gathers.placed wf known cnf holds
  have sited : t.Sited p.core.varCount :=
    ((place_delivers sound.inside (gathers.known wf known cnf holds)).answer run).1
  refine ⟨t, run, fun u below => (sited.subtree below).shrinks fun v lower => ?_⟩
  exact placed.lists v (subtrees_trans below lower)

/-- Two clauses with one variable in common: where its number is true the first clause is satisfied, so
the two are separated, whatever else is assigned. -/
theorem place_shrinks_chain : ∃ s f p c d left right i,
    s.clauses f = .ok [[⟨0⟩, ⟨2⟩], [⟨3⟩, ⟨4⟩]] ∧ Stepper.Holds {} s f p ∧ Gathers s f c ∧
      place p c = .ok (.node d left right) ∧ p.numbers[(⟨1⟩ : Var)]? = some i ∧
        ∀ a : Var → Truth, a i = .tru → Separated a left right := by
  have proper : ∀ c ∈ [[⟨0⟩, ⟨2⟩], [⟨3⟩, (⟨4⟩ : Lit)]], Store.Proper c := by decide
  obtain ⟨s, f, leads, known, cnf, clauses⟩ :=
    Store.initial_wellFormed.exists_cnf (by decide) (by decide) proper
  obtain ⟨p, added, _⟩ := Stepper.add_fresh {} clauses
  have holds : Stepper.Holds {} s f p := .given .fresh added
  have wf := leads.wellFormed
  have clause (ls : List Lit) (listed : ls ∈ [[⟨0⟩, ⟨2⟩], [⟨3⟩, (⟨4⟩ : Lit)]]) : ∃ l : ClauseLeaf,
      l.lits = ls ∧ ∃ g ∈ s.flatten .conj f, ClauseLeaf.ofClause s l.id g = .ok l := by
    obtain ⟨g, conjunct, read⟩ := (wf.mem_clauses known clauses).mp listed
    have made : Delivers (ClauseLeaf.ofClause s 0 g) _ :=
      ofClause_delivers (Store.isClause_of_clauseLits read)
    obtain ⟨l, made, id, lits⟩ := made
    exact ⟨l, Except.ok.inj (lits.symm.trans read), g, conjunct, id ▸ made⟩
  obtain ⟨l, lits, here⟩ := clause [⟨0⟩, ⟨2⟩] (by simp)
  obtain ⟨r, _, there⟩ := clause [⟨3⟩, ⟨4⟩] (by simp)
  have gathers : Gathers s f (.node default (.leaf l) (.leaf r)) := by
    simpa [Gathers, leaves] using ⟨here, there⟩
  obtain ⟨t, run, shrinks⟩ := place_shrinks leads known cnf gathers holds
  have lists := ((gathers.placed wf known cnf holds).answer run).lists
  obtain ⟨_, first, rest⟩ := bind_ok.mp run
  obtain ⟨_, _, rest⟩ := bind_ok.mp rest
  cases rest
  obtain ⟨l', made, rest⟩ := bind_ok.mp first
  cases rest
  -- the second literal of the first clause is positive
  obtain ⟨m, literal, placed⟩ := forall₂_mem_left (placeLeaf_ok made).2 (⟨2⟩ : Lit) (by simp [lits])
  obtain ⟨i, number, rfl⟩ := Option.map_eq_some_iff.mp placed
  rw [show (⟨2⟩ : Lit).phase = true from rfl] at literal
  have root := shrinks _ (self_subtree _)
  refine ⟨s, f, p, _, _, _, _, i, clauses, holds, gathers, run, number, fun a holds => ?_⟩
  let a₀ (v : Var) : Truth := if v = i then .tru else .undef
  have larger : Enlarges a₀ a := by
    intro v assigned
    by_cases here : v = i <;> simp_all [a₀]
  refine (root.separated _ _ _ rfl a₀ .empty .empty ?_ a larger).2
  rw [IndexSet.isEmpty_iff]
  intro j
  rw [Bool.eq_false_iff, Ne, Lists.contains_dynamicSeparator_iff lists]
  rintro ⟨⟨_, leaf, _⟩, _⟩
  obtain ⟨alone, remains⟩ := List.mem_filter.mp leaf
  obtain rfl := List.mem_singleton.mp alone
  exact of_decide_eq_true remains _ literal (by simp [Lit.under, a₀])

end Dtree

end ModelCounting
