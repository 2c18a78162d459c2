import ModelCounting.Proofs.Caching
import ModelCounting.Proofs.FiniteMap
import ModelCounting.Proofs.Residual

/-!
Keys of subproblems. The key of a node names the clauses that are left and the variables they have left,
and says neither which variable is whose nor with which sign. In one tree it says enough: the places name
the clauses, and a literal of a clause that is left has a value exactly if its variable is not among those
named, in whatever clause it is left. So two keys are equal exactly if the same is left to be solved.
-/

namespace ModelCounting

theorem sublist_ext {α : Type} {xs ys zs : List α} (distinct : zs.Nodup) (first : xs.Sublist zs)
    (second : ys.Sublist zs) (same : ∀ x, x ∈ xs ↔ x ∈ ys) : xs = ys := by
  have perm : xs.Perm ys :=
    (List.perm_ext_iff_of_nodup (distinct.sublist first) (distinct.sublist second)).mpr same
  -- Both keep the order of the whole list, in which no two members come both ways.
  have ordered {ws : List α} (part : ws.Sublist zs) : ws.Pairwise fun x y => [x, y].Sublist zs :=
    List.pairwise_iff_forall_sublist.mpr fun pair => pair.trans part
  exact perm.eq_of_pairwise (fun x y _ _ before after => absurd after (pair_sublist_asymm distinct before))
    (ordered first) (ordered second)

namespace Dtree

variable {p : Stepper} {c : ClauseTree} {t u u₁ u₂ : PlacedTree} {a a₁ a₂ : Var → Truth} {n i : Nat}
  {key key₁ key₂ : IndexSet}

/-- What is left to be solved: the clauses that are not satisfied, with their literals without a value. -/
def problem (a : Var → Truth) (t : PlacedTree) : List (ClauseLeaf × List Lit) :=
  (t.remaining a).map fun l => (l.source, l.undecided a)

theorem problem_unassigned (t : PlacedTree) :
    t.problem (fun _ => .undef) = t.leaves.map fun l => (l.source, l.lits) := by
  have remaining : t.remaining (fun _ => .undef) = t.leaves :=
    List.filter_eq_self.mpr fun l _ => by simp [PlacedLeaf.Remains, Lit.under, Truth.negate]
  rw [problem, remaining]
  simp [PlacedLeaf.undecided]

theorem problem_assigned (assigned : ∀ v, a v ≠ .undef) : ∀ x ∈ t.problem a, x.2 = [] := by
  intro x member
  obtain ⟨l, _, rfl⟩ := List.mem_map.mp member
  exact List.filter_eq_nil_iff.mpr fun m _ => by simpa using assigned m.var

theorem mem_undecidedVars : i ∈ t.undecidedVars a ↔ ∃ x ∈ t.problem a, ∃ m ∈ x.2, m.var.id = i := by
  simp [undecidedVars, problem]

instance : Decidable (i ∈ t.undecidedVars a) := decidable_of_iff' _ mem_undecidedVars

theorem Lists.contains_key_iff (lists : t.Lists) (blank : key.isEmpty = true) :
    (t.cacheKey (Lit.under a) n key).contains i = true ↔
      (∃ x ∈ t.problem a, i = n + x.1.id + 1) ∨ i ∈ t.undecidedVars a := by
  rw [contains_cacheKey, lists.residual_eq, IndexSet.isEmpty_iff.mp blank]
  simp [problem, undecidedVars, PlacedLeaf.entry, PlacedLeaf.undecided, litOfCode, Lit.under_undef,
    and_assoc, and_or_left, exists_or]

theorem Lists.contains_var_iff (lists : t.Lists) (blank : key.isEmpty = true) (small : i < n) :
    (t.cacheKey (Lit.under a) n key).contains i = true ↔ i ∈ t.undecidedVars a := by
  rw [lists.contains_key_iff blank, or_iff_right]
  rintro ⟨x, _, rfl⟩
  omega

theorem mem_undecidedVars_of_remaining {l : PlacedLeaf} {m : Lit} (left : l ∈ t.remaining a)
    (literal : m ∈ l.lits) : m.var.id ∈ t.undecidedVars a ↔ a m.var = .undef := by
  constructor
  · rintro ⟨l', _, m', member, same⟩
    have free : a m'.var = .undef := by simpa using (List.mem_filter.mp member).2
    rwa [show m'.var = m.var from congrArg Var.mk same] at free
  · intro free
    exact ⟨l, left, m, List.mem_filter.mpr ⟨literal, by simpa using free⟩, rfl⟩

theorem remaining_sublist (below : u ∈ t.subtrees) : (u.remaining a).Sublist t.leaves :=
  List.filter_sublist.trans (leaves_sublist below)

section Key

variable (placed : Placed p c t) (wide : p.varCount ≤ n)

include placed wide

theorem Placed.undecided_lt (below : u ∈ t.subtrees) (free : i ∈ u.undecidedVars a) : i < n := by
  obtain ⟨l, left, m, member, rfl⟩ := free
  have inside := placed.inside l ((remaining_sublist below).subset left) m (List.mem_of_mem_filter member)
  exact Nat.lt_of_lt_of_le inside wide

theorem Placed.contains_place_iff (below : u ∈ t.subtrees) (blank : key.isEmpty = true) (id : Nat) :
    (u.cacheKey (Lit.under a) n key).contains (n + id + 1) = true ↔
      ∃ l ∈ u.remaining a, l.source.id = id := by
  rw [(placed.lists u below).contains_key_iff blank, or_iff_left]
  · simp [problem, eq_comm]
  · intro free
    have := placed.undecided_lt wide below free
    omega

variable (distinct : (t.leaves.map fun l => l.source.id).Nodup) (below₁ : u₁ ∈ t.subtrees)
  (below₂ : u₂ ∈ t.subtrees) (blank₁ : key₁.isEmpty = true) (blank₂ : key₂.isEmpty = true)

include distinct below₁ below₂ blank₁ blank₂

theorem Placed.remaining_eq
    (alike : (u₁.cacheKey (Lit.under a₁) n key₁).Alike (u₂.cacheKey (Lit.under a₂) n key₂)) :
    u₁.remaining a₁ = u₂.remaining a₂ := by
  have places (id : Nat) : (∃ l ∈ u₁.remaining a₁, l.source.id = id) ↔
      ∃ l ∈ u₂.remaining a₂, l.source.id = id := by
    rw [← placed.contains_place_iff wide below₁ blank₁,
      ← placed.contains_place_iff wide below₂ blank₂, alike]
  have first : (u₁.remaining a₁).Sublist t.leaves := remaining_sublist below₁
  have second : (u₂.remaining a₂).Sublist t.leaves := remaining_sublist below₂
  have known := List.inj_on_of_nodup_map distinct
  refine sublist_ext (distinct.of_map _) first second fun l => ⟨fun member => ?_, fun member => ?_⟩
  · obtain ⟨l', member', same⟩ := (places _).mp ⟨l, member, rfl⟩
    rwa [← known (second.subset member') (first.subset member) same]
  · obtain ⟨l', member', same⟩ := (places _).mpr ⟨l, member, rfl⟩
    rwa [← known (first.subset member') (second.subset member) same]

theorem Placed.same_iff :
    (u₁.cacheKey (Lit.under a₁) n key₁).same (u₂.cacheKey (Lit.under a₂) n key₂) = true ↔
      u₁.problem a₁ = u₂.problem a₂ := by
  rw [IndexSet.same_iff]
  constructor
  · intro alike
    have clauses := placed.remaining_eq wide distinct below₁ below₂ blank₁ blank₂ alike
    have vars {i : Nat} (small : i < n) : i ∈ u₁.undecidedVars a₁ ↔ i ∈ u₂.undecidedVars a₂ := by
      rw [← (placed.lists u₁ below₁).contains_var_iff blank₁ small,
        ← (placed.lists u₂ below₂).contains_var_iff blank₂ small, alike]
    unfold problem
    rw [clauses]
    refine List.map_congr_left fun l left => congrArg (l.source, ·) (List.filter_congr fun m literal => ?_)
    have leaf : l ∈ t.leaves := (remaining_sublist below₂).subset left
    have small : m.var.id < n := Nat.lt_of_lt_of_le (placed.inside l leaf m literal) wide
    rw [decide_eq_decide, ← mem_undecidedVars_of_remaining (clauses ▸ left) literal, vars small,
      mem_undecidedVars_of_remaining left literal]
  · intro same i
    rw [Bool.eq_iff_iff, (placed.lists u₁ below₁).contains_key_iff blank₁,
      (placed.lists u₂ below₂).contains_key_iff blank₂, mem_undecidedVars, mem_undecidedVars, same]

end Key

variable {s : Store} {f : Formula}

/-- In the tree of a conjunction along whatever order, put into the variables of a solver that holds it,
the keys of any two nodes under any two partial assignments are equal exactly if the same clauses are left
with the same literals. The variables of clauses added since may be counted in. -/
theorem cacheKey_identifies (leads : Store.Leads Store.initial s) (known : f ∈ s) (cnf : s.isCnf f = true)
    (compound : s.isAtomic f = false) (order : List Var) :
    Delivers (alongOrder s f order) fun c => ∀ settings p, Stepper.Holds settings s f p →
      Delivers (place p c) fun t => ∀ u₁ ∈ t.subtrees, ∀ u₂ ∈ t.subtrees, ∀ a₁ a₂ : Var → Truth,
        ∀ n key₁ key₂, p.varCount ≤ n → key₁.isEmpty = true → key₂.isEmpty = true →
          ((u₁.cacheKey (Lit.under a₁) n key₁).same (u₂.cacheKey (Lit.under a₂) n key₂) = true ↔
            u₁.problem a₁ = u₂.problem a₂) := by
  have wf := leads.wellFormed
  have built : Delivers (alongOrder s f order) (Clausal s f) := alongOrder_delivers wf known cnf compound
  obtain ⟨c, run, clausal⟩ := built
  refine ⟨c, run, fun settings p holds => ?_⟩
  have gathers : c.Gathers s f := alongOrder_gathers wf run
  refine (gathers.placed wf known cnf holds).mono fun t placed => ?_
  have distinct : (t.leaves.map fun l => l.source.id).Nodup := by
    have ids := clausal.distinct
    rwa [← placed.unplaced_eq, leaves_unplaced, List.map_map] at ids
  intro u₁ below₁ u₂ below₂ a₁ a₂ n key₁ key₂ wide blank₁ blank₂
  exact placed.same_iff wide distinct below₁ below₂ blank₁ blank₂

/-- The root of a tree of two clauses, under no assignment and under one of all variables: whatever is
left under the second has no literals left. -/
theorem cacheKey_identifies_chain : ∃ s f p c t, s.clauses f = .ok [[⟨0⟩, ⟨2⟩], [⟨3⟩, ⟨4⟩]] ∧
    Stepper.Holds {} s f p ∧ alongOrder s f [⟨1⟩] = .ok c ∧ place p c = .ok t ∧
      ¬ (t.cacheKey (Lit.under fun _ => .undef) p.varCount .empty).same
        (t.cacheKey (Lit.under fun _ => .tru) p.varCount .empty) = true := by
  have proper : ∀ c ∈ [[⟨0⟩, ⟨2⟩], [⟨3⟩, (⟨4⟩ : Lit)]], Store.Proper c := by decide
  obtain ⟨s, f, leads, known, cnf, clauses⟩ :=
    Store.initial_wellFormed.exists_cnf (by decide) (by decide) proper
  obtain ⟨p, added, _⟩ := Stepper.add_fresh {} clauses
  have holds : Stepper.Holds {} s f p := .given .fresh added
  obtain ⟨c, built, identifies⟩ :=
    cacheKey_identifies leads known cnf (Store.compound_of_clauses clauses) [⟨1⟩]
  obtain ⟨t, run, same⟩ := identifies {} p holds
  refine ⟨s, f, p, c, t, clauses, holds, built, run, ?_⟩
  have blank : IndexSet.empty.isEmpty = true := IndexSet.isEmpty_iff.mpr IndexSet.contains_empty
  rw [same t t.self_subtree t t.self_subtree _ _ _ _ _ (Nat.le_refl _) blank blank]
  intro equal
  obtain ⟨leaves, trees, stages⟩ := alongOrder_stages leads.wellFormed built
  obtain ⟨rfl, _, literals⟩ := place_ok run
  obtain ⟨l, first, lits⟩ : ∃ l ∈ leaves, l.lits = [⟨0⟩, ⟨2⟩] := by
    have listed : ([⟨0⟩, ⟨2⟩], 0) ∈ leaves.map fun l => (l.lits, l.id) := by
      rw [stages.lits_ids leads.wellFormed known clauses]
      exact List.mem_cons_self
    obtain ⟨l, first, pair⟩ := List.mem_map.mp listed
    exact ⟨l, first, congrArg Prod.fst pair⟩
  rw [← stages.leaves_perm.mem_iff, leaves_unplaced] at first
  obtain ⟨l', leaf, rfl⟩ := List.mem_map.mp first
  have free : (l'.source, l'.lits) ∈ t.problem fun _ => .undef := by
    rw [problem_unassigned]
    exact List.mem_map_of_mem leaf
  have none : l'.lits = [] := problem_assigned (fun _ => by decide) _ (equal ▸ free)
  have long := (literals l' leaf).length_eq
  rw [lits, none] at long
  cases long

end Dtree

end ModelCounting
