import ModelCounting.Proofs.Composition
import ModelCounting.Proofs.Search.Naming
import ModelCounting.Proofs.Subsumption

/-!
What a placed tree tells of its clauses. A node keeps the clauses below it as one flat list of numbers,
in which each clause is closed by its place; read back, the list is the clauses of the leaves from left
to right. So what a node answers about a partial assignment, the variables left, those that its subtrees
share and how often each occurs, is what the leaves below it say.
-/

namespace ModelCounting

/-- No variable occurs twice in a clause. -/
theorem Store.WellFormed.clauseLits_vars_nodup {s : Store} {f : Formula} (wf : s.WellFormed)
    (known : f ∈ s) {c : List Lit} (run : s.clauseLits f = .ok c) : (c.map Lit.var).Nodup := by
  refine (wf.clauseLits_nodup known run).map_on fun l hl m hm same => by_contra fun differ => ?_
  have opposite : m = -l := by
    refine Lit.ext_var_phase (by rw [Lit.var_neg, same]) ?_
    rw [Lit.phase_neg, Bool.eq_not]
    exact fun phase => differ (Lit.ext_var_phase same phase.symm)
  unfold Store.clauseLits at run
  split at run
  · cases run
    cases hl
  · cases run
    exact differ ((List.mem_singleton.mp hl).trans (List.mem_singleton.mp hm).symm)
  · rename_i fs shape
    have operands := wf.operands_of_node (c := .disj) known shape
    obtain ⟨g, hg, node⟩ := forall₂_mem_right (operandLits run) l hl
    obtain ⟨h, hh, node'⟩ := forall₂_mem_right (operandLits run) m hm
    rw [opposite] at node'
    exact operands.compatible g hg h hh l node node'
  · exact notAClause_error run

/-! Partial assignments. -/

/-- The value of a literal under a partial assignment to the variables. -/
def Lit.under (a : Var → Truth) (l : Lit) : Truth := if l.phase then a l.var else (a l.var).negate

theorem Lit.under_undef {a : Var → Truth} {l : Lit} : l.under a = .undef ↔ a l.var = .undef := by
  unfold Lit.under
  split
  · rfl
  · cases a l.var <;> decide

theorem Stepper.value_eq (p : Stepper) : p.value = Lit.under p.core.trail.valueVar := rfl

namespace PlacedLeaf

/-- No literal of the clause is true. -/
def Remains (a : Var → Truth) (l : PlacedLeaf) : Prop := ∀ m ∈ l.lits, m.under a ≠ .tru

instance (a : Var → Truth) (l : PlacedLeaf) : Decidable (l.Remains a) :=
  inferInstanceAs (Decidable (∀ m ∈ l.lits, m.under a ≠ .tru))

def varIds (l : PlacedLeaf) : List Nat := l.lits.map (·.var.id)

theorem satisfied_entry_iff {a : Var → Truth} {l : PlacedLeaf} :
    Dtree.satisfied (Lit.under a) l.entry.2 = false ↔ l.Remains a := by
  rw [Dtree.satisfied, entry, List.any_map, List.any_eq_false]
  simp only [Function.comp_apply, litOfCode_code, decide_eq_true_eq]
  rfl

/-- The literals without a value. -/
def undecided (a : Var → Truth) (l : PlacedLeaf) : List Lit := l.lits.filter fun m => a m.var = .undef

end PlacedLeaf

namespace Dtree

/-! What the leaves say. -/

section Specification

variable (a : Var → Truth)

/-- The leaves with the clauses that are left. -/
def remaining (t : PlacedTree) : List PlacedLeaf := t.leaves.filter (·.Remains a)

/-- The unassigned variables of the clauses that are left. -/
def undecidedVars (t : PlacedTree) : Set Nat :=
  {i | ∃ l ∈ t.remaining a, ∃ m ∈ l.undecided a, m.var.id = i}

/-- The unassigned variables that clauses left on both sides have; none at a leaf. -/
def sharedVars : PlacedTree → Set Nat
  | .leaf _ => ∅
  | .node _ left right => left.undecidedVars a ∩ right.undecidedVars a

/-- The number of clauses left that have a variable. -/
def occurrencesOf (t : PlacedTree) (i : Nat) : Nat := (t.remaining a).countP (i ∈ ·.varIds)

end Specification

variable {t u : PlacedTree} {a : Var → Truth} {n i : Nat}

theorem Lists.residual_eq (lists : t.Lists) :
    t.residual (Lit.under a) = (t.remaining a).map PlacedLeaf.entry := by
  unfold residual remaining
  rw [lists.clauses_eq, List.filter_map]
  congr 1
  apply List.filter_congr
  intro l _
  rw [Bool.eq_iff_iff, decide_eq_true_eq, ← PlacedLeaf.satisfied_entry_iff, ← Bool.not_eq_true']
  rfl

theorem Lists.contains_dynamicVars_iff (lists : t.Lists) {out : IndexSet} :
    (t.dynamicVars (Lit.under a) out).contains i = true ↔
      out.contains i = true ∨ i ∈ t.undecidedVars a := by
  rw [contains_dynamicVars, lists.residual_eq]
  simp [undecidedVars, PlacedLeaf.entry, PlacedLeaf.undecided, litOfCode, Lit.under_undef, and_assoc]

theorem Lists.contains_cleared_iff (lists : t.Lists) {out : IndexSet} :
    (t.dynamicVars (Lit.under a) out.clear).contains i = true ↔ i ∈ t.undecidedVars a := by
  rw [lists.contains_dynamicVars_iff, IndexSet.contains_clear]
  simp

/-! Counting. -/

/-- A count after so many occurrences more. The count -1 stays, also where it is reached from below. -/
def raised (k : Nat) (count : Int) : Int := if count < 0 then min (count + k) (-1) else count + k

theorem raised_zero (count : Int) : raised 0 count = count := by
  unfold raised
  split <;> omega

theorem raised_add (j k : Nat) (count : Int) : raised (j + k) count = raised k (raised j count) := by
  unfold raised
  split <;> split <;> omega

/-- Each count is raised by its number of occurrences. -/
def Raises (times : Nat → Nat) (counts counts' : Array Int) : Prop :=
  counts'.size = counts.size ∧ ∀ i, counts'[i]? = counts[i]?.map (raised (times i))

theorem Raises.refl (counts : Array Int) : Raises (fun _ => 0) counts counts := by
  refine ⟨rfl, fun i => ?_⟩
  cases counts[i]? with
  | none => rfl
  | some count => exact congrArg some (raised_zero count).symm

theorem Raises.congr {times times' : Nat → Nat} {counts counts' : Array Int}
    (raises : Raises times counts counts') (same : ∀ i, times i = times' i) :
    Raises times' counts counts' := funext same ▸ raises

theorem Raises.trans {times times' : Nat → Nat} {counts counts' counts'' : Array Int}
    (first : Raises times counts counts') (second : Raises times' counts' counts'') :
    Raises (fun i => times i + times' i) counts counts'' := by
  refine ⟨second.1.trans first.1, fun i => ?_⟩
  rw [second.2, first.2, Option.map_map]
  exact congrArg (counts[i]?.map ·) (funext fun count => (raised_add _ _ count).symm)

variable {counts : Array Int}

theorem countOccurrence_raises {m : Lit} (inside : m.var.id < counts.size) :
    Delivers (countOccurrence counts m.code) (Raises (fun i => [m.var.id].count i) counts) := by
  unfold countOccurrence
  rw [litOfCode_code]
  simp only [Array.getElem?_eq_getElem inside]
  refine .ok ⟨by split <;> simp, fun i => ?_⟩
  change _ = counts[i]?.map (raised ([m.var.id].count i))
  by_cases here : m.var.id = i
  · subst here
    rw [Array.getElem?_eq_getElem inside, List.count_singleton_self, Option.map_some]
    split
    · rename_i least
      rw [Array.getElem?_eq_getElem inside, least]
      rfl
    · rename_i eligible
      rw [Array.getElem?_setIfInBounds_self_of_lt inside]
      congr 1
      unfold raised
      split <;> omega
  · have other : [m.var.id].count i = 0 := List.count_eq_zero.mpr (by simpa using Ne.symm here)
    rw [other, ← (Raises.refl counts).2]
    split
    · rfl
    · rw [Array.getElem?_setIfInBounds_ne here]

theorem countCodes_raises {ms : List Lit} (inside : ∀ m ∈ ms, m.var.id < counts.size) :
    Delivers ((ms.map fun m => (m.code : Int)).foldlM countOccurrence counts)
      (Raises (fun i => (ms.map (·.var.id)).count i) counts) := by
  induction ms generalizing counts with
  | nil => exact .pure (.refl counts)
  | cons m ms ih =>
    rw [List.forall_mem_cons] at inside
    rw [List.map_cons, List.foldlM_cons]
    refine (countOccurrence_raises inside.1).bind fun counts' _ first => ?_
    refine (ih fun m member => first.1 ▸ inside.2 m member).mono fun counts'' rest => ?_
    exact (first.trans rest).congr fun i => List.count_append.symm

theorem countLeaves_raises {ls : List PlacedLeaf} (distinct : ∀ l ∈ ls, l.varIds.Nodup)
    (inside : ∀ l ∈ ls, ∀ i ∈ l.varIds, i < counts.size) :
    Delivers ((ls.map PlacedLeaf.entry).foldlM (fun counts c => c.2.foldlM countOccurrence counts) counts)
      (Raises (fun i => ls.countP (i ∈ ·.varIds)) counts) := by
  induction ls generalizing counts with
  | nil => exact .pure (.refl counts)
  | cons l ls ih =>
    rw [List.forall_mem_cons] at distinct inside
    rw [List.map_cons, List.foldlM_cons]
    have lits : ∀ m ∈ l.lits, m.var.id < counts.size := fun m member =>
      inside.1 _ (List.mem_map_of_mem member)
    refine (countCodes_raises lits).bind fun counts' _ first => ?_
    refine (ih distinct.2 fun l member => first.1 ▸ inside.2 l member).mono fun counts'' rest => ?_
    refine (first.trans rest).congr fun i => ?_
    -- A clause has a variable once at most.
    have once : l.varIds.count i = if i ∈ l.varIds then 1 else 0 := distinct.1.count
    rw [List.countP_cons, Nat.add_comm]
    simpa [PlacedLeaf.varIds] using once

/-! Nodes. -/

/-- What a node tells: its contents are read as the clauses of its leaves, in words if these are numbered
by words, and queries about a partial assignment are answered as the leaves would. -/
structure Reports (t : PlacedTree) : Prop where
  read : segments t.contents = t.leaves.map PlacedLeaf.entry
  words : (∀ l ∈ t.leaves, l.source.id < 2 ^ 31 ∧ ∀ m ∈ l.lits, m.code < 2 ^ 31) →
    ∀ x ∈ t.contents, -2 ^ 31 ≤ x ∧ x < 2 ^ 31
  vars : ∀ a out i, (t.dynamicVars (Lit.under a) out).contains i = true ↔
    out.contains i = true ∨ i ∈ t.undecidedVars a
  separator : ∀ a out scratch i, (t.dynamicSeparator (Lit.under a) out scratch).1.contains i = true ↔
    i ∈ t.sharedVars a
  counts : ∀ a counts, (∀ l ∈ t.remaining a, ∀ i ∈ l.varIds, i < counts.size) →
    Delivers (t.countOccurrences (Lit.under a) counts) (Raises (t.occurrencesOf a) counts)

theorem Lists.words (lists : t.Lists)
    (small : ∀ l ∈ t.leaves, l.source.id < 2 ^ 31 ∧ ∀ m ∈ l.lits, m.code < 2 ^ 31) {x : Int}
    (member : x ∈ t.contents) : -2 ^ 31 ≤ x ∧ x < 2 ^ 31 := by
  rw [lists.contents_eq] at member
  obtain ⟨l, leaf, inside⟩ := List.mem_flatMap.mp member
  obtain ⟨id, codes⟩ := small l leaf
  rcases List.mem_append.mp inside with code | place
  · obtain ⟨m, literal, rfl⟩ := List.mem_map.mp code
    have := codes m literal
    omega
  · obtain rfl := List.mem_singleton.mp place
    omega

theorem Lists.contains_dynamicSeparator_iff (lists : ∀ u ∈ t.subtrees, u.Lists)
    {out scratch : IndexSet} :
    (t.dynamicSeparator (Lit.under a) out scratch).1.contains i = true ↔ i ∈ t.sharedVars a := by
  cases t with
  | leaf l => simp [dynamicSeparator, sharedVars]
  | node d left right =>
    obtain ⟨_, first, second⟩ := forall_subtrees_node.mp lists
    rw [dynamicSeparator, IndexSet.contains_inter, Bool.and_eq_true,
      (first left left.self_subtree).contains_cleared_iff,
      (second right right.self_subtree).contains_cleared_iff]
    rfl

theorem Lists.reports (lists : ∀ u ∈ t.subtrees, u.Lists) (distinct : ∀ l ∈ t.leaves, l.varIds.Nodup) :
    t.Reports := by
  have root := lists t t.self_subtree
  constructor
  case read => rw [← root.split_eq, root.clauses_eq]
  case words => exact fun small x => root.words small
  case vars => exact fun a out i => root.contains_dynamicVars_iff
  case separator => exact fun a out scratch i => contains_dynamicSeparator_iff lists
  case counts =>
    intro a counts inside
    unfold countOccurrences
    rw [root.residual_eq]
    exact countLeaves_raises (fun l left => distinct l (List.mem_of_mem_filter left)) inside

/-! Placing. -/

variable {p : Stepper} {s : Store} {f : Formula} {order : List Var} {c : ClauseTree}

/-- The tree that was placed. -/
def unplaced : PlacedTree → ClauseTree
  | .leaf l => .leaf l.source
  | .node d left right => .node d.extent left.unplaced right.unplaced

theorem placeLeaf_ok {l : ClauseLeaf} {l' : PlacedLeaf} (run : PlacedLeaf.place p l = .ok l') :
    l'.source = l ∧ List.Forall₂ (fun m m' => p.literal? m = some m') l.lits l'.lits := by
  obtain ⟨lits, read, rest⟩ := bind_ok.mp run
  cases rest
  refine ⟨rfl, (mapM_ok read).imp fun m m' placed => ?_⟩
  split at placed
  · rename_i found
    cases placed
    exact found
  · cases placed

/-- A tree is placed with its subtrees, and stays what it is. -/
theorem place_ok (run : place p c = .ok t) : t.unplaced = c ∧
    (∀ u ∈ t.subtrees, ∃ c' ∈ c.subtrees, place p c' = .ok u) ∧
      ∀ l ∈ t.leaves, List.Forall₂ (fun m m' => p.literal? m = some m') l.source.lits l.lits := by
  induction c generalizing t with
  | leaf l =>
    obtain ⟨l', placed, rest⟩ := bind_ok.mp run
    cases rest
    obtain ⟨rfl, literals⟩ := placeLeaf_ok placed
    refine ⟨rfl, fun u below => ⟨_, self_subtree _, ?_⟩, fun l member => ?_⟩
    · rw [List.mem_singleton.mp below]
      exact run
    · rw [List.mem_singleton.mp member]
      exact literals
  | node extent left right ihl ihr =>
    obtain ⟨l, first, rest⟩ := bind_ok.mp run
    obtain ⟨r, second, rest⟩ := bind_ok.mp rest
    cases rest
    obtain ⟨rfl, below, literals⟩ := ihl first
    obtain ⟨rfl, below', literals'⟩ := ihr second
    refine ⟨rfl, forall_subtrees_node.mpr ⟨⟨_, self_subtree _, run⟩, ?_, ?_⟩,
      List.forall_mem_append.mpr ⟨literals, literals'⟩⟩
    · intro u member
      obtain ⟨c', inside, placed⟩ := below u member
      exact ⟨c', List.mem_cons_of_mem _ (List.mem_append_left _ inside), placed⟩
    · intro u member
      obtain ⟨c', inside, placed⟩ := below' u member
      exact ⟨c', List.mem_cons_of_mem _ (List.mem_append_right _ inside), placed⟩

theorem varIds_nodup {l : PlacedLeaf} (apart : p.Apart)
    (literals : List.Forall₂ (fun m m' => p.literal? m = some m') l.source.lits l.lits)
    (distinct : (l.source.lits.map Lit.var).Nodup) : l.varIds.Nodup := by
  have numbered : List.Forall₂ (fun v i => p.numbers[v]? = some ⟨i⟩)
      (l.source.lits.map Lit.var) l.varIds := by
    rw [PlacedLeaf.varIds, List.forall₂_map_left_iff, List.forall₂_map_right_iff]
    refine literals.imp fun m m' placed => ?_
    obtain ⟨i, known, rfl⟩ := Option.map_eq_some_iff.mp placed
    rw [Lit.var_of]
    exact known
  refine (List.rel_nodup ⟨?_, ?_⟩ numbered).mp distinct
  · intro v w i first second
    exact apart v w ⟨i⟩ first second
  · intro v i j first second
    exact congrArg Var.id (Option.some.inj (first.symm.trans second))

/-- The leaves of the tree are clauses of the formula, whatever its shape and their places. -/
def Gathers (s : Store) (f : Formula) (c : ClauseTree) : Prop :=
  ∀ l ∈ c.leaves, ∃ g ∈ s.flatten .conj f, ClauseLeaf.ofClause s l.id g = .ok l

theorem alongOrder_gathers (wf : s.WellFormed) (run : alongOrder s f order = .ok c) : c.Gathers s f := by
  obtain ⟨leaves, trees, stages⟩ := alongOrder_stages wf run
  intro l member
  obtain ⟨x, conjunct, read⟩ := forall₂_mem_right stages.each_read l (stages.leaves_perm.mem_iff.mp member)
  obtain ⟨_, id, _⟩ := ofClause_ok read
  exact ⟨x.1, (List.mem_zipIdx conjunct).2.2 ▸ List.getElem_mem _, id ▸ read⟩

theorem Gathers.known {settings : Settings} (gathers : c.Gathers s f) (wf : s.WellFormed) (known : f ∈ s)
    (cnf : s.isCnf f = true) (holds : Stepper.Holds settings s f p) :
    ∀ l ∈ c.leaves, ∀ m ∈ l.lits, p.numbers[m.var]? ≠ none := by
  intro l member m literal
  obtain ⟨cs, read, _⟩ := Store.clauses_delivers cnf
  obtain ⟨_, _, numbered⟩ := holds.numbers read
  obtain ⟨g, conjunct, made⟩ := gathers l member
  obtain ⟨_, _, lits, _⟩ := ofClause_ok made
  exact numbered l.lits ((wf.mem_clauses known read).mpr ⟨g, conjunct, lits⟩) m literal

theorem Gathers.distinct (gathers : c.Gathers s f) (wf : s.WellFormed) (known : f ∈ s) :
    ∀ l ∈ c.leaves, (l.lits.map Lit.var).Nodup := by
  intro l member
  obtain ⟨g, conjunct, made⟩ := gathers l member
  obtain ⟨_, _, lits, _⟩ := ofClause_ok made
  exact wf.clauseLits_vars_nodup (wf.flatten_proper known conjunct).1 lits

/-- The second tree is the first in the variables of a solver: its leaves have the clauses of the first,
literal by literal, with no variable twice, and its nodes list them. -/
structure Placed (p : Stepper) (c : ClauseTree) (t : PlacedTree) : Prop where
  unplaced_eq : t.unplaced = c
  literals : ∀ l ∈ t.leaves, List.Forall₂ (fun m m' => p.literal? m = some m') l.source.lits l.lits
  distinct : ∀ l ∈ t.leaves, l.varIds.Nodup
  inside : ∀ l ∈ t.leaves, ∀ m ∈ l.lits, m.var.id < p.varCount
  lists : ∀ u ∈ t.subtrees, u.Lists

theorem leaves_unplaced (t : PlacedTree) : t.unplaced.leaves = t.leaves.map PlacedLeaf.source := by
  induction t with
  | leaf l => rfl
  | node d left right ihl ihr => rw [unplaced, leaves, ihl, ihr, leaves, List.map_append]

theorem Gathers.placed {settings : Settings} (gathers : c.Gathers s f) (wf : s.WellFormed) (known : f ∈ s)
    (cnf : s.isCnf f = true) (holds : Stepper.Holds settings s f p) :
    Delivers (place p c) (Placed p c) := by
  obtain ⟨cs, read, _⟩ := Store.clauses_delivers cnf
  obtain ⟨sound, apart, _⟩ := holds.numbers read
  have numbered := gathers.known wf known cnf holds
  obtain ⟨t, run, _⟩ := place_delivers (n := p.core.varCount) sound.inside numbered
  obtain ⟨whole, below, literals⟩ := place_ok run
  refine ⟨t, run, whole, literals, fun l member => ?_, fun l member m' literal => ?_, fun u member => ?_⟩
  · have source : l.source ∈ c.leaves := by
      rw [← whole, leaves_unplaced]
      exact List.mem_map_of_mem member
    exact varIds_nodup apart (literals l member) (gathers.distinct wf known l.source source)
  · obtain ⟨m, _, placed⟩ := forall₂_mem_right (literals l member) m' literal
    obtain ⟨i, here, rfl⟩ := Option.map_eq_some_iff.mp placed
    rw [Lit.var_of, Stepper.varCount, ← sound.count]
    exact sound.inside here
  · obtain ⟨c', inside, placed⟩ := below u member
    have there := fun l member => numbered l ((leaves_sublist inside).subset member)
    exact ((place_delivers sound.inside there).answer placed).2.2

/-- However the clauses of a formula are put into a tree, and whatever else a solver that holds them was
called on for: put into its variables, the tree stays what it is, and each of its nodes tells of the
clauses below it. -/
theorem place_reports (leads : Store.Leads Store.initial s) (known : f ∈ s) (cnf : s.isCnf f = true)
    (gathers : c.Gathers s f) {settings : Settings} (holds : Stepper.Holds settings s f p) :
    Delivers (place p c) fun t => t.unplaced = c ∧
      (∀ l ∈ t.leaves, List.Forall₂ (fun m m' => p.literal? m = some m') l.source.lits l.lits) ∧
        ∀ u ∈ t.subtrees, u.Reports := by
  refine (gathers.placed leads.wellFormed known cnf holds).mono fun t placed => ?_
  refine ⟨placed.unplaced_eq, placed.literals, fun u below => Lists.reports ?_ ?_⟩
  · exact fun v lower => placed.lists v (subtrees_trans below lower)
  · exact fun l member => placed.distinct l ((leaves_sublist below).subset member)

/-- A tree along an order, in a solver to which nothing else was added, under its own assignment. -/
theorem place_reports_chain : ∃ s f p c t, s.clauses f = .ok [[⟨0⟩, ⟨2⟩], [⟨3⟩, ⟨4⟩]] ∧
    Stepper.Holds {} s f p ∧ alongOrder s f [⟨1⟩] = .ok c ∧ place p c = .ok t ∧
      segments t.contents = t.leaves.map PlacedLeaf.entry ∧
        ∀ i, (t.dynamicVars p.value .empty).contains i = true ↔
          i ∈ t.undecidedVars p.core.trail.valueVar := by
  have proper : ∀ c ∈ [[⟨0⟩, ⟨2⟩], [⟨3⟩, (⟨4⟩ : Lit)]], Store.Proper c := by decide
  obtain ⟨s, f, leads, known, cnf, clauses⟩ :=
    Store.initial_wellFormed.exists_cnf (by decide) (by decide) proper
  obtain ⟨p, added, _⟩ := Stepper.add_fresh {} clauses
  have holds : Stepper.Holds {} s f p := .given .fresh added
  have buildable : Delivers (alongOrder s f [⟨1⟩]) (Clausal s f) :=
    alongOrder_delivers leads.wellFormed known cnf (Store.compound_of_clauses clauses)
  obtain ⟨c, built, _⟩ := buildable
  obtain ⟨t, run, _, _, reports⟩ :=
    place_reports leads known cnf (alongOrder_gathers leads.wellFormed built) holds
  have root := reports t t.self_subtree
  refine ⟨s, f, p, c, t, clauses, holds, built, run, root.read, fun i => ?_⟩
  rw [p.value_eq, root.vars]
  simp

end Dtree

end ModelCounting
