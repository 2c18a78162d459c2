import ModelCounting.Proofs.Composition
import ModelCounting.Proofs.Elimination
import ModelCounting.Proofs.Search.Naming

/-!
Separators along a min-fill order are narrow. While a tree is composed along the order, a variable that
was passed is in one tree only, and the variables of a tree that are still to come are joined with each
other in what the elimination game has left of the graph. So trees that are composed at a variable
share no more than the variable and its neighbours, and neither do the halves of any composition.
-/

namespace ModelCounting

namespace Dtree

open InteractionGraph

variable {s : Store} {f : Formula} {t : ClauseTree} {trees trees' : List ClauseTree}
  {G : SimpleGraph Var} {gone order : List Var} {v : Var} {w : Nat}

/-! Narrow trees. -/

def varSet (t : ClauseTree) : Finset Var := t.extent.vars.toFinset

theorem mem_varSet : v ∈ t.varSet ↔ v ∈ t.extent.vars := List.mem_toFinset

theorem mem_varSet_join {left right : ClauseTree} :
    v ∈ (join left right).varSet ↔ v ∈ left.varSet ∨ v ∈ right.varSet := by
  rw [mem_varSet, mem_varSet, mem_varSet]
  exact mem_mergeVars _ _

def Narrow (w : Nat) : ClauseTree → Prop
  | .leaf _ => True
  | .node _ left right => (left.varSet ∩ right.varSet).card ≤ w ∧ left.Narrow w ∧ right.Narrow w

/-- Trees that share variables of a small set only are composed to a narrow tree. -/
theorem compose_narrow {K : Finset Var} (small : K.card ≤ w)
    (sharing : trees.Pairwise fun t u => ∀ v, v ∈ t.varSet → v ∈ u.varSet → v ∈ K)
    (each : ∀ t ∈ trees, t.Narrow w) (run : compose trees = .ok t) :
    (∀ v, v ∈ t.varSet ↔ ∃ u ∈ trees, v ∈ u.varSet) ∧ t.Narrow w := by
  revert sharing each
  apply compose_induction _ _ run
  · intro t _ each
    exact ⟨fun v => by simp, each t (List.mem_singleton_self t)⟩
  · intro ts us l r first second sharing each
    obtain ⟨sharing, sharing', across⟩ := List.pairwise_append.mp sharing
    rw [List.forall_mem_append] at each
    obtain ⟨varsl, narrowl⟩ := first sharing each.1
    obtain ⟨varsr, narrowr⟩ := second sharing' each.2
    refine ⟨fun v => ?_, ?_, narrowl, narrowr⟩
    · rw [mem_varSet_join, varsl, varsr]
      simp only [List.mem_append, or_and_right, exists_or]
    · have inside : l.varSet ∩ r.varSet ⊆ K := by
        intro v both
        obtain ⟨left, right⟩ := Finset.mem_inter.mp both
        obtain ⟨a, ha, left⟩ := (varsl v).mp left
        obtain ⟨b, hb, right⟩ := (varsr v).mp right
        exact across a ha b hb v left right
      exact (Finset.card_le_card inside).trans small

/-! Passing variables. -/

theorem takeOut_finite (finite : ∀ v, (G.neighborSet v).Finite) (v x : Var) :
    ((takeOut G v).neighborSet x).Finite := by
  apply ((finite x).union (finite v)).subset
  rintro y ⟨_, _, _, joined | ⟨_, joined⟩⟩
  · exact .inl joined
  · exact .inr joined

/-- The trees when some variables were passed: each of these is in one tree at most, and the others of
a tree are joined with each other. -/
structure Cleared (w : Nat) (G : SimpleGraph Var) (gone : List Var) (trees : List ClauseTree) :
    Prop where
  finite : ∀ v, (G.neighborSet v).Finite
  apart : trees.Pairwise fun t u => ∀ v ∈ gone, v ∈ t.varSet → v ∉ u.varSet
  clique : ∀ t ∈ trees, ∀ x ∈ t.varSet, ∀ y ∈ t.varSet, x ∉ gone → y ∉ gone → x ≠ y → G.Adj x y
  narrow : ∀ t ∈ trees, t.Narrow w

theorem Cleared.kept (cleared : Cleared w G gone trees) (member : t ∈ trees) {x y : Var}
    (hx : x ∈ t.varSet) (hy : y ∈ t.varSet) (left : x ∉ v :: gone) (left' : y ∉ v :: gone)
    (other : x ≠ y) : (takeOut G v).Adj x y := by
  rw [List.mem_cons, not_or] at left left'
  exact ⟨other, left.1, left'.1, .inl (cleared.clique t member x hx y hy left.2 left'.2 other)⟩

/-- Trees that have a variable share it and its neighbours at most, so they are composed to a narrow
tree, and its other variables are joined with each other when the variable is taken out. -/
theorem Cleared.composed (cleared : Cleared w G gone trees) (fresh : v ∉ gone)
    (bounded : degree G v < w) {ts : List ClauseTree} (part : ts.Sublist trees)
    (mentions : ∀ u ∈ ts, v ∈ u.varSet) (run : compose ts = .ok t) :
    (∀ x, x ∈ t.varSet ↔ ∃ u ∈ ts, x ∈ u.varSet) ∧ t.Narrow w ∧
      ∀ x ∈ t.varSet, ∀ y ∈ t.varSet, x ∉ v :: gone → y ∉ v :: gone → x ≠ y →
        (takeOut G v).Adj x y := by
  have around : ∀ u ∈ ts, ∀ x ∈ u.varSet, x ∉ gone → x ≠ v → G.Adj v x :=
    fun u member x inside left other =>
      cleared.clique u (part.subset member) v (mentions u member) x inside fresh left other.symm
  have small : (insert v (cleared.finite v).toFinset).card ≤ w := by
    have size : degree G v = (cleared.finite v).toFinset.card := Set.ncard_eq_toFinset_card _ _
    have := Finset.card_insert_le v (cleared.finite v).toFinset
    omega
  have sharing : ts.Pairwise fun t u =>
      ∀ x, x ∈ t.varSet → x ∈ u.varSet → x ∈ insert v (cleared.finite v).toFinset := by
    apply (cleared.apart.sublist part).imp_of_mem
    intro t u ht _ apart x inside inside'
    rw [Finset.mem_insert, Set.Finite.mem_toFinset, SimpleGraph.mem_neighborSet, or_iff_not_imp_left]
    exact around t ht x inside fun passed => apart x passed inside inside'
  obtain ⟨vars, narrow⟩ := compose_narrow small sharing
    (fun u member => cleared.narrow u (part.subset member)) run
  refine ⟨vars, narrow, fun x hx y hy left left' other => ?_⟩
  rw [List.mem_cons, not_or] at left left'
  obtain ⟨a, ha, hx⟩ := (vars x).mp hx
  obtain ⟨b, hb, hy⟩ := (vars y).mp hy
  exact ⟨other, left.1, left'.1, .inr ⟨around a ha x hx left.2 left.1, around b hb y hy left'.2 left'.1⟩⟩

/-- Passing one more variable: the trees that have it become one. -/
theorem Cleared.step (cleared : Cleared w G gone trees) (fresh : v ∉ gone)
    (bounded : degree G v < w) (run : gather trees v = .ok trees') :
    Cleared w (takeOut G v) (v :: gone) trees' := by
  rcases gather_cases run with ⟨absent, rfl⟩ | ⟨t, composed, rfl⟩
  · refine ⟨takeOut_finite cleared.finite v, ?_,
      fun u member x hx y hy => cleared.kept member hx hy, cleared.narrow⟩
    apply cleared.apart.imp_of_mem
    intro t u ht hu apart x passed
    rcases List.mem_cons.mp passed with rfl | passed
    · exact fun inside => absurd (mem_varSet.mp inside) (absent t ht)
    · exact apart x passed
  · have mentions : ∀ u ∈ trees.filter (fun u => u.extent.vars.contains v), v ∈ u.varSet :=
      fun u member => mem_varSet.mpr (by simpa using (List.mem_filter.mp member).2)
    have silent : ∀ u ∈ trees.filter (fun u => !u.extent.vars.contains v), u ∈ trees ∧ v ∉ u.varSet := by
      intro u member
      obtain ⟨member, silent⟩ := List.mem_filter.mp member
      exact ⟨member, fun inside => by simp [mem_varSet.mp inside] at silent⟩
    -- sharing is symmetric, so it may be read off the trees in the order in which they were parted
    have parted := List.filter_append_perm (fun u : ClauseTree => u.extent.vars.contains v) trees
    obtain ⟨_, apart, across⟩ := List.pairwise_append.mp
      ((parted.pairwise_iff fun apart x passed inside inside' => apart x passed inside' inside).mpr
        cleared.apart)
    obtain ⟨vars, narrow, clique⟩ := cleared.composed fresh bounded List.filter_sublist mentions composed
    constructor
    case finite => exact takeOut_finite cleared.finite v
    case apart =>
      apply List.pairwise_append.mpr ⟨?_, List.pairwise_singleton _ _, ?_⟩
      · apply apart.imp_of_mem
        intro t u ht _ apart x passed
        rcases List.mem_cons.mp passed with rfl | passed
        · exact fun inside => absurd inside (silent t ht).2
        · exact apart x passed
      · intro u member t' last x passed inside inside'
        rw [List.mem_singleton.mp last, vars] at inside'
        obtain ⟨m, mentions, inside'⟩ := inside'
        rcases List.mem_cons.mp passed with rfl | passed
        · exact (silent u member).2 inside
        · exact across m mentions u member x passed inside' inside
    case clique =>
      rw [List.forall_mem_append, List.forall_mem_singleton]
      exact ⟨fun u member x hx y hy => cleared.kept (silent u member).1 hx hy, clique⟩
    case narrow =>
      rw [List.forall_mem_append, List.forall_mem_singleton]
      exact ⟨fun u member => cleared.narrow u (silent u member).1, narrow⟩

/-- Along an order, trees are kept clear of the variables passed, in the elimination game's graph. -/
theorem Cleared.run (cleared : Cleared w G gone trees) (distinct : order.Nodup)
    (fresh : ∀ v ∈ order, v ∉ gone) (bounded : ∀ before v after, order = before ++ v :: after →
      degree (before.foldl takeOut G) v < w) (run : order.foldlM gather trees = .ok trees') :
    ∃ G', Cleared w G' (order.reverse ++ gone) trees' := by
  induction order generalizing G gone trees with
  | nil =>
    cases run
    exact ⟨G, cleared⟩
  | cons v order ih =>
    obtain ⟨trees₁, first, rest⟩ := bind_ok.mp run
    rw [List.nodup_cons] at distinct
    rw [List.forall_mem_cons] at fresh
    rw [List.reverse_cons, List.append_assoc]
    apply ih (cleared.step fresh.1 (bounded [] v order rfl) first) distinct.2 _ _ rest
    · intro u later passed
      rcases List.mem_cons.mp passed with rfl | passed
      · exact distinct.1 later
      · exact fresh.2 u later passed
    · intro before u after split
      exact bounded (v :: before) u after (congrArg (v :: ·) split)

/-- The clauses themselves are clear of nothing yet. -/
theorem Stages.cleared {cs : List (List Lit)} {leaves : List ClauseLeaf}
    (stages : Stages s f order leaves trees t) (wf : s.WellFormed) (known : f ∈ s)
    (read : s.clauses f = .ok cs) (w : Nat) : Cleared w (primal cs) [] (leaves.map Dtree.leaf) := by
  constructor
  case finite =>
    intro v
    apply (s.vars f).toFinset.finite_toSet.subset
    rintro u ⟨_, c, member, _, l, literal, rfl⟩
    rw [SetLike.mem_coe, List.mem_toFinset]
    exact ((wf.clauses_ok known read).2 _).mpr ⟨c, member, l, literal, rfl⟩
  case apart =>
    apply List.pairwise_of_forall
    intro t u v passed
    cases passed
  case clique =>
    intro u member x hx y hy _ _ other
    have describes := (stages.leaf_described member).describes
    obtain ⟨l, inside, rfl⟩ := List.mem_map.mp member
    have clause : l.lits ∈ cs := by
      have listed := List.mem_map_of_mem (f := fun l => (l.lits, l.id)) inside
      rw [stages.lits_ids wf known read] at listed
      exact (List.mem_zipIdx listed).2.2 ▸ List.getElem_mem _
    have literal (v : Var) (member : v ∈ (leaf l : ClauseTree).varSet) : ∃ m ∈ l.lits, m.var = v := by
      obtain ⟨l', alone, literal⟩ := (describes.mem_vars v).mp (mem_varSet.mp member)
      rwa [List.mem_singleton.mp alone] at literal
    exact ⟨other, l.lits, clause, literal x hx, literal y hy⟩
  case narrow =>
    intro u member
    obtain ⟨l, _, rfl⟩ := List.mem_map.mp member
    trivial

theorem Stages.vars_subset {leaves : List ClauseLeaf} (stages : Stages s f order leaves trees t)
    (clausal : t.Clausal s f) :
    ∀ u ∈ trees, ∀ v ∈ u.varSet, v ∈ s.vars f := by
  apply foldlM_ok (fun trees : List ClauseTree => ∀ u ∈ trees, ∀ v ∈ u.varSet, v ∈ s.vars f) _ _
    stages.gathered
  · intro v _ trees trees' inside run
    apply gather_keeps _ inside run
    intro l r first second v member
    rcases mem_varSet_join.mp member with member | member
    · exact first v member
    · exact second v member
  · intro u member v inside
    obtain ⟨l, literal, m, here, rfl⟩ :=
      ((stages.leaf_described member).describes.mem_vars v).mp (mem_varSet.mp inside)
    obtain ⟨l', listed, rfl⟩ := List.mem_map.mp member
    rw [List.mem_singleton.mp literal] at here
    exact clausal.vars l' (stages.leaves_perm.mem_iff.mpr listed) m here

/-- A min-fill order is one of the elimination game, and its tree is narrow. -/
theorem minFill_narrow {cs : List (List Lit)} (wf : s.WellFormed) (known : f ∈ s)
    (cnf : s.isCnf f = true) (compound : s.isAtomic f = false) (read : s.clauses f = .ok cs) :
    Delivers (minFill s f) fun x => MinFill (primal cs) (s.vars f) x.2 ∧ x.1.Described ∧
      x.1.Clausal s f ∧ x.1.Narrow (x.2.width + 1) := by
  apply (ofCnf_delivers wf known read).bind
  rintro g _ ⟨_, _, game⟩
  apply (alongOrder_delivers wf known cnf compound).bind
  intro t run clausal
  obtain ⟨leaves, trees, stages⟩ := alongOrder_stages wf run
  have distinct := game.perm.nodup_iff.mpr (wf.nodup_vars known)
  obtain ⟨G, cleared⟩ := (stages.cleared wf known read (g.minFill.width + 1)).run distinct
    (fun _ _ passed => nomatch passed)
    (fun before v after split => Nat.lt_succ_of_le (game.degree_le before v after split)) stages.gathered
  -- Every variable was passed, so the trees that are left share none.
  have all : ∀ u ∈ trees, ∀ v ∈ u.varSet, v ∈ g.minFill.order.reverse ++ [] := by
    intro u member v inside
    rw [List.append_nil, List.mem_reverse, game.perm.mem_iff]
    exact stages.vars_subset clausal u member v inside
  have sharing : trees.Pairwise fun t u => ∀ v, v ∈ t.varSet → v ∈ u.varSet → v ∈ (∅ : Finset Var) :=
    cleared.apart.imp_of_mem fun ht _ apart v inside inside' =>
      absurd inside' (apart v (all _ ht v inside) inside)
  have narrow := (compose_narrow (Nat.zero_le _) sharing cleared.narrow stages.composed).2
  exact .pure ⟨game, stages.described, clausal, narrow⟩

/-! Placed trees. -/

/-- The variables that both subtrees have; none at a leaf. -/
def separator : PlacedTree → List Nat
  | .leaf _ => []
  | .node d _ _ => d.separator

def Numbers (p : Stepper) (t : ClauseTree) (t' : PlacedTree) : Prop :=
  ∀ i, t'.vars.contains i = true → ∃ v ∈ t.varSet, p.numbers[v]? = some ⟨i⟩

theorem Numbers.length_inter {p : Stepper} {left right : ClauseTree} {left' right' : PlacedTree}
    (apart : p.Apart) (first : Numbers p left left') (second : Numbers p right right') :
    (left'.vars.inter right'.vars).toList.length ≤ (left.varSet ∩ right.varSet).card := by
  let number (v : Var) : Nat := (p.numbers[v]?.getD default).id
  have inside : (left'.vars.inter right'.vars).toList.toFinset ⊆
      (left.varSet ∩ right.varSet).image number := by
    intro i member
    rw [List.mem_toFinset, IndexSet.mem_toList, IndexSet.contains_inter, Bool.and_eq_true] at member
    obtain ⟨v, here, numbered⟩ := first i member.1
    obtain ⟨u, there, numbered'⟩ := second i member.2
    obtain rfl := apart v u _ numbered numbered'
    have same : number v = i := by
      change (p.numbers[v]?.getD default).id = i
      rw [numbered]
      rfl
    exact Finset.mem_image.mpr ⟨v, Finset.mem_inter.mpr ⟨here, there⟩, same⟩
  have distinct := (IndexSet.toList_spec (left'.vars.inter right'.vars)).1.imp Nat.ne_of_lt
  rw [← List.toFinset_card_of_nodup distinct]
  exact (Finset.card_le_card inside).trans Finset.card_image_le

theorem placeLeaf_numbers {p : Stepper} {l : ClauseLeaf} (described : (leaf l : ClauseTree).Described)
    (known : ∀ m ∈ l.lits, p.numbers[m.var]? ≠ none) :
    Delivers (PlacedLeaf.place p l) fun l' => Numbers p (.leaf l) (.leaf l') := by
  unfold PlacedLeaf.place
  apply (literals_delivers (fun m => .unplacedVariable m.var l.id) known).bind
  rintro lits - placed
  apply Delivers.pure
  intro i inside
  change (IndexSet.ofList (lits.map (·.var.id))).contains i = true at inside
  rw [IndexSet.contains_ofList] at inside
  obtain ⟨m', member, rfl⟩ := List.mem_map.mp inside
  obtain ⟨m, literal, j, numbered, rfl⟩ := forall₂_mem_right placed m' member
  have here : m.var ∈ (leaf l : ClauseTree).varSet := mem_varSet.mpr
    ((described.describes.mem_vars m.var).mpr ⟨l, List.mem_singleton_self l, m, literal, rfl⟩)
  rw [Lit.var_of]
  exact ⟨m.var, here, numbered⟩

theorem place_narrow {p : Stepper} (apart : p.Apart) (described : t.Described) (narrow : t.Narrow w)
    (known : ∀ l ∈ t.leaves, ∀ m ∈ l.lits, p.numbers[m.var]? ≠ none) :
    Delivers (place p t) fun t' => Numbers p t t' ∧ t'.widest ≤ w ∧
      ∀ u ∈ t'.subtrees, u.separator.length ≤ w := by
  induction t with
  | leaf l =>
    apply (placeLeaf_numbers described fun m literal => known l (List.mem_singleton_self l) m literal).bind
    intro l' _ numbers
    apply Delivers.pure
    refine ⟨numbers, Nat.zero_le w, fun u member => ?_⟩
    rw [List.mem_singleton.mp member]
    exact Nat.zero_le w
  | node d left right ihl ihr =>
    obtain ⟨describes, describedl, describedr⟩ := forall_subtrees_node.mp described
    obtain ⟨small, narrowl, narrowr⟩ := narrow
    have vars (v : Var) : v ∈ (node d left right).varSet ↔ v ∈ left.varSet ∨ v ∈ right.varSet := by
      have l := describedl left left.self_subtree
      have r := describedr right right.self_subtree
      rw [mem_varSet, mem_varSet, mem_varSet, describes.mem_vars, l.mem_vars, r.mem_vars]
      simp only [leaves, List.mem_append, or_and_right, exists_or]
    apply (ihl describedl narrowl fun l member => known l (List.mem_append_left _ member)).bind
    rintro left' - ⟨numbersl, widestl, sepsl⟩
    apply (ihr describedr narrowr fun l member => known l (List.mem_append_right _ member)).bind
    rintro right' - ⟨numbersr, widestr, sepsr⟩
    have sep := (numbersl.length_inter apart numbersr).trans small
    apply Delivers.pure
    refine ⟨fun i inside => ?_, ?_, forall_subtrees_node.mpr ⟨sep, sepsl, sepsr⟩⟩
    · change (left'.vars.union right'.vars).contains i = true at inside
      rw [IndexSet.contains_union, Bool.or_eq_true] at inside
      rcases inside with inside | inside
      · obtain ⟨v, here, numbered⟩ := numbersl i inside
        exact ⟨v, (vars v).mpr (.inl here), numbered⟩
      · obtain ⟨v, here, numbered⟩ := numbersr i inside
        exact ⟨v, (vars v).mpr (.inr here), numbered⟩
    · exact Nat.max_le.mpr ⟨Nat.max_le.mpr ⟨sep, widestl⟩, widestr⟩

/-- Put into the variables of a solver that holds the conjunction, the tree along a min-fill order has
no separator with more variables than one above the width of the order, the largest degree at which the
elimination game takes out a variable. -/
theorem minFill_separators (leads : Store.Leads Store.initial s) (known : f ∈ s)
    (cnf : s.isCnf f = true) (compound : s.isAtomic f = false) :
    ∃ cs, s.clauses f = .ok cs ∧ Delivers (minFill s f) fun x =>
      MinFill (primal cs) (s.vars f) x.2 ∧ ∀ settings p, Stepper.Holds settings s f p →
        Delivers (place p x.1) fun t => t.widest ≤ x.2.width + 1 ∧
          ∀ u ∈ t.subtrees, u.separator.length ≤ x.2.width + 1 := by
  have wf := leads.wellFormed
  obtain ⟨cs, read, _⟩ := Store.clauses_delivers cnf
  obtain ⟨⟨t, e⟩, run, game, described, clausal, narrow⟩ := minFill_narrow wf known cnf compound read
  refine ⟨cs, read, (t, e), run, game, fun settings p holds => ?_⟩
  obtain ⟨_, apart, numbered⟩ := holds.numbers read
  have placed : ∀ l ∈ t.leaves, ∀ m ∈ l.lits, p.numbers[m.var]? ≠ none := by
    intro l member m literal
    obtain ⟨c, listed, m', literal', same⟩ :=
      ((wf.clauses_ok known read).2 _).mp (clausal.vars l member m literal)
    rw [← same]
    exact numbered c listed m' literal'
  exact (place_narrow apart described narrow placed).mono fun _ narrow => narrow.2

/-- A cycle of four variables, in a solver to which nothing else was added. -/
theorem minFill_separators_cycle : ∃ s f p t e t',
    s.clauses f = .ok [[⟨0⟩, ⟨2⟩], [⟨2⟩, ⟨4⟩], [⟨4⟩, ⟨6⟩], [⟨6⟩, ⟨0⟩]] ∧ Stepper.Holds {} s f p ∧
      minFill s f = .ok (t, e) ∧ place p t = .ok t' ∧ t'.widest ≤ e.width + 1 := by
  have proper : ∀ c ∈ [[⟨0⟩, ⟨2⟩], [⟨2⟩, ⟨4⟩], [⟨4⟩, ⟨6⟩], [⟨6⟩, (⟨0⟩ : Lit)]], Store.Proper c := by decide
  obtain ⟨s, f, leads, known, cnf, clauses⟩ :=
    Store.initial_wellFormed.exists_cnf (by decide) (by decide) proper
  obtain ⟨p, added, _⟩ := Stepper.add_fresh {} clauses
  have holds : Stepper.Holds {} s f p := .given .fresh added
  obtain ⟨_, _, ⟨t, e⟩, run, _, separate⟩ :=
    minFill_separators leads known cnf (Store.compound_of_clauses clauses)
  obtain ⟨t', placed, widest, _⟩ := separate {} p holds
  exact ⟨s, f, p, t, e, t', clauses, holds, run, placed, widest⟩

end Dtree

end ModelCounting
