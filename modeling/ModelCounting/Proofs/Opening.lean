import ModelCounting.Proofs.Leaf
import ModelCounting.Proofs.Nesting
import ModelCounting.Proofs.Search.Deciding
import ModelCounting.Proofs.Simplification
import ModelCounting.Proofs.Solution

/-!
Where the recursion of a compilation starts. The clauses that are no literals are the leaves of the tree,
in the variables of the solver. The solver covers them, and what it has in store comes from them: a stored
clause is one of theirs, less literals that are false at the root.
-/

namespace ModelCounting

namespace Stepper

variable {Γ : List (List Lit)} {p q : Stepper} {t : PlacedTree}

def Stocks (t : PlacedTree) (p : Stepper) : Prop :=
  ∀ r ∈ p.core.added, r.slot < p.core.engine.bank.slots.size ∧
    ∃ l ∈ t.leaves, (∀ m ∈ p.core.engine.bank.lits r, m ∈ l.lits) ∧
      ∀ m ∈ l.lits, m ∈ p.core.engine.bank.lits r ∨
        (-m ∈ p.core.trail.lits ∧ p.core.trail.level m.var = 0)

theorem Spares.added_eq (spares : p.Spares q) : q.core.added = p.core.added := by
  rw [spares.core.only]

theorem Stocks.abides (stocks : Stocks t p) (abides : p.Abides q) : Stocks t q := by
  intro r added
  obtain ⟨slot, l, leaf, within, rest⟩ := stocks r (abides.spares.added_eq ▸ added)
  have perm := abides.spares.core.perm r slot
  refine ⟨Nat.lt_of_lt_of_le slot abides.spares.core.stored, l, leaf,
    fun m member => within m (perm.mem_iff.mp member), fun m member => ?_⟩
  refine (rest m member).imp perm.mem_iff.mpr fun ⟨fixed, root⟩ => ?_
  rw [← Lit.var_neg] at root ⊢
  exact abides.fixed (-m) fixed root

theorem Abides.covered {ls : List Lit} (abides : p.Abides q)
    (slots : ∀ r ∈ p.core.added, r.slot < p.core.engine.bank.slots.size)
    (covered : p.core.Covered ls) : q.core.Covered ls := by
  refine covered.mono (Nat.le_of_eq abides.count.symm) abides.fixed fun r added => ?_
  exact ⟨abides.spares.added_eq ▸ added, fun l member =>
    (abides.spares.core.perm r (slots r added)).mem_iff.mp member⟩

theorem Holding.started (holding : p.Holding Γ) (run : p.start = .ok (true, q)) :
    q = { p with unreported := true } ∧ ∃ Δ, p.core.Distils Δ ∧ Rewritten p.Spells Γ Δ ∧
      Rewritten (flip p.Spells) Δ Γ := by
  obtain ⟨Δ, core, forth, back⟩ := holding.held
  unfold Stepper.start at run
  simp only at run
  split at run
  · rename_i ok
    have distils := core.gathers.resolve_left (by simp [ok])
    have quiet : p.core.propagate = .ok (none, p.core) := distils.toSettled.propagate
    rw [quiet] at run
    cases run
    exact ⟨rfl, Δ, distils, forth, back⟩
  · cases run

theorem Given.named (given : p.Given) (apart : p.Apart) (i : Nat) (v : Var) :
    p.names[i]? = some v ↔ p.numbers[v]? = some ⟨i⟩ := by
  refine ⟨given.paired i v, fun number => ?_⟩
  have inside : i < p.names.size := given.count ▸ given.inside number
  have here := Array.getElem?_eq_getElem inside
  rw [here, apart _ _ _ (given.paired i _ here) number]

/-- The formula values, as values of the solver's variables. -/
def valuation (p : Stepper) (value : Var → Bool) (i : Var) : Bool := value (p.names.getD i.id default)

theorem Spells.holds_iff {l m : Lit} {value : Var → Bool} (spells : p.Spells l m)
    (named : ∀ (i : Nat) (v : Var), p.names[i]? = some v ↔ p.numbers[v]? = some ⟨i⟩) :
    m.holds (p.valuation value) = l.holds value := by
  rw [spells_iff] at spells
  have name := (named m.var.id l.var).mpr spells.1
  rw [Lit.holds, Lit.holds, valuation, Array.getD_eq_getD_getElem?, name, Option.getD_some, spells.2]

end Stepper

theorem Solver.Covered.congr {s : Solver} {c d : List Lit} (covered : s.Covered c)
    (same : ∀ l, l ∈ c ↔ l ∈ d) : s.Covered d := by
  refine covered.imp ?_ (Or.imp ?_ ?_)
  · rintro ⟨l, member, opposite, inside⟩
    exact ⟨l, (same l).mp member, (same (-l)).mp opposite, inside⟩
  · rintro ⟨l, member, fixed⟩
    exact ⟨l, (same l).mp member, fixed⟩
  · rintro ⟨r, added, within⟩
    exact ⟨r, added, fun l member => (same l).mp (within l member)⟩

/-! Calls. -/

namespace Compilation.Call

/-- A call from which a compilation starts: nothing is found yet, no level is open, and the solver has
the clauses of the tree. They have a model. -/
structure Opens (Γ : List (List Lit)) (r : Call) : Prop where
  safe : r.Safe Γ
  sound : r.state.solver.Sound
  root : r.state.solver.core.depth = 0
  wellFormed : r.state.store.WellFormed
  unfilled : ∀ key, r.state.cache.find? key = none
  model : ¬ Refuted Γ
  lists : ∀ u ∈ r.tree.subtrees, u.Lists
  distinct : (r.tree.leaves.map fun l => l.source.id).Nodup
  covers : ∀ l ∈ r.tree.leaves, r.state.solver.core.Covered l.lits
  stocks : Stepper.Stocks r.tree r.state.solver
  named : ∀ (i : Nat) (v : Var), r.state.solver.names[i]? = some v ↔ r.state.solver.numbers[v]? = some ⟨i⟩
  fits : r.state.solver.NamesIn Var.Fits
  literals : ∀ l ∈ r.tree.leaves,
    List.Forall₂ (fun m m' => r.state.solver.literal? m = some m') l.source.lits l.lits

end Compilation.Call

theorem Store.WellFormed.leaves_lits {s : Store} {f : Formula} {cs : List (List Lit)} {order : List Var}
    {d : ClauseTree} (wf : s.WellFormed) (known : f ∈ s) (read : s.clauses f = .ok cs)
    (built : Dtree.alongOrder s f order = .ok d) : (d.leaves.map fun l => l.lits).Perm cs := by
  obtain ⟨leaves, trees, stages⟩ := Dtree.alongOrder_stages wf built
  rw [← List.zipIdx_map_fst 0 cs, ← stages.lits_ids wf known read, List.map_map]
  exact stages.leaves_perm.map fun l => l.lits

namespace Compiler

open Store Compilation

variable {s s' : Store} {f : Formula} {settings : Settings} {m : Compiler} {p : Stepper} {d : ClauseTree}
  {e : Elimination} {t : PlacedTree} {handler : Handler} {a : Call}

theorem splits_of_prepared (wf : s.WellFormed) (known : f ∈ s) (prepared : prepare s f settings = .ok (m, s')) :
    m.Splits s f s' := by
  obtain ⟨cnf, r, _, fixed, _⟩ := prepare_ok prepared
  obtain ⟨found, search, _⟩ := bind_ok.mp fixed
  cases found with
  | none =>
    have refuted := (wf.backbone_strives known cnf).answer search
    obtain ⟨rfl, falsum, units, nonUnits⟩ := prepare_refuted wf search prepared
    exact splits_refuted wf refuted falsum units nonUnits
  | some ls =>
    obtain ⟨s₂, s₃, simplified, separated⟩ := prepare_separated wf known cnf search prepared
    exact simplified.splits separated

theorem exists_model_of_tree (wf : s.WellFormed) (known : f ∈ s)
    (prepared : prepare s f settings = .ok (m, s')) (tree : Dtree.minFill s' m.nonUnits = .ok (d, e)) :
    ∃ value, s.eval value f = true := by
  obtain ⟨cnf, r, _, fixed, _⟩ := prepare_ok prepared
  obtain ⟨found, search, _⟩ := bind_ok.mp fixed
  cases found with
  | none =>
    obtain ⟨rfl, _, _, nonUnits⟩ := prepare_refuted wf search prepared
    have compound := minFill_compound tree
    rw [nonUnits, isAtomic, wf.node_verum] at compound
    cases compound
  | some ls => exact ((wf.backbone_strives known cnf).answer search).1

section Leaves

variable {s₂ s₃ : Store} {value : Var → Bool} {cs : List (List Lit)} {order : List Var}
  (simplified : m.Simplified s₂ s₃ s') (true_ : s₂.eval value m.cnf = true)
  (read : s₂.clauses m.cnf = .ok cs) (built : Dtree.alongOrder s' m.nonUnits order = .ok d)

include simplified true_ read built

theorem Simplified.leaf_mem {l : ClauseLeaf} (leaf : l ∈ d.leaves) : l.lits ∈ cs := by
  have wf := simplified.wellFormed
  obtain ⟨g, conjunct, made⟩ := Dtree.alongOrder_gathers simplified.joined.wellFormed built l leaf
  obtain ⟨_, _, lits, _⟩ := Dtree.ofClause_ok made
  obtain ⟨before, _⟩ := (simplified.conjuncts true_).2.mp conjunct
  have known := (wf.flatten_proper simplified.mem before).1
  obtain ⟨ls, here, _⟩ :=
    clauseLits_delivers ((wf.isCnf_iff simplified.mem).mp simplified.cnf g before)
  have there := (simplified.later.trans simplified.joined.later).clauseLits_again known here
  obtain rfl := Except.ok.inj (there.symm.trans lits)
  exact (wf.mem_clauses simplified.mem read).mpr ⟨g, before, here⟩

/-- Each clause of several literals has a leaf. -/
theorem Simplified.exists_leaf {c : List Lit} (listed : c ∈ cs) (wide : 2 ≤ c.length) :
    ∃ l ∈ d.leaves, l.lits = c := by
  have wf := simplified.wellFormed
  have wf' := simplified.joined.wellFormed
  obtain ⟨o, conjunct, lits⟩ := (wf.mem_clauses simplified.mem read).mp listed
  have known := (wf.flatten_proper simplified.mem conjunct).1
  have compound : s₂.isAtomic o = false := by
    by_contra atomic
    unfold isAtomic at atomic
    unfold clauseLits at lits
    cases shape : s₂.node o with
    | falsum | lit l =>
      rw [shape] at lits
      cases lits
      simp at wide
    | verum =>
      rw [shape] at lits
      exact notAClause_error lits
    | not g | and gs | or gs | implies g h | equiv g h => simp_all [Node.isAtomic]
  have conjunct' := (simplified.conjuncts true_).2.mpr ⟨conjunct, compound⟩
  have lits' := (simplified.later.trans simplified.joined.later).clauseLits_again known lits
  obtain ⟨cs', read', _⟩ := clauses_delivers simplified.isCnf
  have listed' : c ∈ cs' := (wf'.mem_clauses simplified.joined.mem read').mpr ⟨o, conjunct', lits'⟩
  exact List.mem_map.mp ((wf'.leaves_lits simplified.joined.mem read' built).mem_iff.mpr listed')

end Leaves

theorem placed_same {l : PlacedLeaf} {c : List Lit}
    (literals : List.Forall₂ (fun m m' => p.literal? m = some m') l.source.lits l.lits)
    (forth : ∀ m ∈ l.source.lits, ∃ m' ∈ c, p.Spells m m')
    (back : ∀ m' ∈ c, ∃ m ∈ l.source.lits, p.Spells m m') (m' : Lit) : m' ∈ c ↔ m' ∈ l.lits := by
  constructor
  · intro member
    obtain ⟨m, literal, spells⟩ := back m' member
    obtain ⟨k, placed, number⟩ := forall₂_mem_left literals m literal
    rwa [Option.some.inj (spells.symm.trans number)]
  · intro placed
    obtain ⟨m, literal, number⟩ := forall₂_mem_right literals m' placed
    obtain ⟨k, member, spells⟩ := forth m literal
    rwa [Option.some.inj (number.symm.trans spells)]

/-- What the solver has in store is what it was given of the leaves, less literals that are false. -/
theorem Simplified.stocks {s₂ s₃ : Store} {value : Var → Bool} {cs Δ : List (List Lit)} {order : List Var}
    (simplified : m.Simplified s₂ s₃ s') (true_ : s₂.eval value m.cnf = true)
    (read : s₂.clauses m.cnf = .ok cs) (built : Dtree.alongOrder s' m.nonUnits order = .ok d)
    (distils : m.solver.core.Distils Δ) (back : Rewritten (flip m.solver.Spells) Δ cs.reverse)
    (place : d.place { m.solver with unreported := true } = .ok t) :
    Stepper.Stocks t { m.solver with unreported := true } := by
  obtain ⟨whole, _, literals⟩ := Dtree.place_ok place
  intro r added
  have live : m.solver.core.Live r := .inl added
  have long := distils.engine.stored.long r live
  obtain ⟨c, inside, inside', dropped⟩ := distils.stored r live
  obtain ⟨c', listed, covered, back'⟩ := back c inside
  -- The two literals watched are two literals of the clause.
  have wide : 2 ≤ c'.length := by
    obtain ⟨k₁, member₁, spells₁⟩ :=
      covered _ (inside' _ (Engine.getD_mem (Nat.lt_trans Nat.zero_lt_one long)))
    obtain ⟨k₂, member₂, spells₂⟩ := covered _ (inside' _ (Engine.getD_mem long))
    have different : k₁ ≠ k₂ := by
      rintro rfl
      have same := Option.some.inj (spells₁.symm.trans spells₂)
      have := Engine.getD_inj (distils.engine.stored.nodup r live) (by omega) long same
      omega
    have pair : [k₁, k₂] ⊆ c' := by simp [member₁, member₂]
    exact (List.subperm_of_subset (by simpa using different) pair).length_le
  obtain ⟨l, leaf, rfl⟩ := simplified.exists_leaf true_ read built (List.mem_reverse.mp listed) wide
  rw [← whole, Dtree.leaves_unplaced] at leaf
  obtain ⟨l', leaf', rfl⟩ := List.mem_map.mp leaf
  have same := placed_same (literals l' leaf') back' covered
  refine ⟨ClauseBank.slot_lt (Nat.lt_trans Nat.zero_lt_one long), l', leaf',
    fun k member => (same k).mp (inside' k member), fun k literal => ?_⟩
  refine (dropped k ((same k).mpr literal)).imp_right fun derives => ?_
  have fixed : -k ∈ m.solver.core.trail.lits := distils.holds derives
  have level : m.solver.core.trail.level (-k).var ≤ m.solver.core.trail.depth :=
    distils.engine.trail.level_le_depth fixed
  rw [Lit.var_neg, show m.solver.core.trail.depth = 0 from distils.root] at level
  exact ⟨fixed, Nat.le_zero.mp level⟩

/-- The recursion in a compilation of prepared clauses starts from a call that has their tree, and the
clauses that its solver holds are the given ones in other variables. -/
theorem exists_opens (wf : s.WellFormed) (known : f ∈ s) (prepared : prepare s f settings = .ok (m, s'))
    (start : m.solver.start = .ok (true, p)) (tree : Dtree.minFill s' m.nonUnits = .ok (d, e))
    (place : d.place p = .ok t) (handler : Handler) : ∃ Γ,
      (∀ value, s.eval value f = true → Models (p.valuation value) Γ) ∧
        Call.Opens Γ ⟨nestingBound p t, t, 0, .first s' p t handler⟩ := by
  have ready := prepare_ready wf known prepared
  obtain ⟨value, model⟩ := exists_model_of_tree wf known prepared tree
  obtain ⟨s₂, s₃, simplified, added, means⟩ := prepare_equivalent wf known prepared
  have true_ : s₂.eval value m.cnf = true := (means value).trans model
  have driven : Stepper.Driven settings m.solver := .add .fresh added
  obtain ⟨cs, read, held⟩ := bind_ok.mp added
  have holding : m.solver.Holding cs.reverse := by
    have loop : Delivers (Stepper.addAll cs { core := { settings } }) (Stepper.Holding (cs.reverse ++ [])) :=
      .foldlM_seen Stepper.Holding (fun _ _ before c _ => before.addClause c) (.fresh settings)
    rw [List.append_nil] at loop
    exact loop.answer held
  obtain ⟨rfl, Δ, distils, forth, back⟩ := holding.started start
  have rest : m.solver.core.AtRest Δ := .inr ⟨distils.root, distils.toSettled⟩
  have calm := (ready.given.start_calm rest ready.fits).answer start rfl
  obtain ⟨sited, layered, distinct⟩ := ((ready.tree (minFill_compound tree) start).answer tree).answer place
  have named := ready.given.named holding.apart
  obtain ⟨_, _, ordered⟩ := bind_ok.mp tree
  obtain ⟨_, built, pair⟩ := bind_ok.mp ordered
  cases pair
  obtain ⟨whole, below, literals⟩ := Dtree.place_ok place
  -- A leaf has the literals of one of the clauses, in the variables of the solver.
  have spelled (l : PlacedLeaf) (leaf : l ∈ t.leaves) :
      ∃ c ∈ Δ, ∀ m', m' ∈ c ↔ m' ∈ l.lits := by
    have source : l.source ∈ t.unplaced.leaves := by
      rw [Dtree.leaves_unplaced]
      exact List.mem_map_of_mem leaf
    have listed := simplified.leaf_mem true_ read built (whole ▸ source)
    obtain ⟨c, inside, forth, back⟩ := forth _ (List.mem_reverse.mpr listed)
    exact ⟨c, inside, placed_same (literals l leaf) forth back⟩
  have numbered (l : ClauseLeaf) (leaf : l ∈ t.unplaced.leaves) (k : Lit) (literal : k ∈ l.lits) :
      m.solver.numbers[k.var]? ≠ none := by
    rw [Dtree.leaves_unplaced] at leaf
    obtain ⟨l', leaf', rfl⟩ := List.mem_map.mp leaf
    obtain ⟨k', _, number⟩ := forall₂_mem_left (literals l' leaf') k literal
    obtain ⟨i, here, _⟩ := Option.map_eq_some_iff.mp number
    exact fun none => Option.some_ne_none i (here.symm.trans none)
  have stocks : Stepper.Stocks t { m.solver with unreported := true } :=
    simplified.stocks true_ read built distils back place
  have models (value : Var → Bool) (model : s.eval value f = true) : Models (m.solver.valuation value) Δ := by
    intro c inside
    obtain ⟨d, listed, _, covered⟩ := back c inside
    rw [← means value, (simplified.wellFormed.clauses_ok simplified.mem read).1 value] at model
    obtain ⟨l, member, holds⟩ := model d (List.mem_reverse.mp listed)
    obtain ⟨l', member', spells⟩ := covered l member
    exact ⟨l', member', (spells.holds_iff named).trans holds⟩
  refine ⟨Δ, models, ready.first_safe start calm tree place handler, (driven.start start).sound, distils.root,
    ready.wellFormed, fun key => Std.TreeMap.getElem?_emptyc, fun refuted => refuted _ (models value model),
    fun u lower => ?_, distinct, fun l leaf => ?_, stocks, named, ready.fits, literals⟩
  · obtain ⟨c', inside, placed⟩ := below u lower
    have known' (l : ClauseLeaf) (leaf : l ∈ c'.leaves) :=
      numbered l (whole ▸ (Dtree.leaves_sublist inside).subset leaf)
    exact ((Dtree.place_delivers (p := { m.solver with unreported := true }) ready.given.inside
      known').answer placed).2.2
  · obtain ⟨c, inside, same⟩ := spelled l leaf
    exact (distils.covers c inside).congr same

end Compiler

end ModelCounting
