import ModelCounting.Proofs.Residual
import ModelCounting.Proofs.Returning
import ModelCounting.Proofs.Terms

/-!
The leaves of the tree that a compilation follows. Whatever is assigned when a leaf is reached, it is
compiled to a circuit over the undecided variables of its clause, which holds where the clause does. The
solver has numbers for the variables of the clause, and the name of such a number is the variable again.
-/

namespace ModelCounting

namespace Stepper

variable {p q : Stepper} {m m' : Lit}

/-- The value of a formula literal, undecided where its variable has no number. -/
def truth (p : Stepper) (m : Lit) : Truth := ((p.literal? m).map p.value).getD .undef

theorem truth_eq (number : p.literal? m = some m') : p.truth m = p.value m' := by
  rw [truth, number]
  rfl

/-- The formula variables have the values that the solver has for the literal, if it has one. -/
def Agrees (p : Stepper) (value : Var → Bool) (m : Lit) : Prop :=
  (p.truth m = .tru → m.holds value = true) ∧ (p.truth m = .fls → m.holds value = false)

def Renders (p : Stepper) (ms ms' : List Lit) : Prop :=
  List.Forall₂ (fun m m' => p.literal? m = some m' ∧ p.litOf m' = .ok m) ms ms'

theorem Given.litOf_eq (given : p.Given) (apart : p.Apart) (number : p.literal? m = some m') :
    p.litOf m' = .ok m := by
  obtain ⟨i, known, rfl⟩ := Option.map_eq_some_iff.mp number
  have inside : i.id < p.names.size := given.count ▸ given.inside known
  have here := Array.getElem?_eq_getElem inside
  have same := apart _ _ _ (given.paired i.id _ here) known
  simp only [litOf, nameOf, Lit.var_of, Lit.phase_of, here, bind_ok, pure_ok]
  exact ⟨_, rfl, by rw [same, Lit.of_var_phase]⟩

theorem Given.renders {ms ms' : List Lit} (given : p.Given) (apart : p.Apart)
    (names : q.names = p.names) (numbers : q.numbers = p.numbers)
    (literals : List.Forall₂ (fun m m' => p.literal? m = some m') ms ms') : q.Renders ms ms' := by
  refine literals.imp fun m m' number => ⟨?_, ?_⟩
  · simpa only [literal?, numberOf?, numbers] using number
  · simpa only [litOf, nameOf, names] using given.litOf_eq apart number

theorem Renders.undecided {ms ms' : List Lit} (renders : p.Renders ms ms') :
    List.Forall₂ (fun m' m => p.litOf m' = .ok m) (ms'.filter (p.value · = .undef))
      (ms.filter (p.truth · = .undef)) := by
  induction renders with
  | nil => exact .nil
  | cons head _ ih =>
    rw [List.filter_cons, List.filter_cons, truth_eq head.1]
    split
    · exact .cons head.2 ih
    · exact ih

end Stepper

namespace Compilation

open Store

variable {c : Compilation} {l : PlacedLeaf}

/-- What a clause is compiled to under the values that the solver has. -/
structure LeafCircuit (c : Compilation) (l : ClauseLeaf) (x : Formula × Compilation) : Prop where
  /-- The leaf has the literals of its clause. -/
  read : x.2.store.clauseLits l.clause = .ok l.lits
  grows : Grows c.store x.2.store
  /-- Nothing else changes. -/
  state_eq : x.2 = { c with store := x.2.store }
  mem : x.1 ∈ x.2.store
  isNnf : x.2.store.isNnf x.1 = true
  deterministic : x.2.store.Deterministic x.1
  decomposable : x.2.store.Decomposable x.1
  vars_undecided : ∀ v ∈ x.2.store.vars x.1, ∃ m ∈ l.lits, m.var = v ∧ c.solver.truth m = .undef
  satisfied : (∃ m ∈ l.lits, c.solver.truth m = .tru) → x.1 = .verum
  falsified : (∀ m ∈ l.lits, c.solver.truth m = .fls) → x.1 = .falsum
  undecided : (∀ m ∈ l.lits, c.solver.truth m ≠ .tru) → ∀ value,
    x.2.store.eval value x.1 = (l.lits.filter (c.solver.truth · = .undef)).any (·.holds value)
  equivalent : ∀ value, (∀ m ∈ l.lits, c.solver.Agrees value m) →
    x.2.store.eval value x.1 = x.2.store.eval value l.clause

def Spells (s : Store) (l : ClauseLeaf) : Prop := l.clause ∈ s ∧ s.clauseLits l.clause = .ok l.lits

theorem Spells.later {s s' : Store} {l : ClauseLeaf} (spells : Spells s l) (later : Extends s s') :
    Spells s' l :=
  ⟨later.mem spells.1, later.clauseLits_again spells.1 spells.2⟩

theorem LeafCircuit.of_satisfied {l : ClauseLeaf} {m : Lit} {s : Store} (grows : Grows c.store s)
    (wf : s.WellFormed) (spells : Spells s l) (literal : m ∈ l.lits) (true_ : c.solver.truth m = .tru) :
    LeafCircuit c l (.verum, { c with store := s }) where
  read := spells.2
  grows := grows
  state_eq := rfl
  mem := wf.verum_mem
  isNnf := wf.isNnf_constant rfl
  deterministic := wf.deterministic_constant rfl
  decomposable := wf.decomposable_constant rfl
  vars_undecided := by simp [wf.vars_constant (f := .verum) rfl]
  satisfied _ := rfl
  falsified all := by cases true_.symm.trans (all m literal)
  undecided none := absurd true_ (none m literal)
  equivalent value agrees := by
    rw [wf.eval_verum]
    have meaning := (wf.clauseLits_ok spells.1 spells.2).1 value
    exact (meaning.mpr ⟨m, literal, (agrees m literal).1 true_⟩).symm

/-- A clause without a true literal is the disjunction of its undecided ones. -/
theorem LeafCircuit.of_oneOf {l : ClauseLeaf} {f : Formula} {s : Store} (grows : Grows c.store s)
    (wf : s.WellFormed) (spells : Spells s l) (unsatisfied : ∀ m ∈ l.lits, c.solver.truth m ≠ .tru)
    (oneOf : s.OneOf (l.lits.filter (c.solver.truth · = .undef)) f) :
    LeafCircuit c l (f, { c with store := s }) where
  read := spells.2
  grows := grows
  state_eq := rfl
  mem := oneOf.mem
  isNnf := oneOf.isNnf
  deterministic := oneOf.deterministic
  decomposable := oneOf.decomposable
  vars_undecided v mentioned := by
    obtain ⟨m, member, same⟩ := oneOf.vars_sub v mentioned
    obtain ⟨literal, free⟩ := List.mem_filter.mp member
    exact ⟨m, literal, same, of_decide_eq_true free⟩
  satisfied := by
    rintro ⟨m, literal, true_⟩
    exact absurd true_ (unsatisfied m literal)
  falsified all := by
    refine oneOf.falsum (List.filter_eq_nil_iff.mpr fun m literal => ?_)
    simp [all m literal]
  undecided _ := oneOf.eval_eq
  equivalent value agrees := by
    rw [oneOf.eval_eq, Bool.eq_iff_iff, (wf.clauseLits_ok spells.1 spells.2).1 value,
      List.any_eq_true]
    constructor
    · rintro ⟨m, member, holds⟩
      exact ⟨m, List.mem_of_mem_filter member, holds⟩
    · rintro ⟨m, literal, holds⟩
      refine ⟨m, List.mem_filter.mpr ⟨literal, decide_eq_true ?_⟩, holds⟩
      cases free : c.solver.truth m with
      | undef => rfl
      | tru => exact absurd free (unsatisfied m literal)
      | fls => cases holds.symm.trans ((agrees m literal).2 free)

theorem leaf_delivers_circuit (wf : c.store.WellFormed)
    (words : ∀ m' m, c.solver.litOf m' = .ok m → m.code < Node.wordLimit)
    (renders : c.solver.Renders l.source.lits l.lits) (spells : Spells c.store l.source) :
    Delivers (c.leaf l) (LeafCircuit c l.source) := by
  have named : ∀ m' ∈ l.lits, Delivers (c.solver.litOf m') fun _ => True := fun m' member => by
    obtain ⟨m, _, _, name⟩ := forall₂_mem_right renders m' member
    exact ⟨m, name, trivial⟩
  have truth (m : Lit) (literal : m ∈ l.source.lits) :
      ∃ m' ∈ l.lits, c.solver.truth m = c.solver.value m' := by
    obtain ⟨m', member, number, _⟩ := forall₂_mem_left renders m literal
    exact ⟨m', member, Stepper.truth_eq number⟩
  obtain ⟨⟨f, c'⟩, run, _⟩ := leaf_answers named
  obtain ⟨grows, same, result⟩ := leaf_result wf words run
  have wf' := grows.wellFormed wf
  have spells' := spells.later (grows.later wf)
  refine ⟨(f, c'), run, ?_⟩
  rw [same]
  rcases result with ⟨⟨m', member, true_⟩, rfl⟩ | ⟨unsatisfied, ms, called, oneOf⟩
  · obtain ⟨m, literal, number, _⟩ := forall₂_mem_right renders m' member
    exact .of_satisfied grows wf' spells' literal ((Stepper.truth_eq number).trans true_)
  · have unique : Relator.RightUnique fun m' m => c.solver.litOf m' = .ok m :=
      fun _ _ _ first second => Except.ok.inj (first.symm.trans second)
    obtain rfl := unique.forall₂ called renders.undecided
    refine .of_oneOf grows wf' spells' (fun m literal => ?_) oneOf
    obtain ⟨m', member, same⟩ := truth m literal
    exact same ▸ unsatisfied m' member

end Compilation

namespace Compiler

open Store Compilation

variable {s s' : Store} {f : Formula} {settings : Settings} {m : Compiler} {p : Stepper} {d : ClauseTree}
  {e : Elimination} {t : PlacedTree} {l : PlacedLeaf} {c : Compilation}

/-- Whatever is assigned when a compilation reaches a leaf of its tree, the clause there is compiled to a
decomposable and deterministic circuit over its undecided variables, which is equivalent to the clause
under the assignment. -/
theorem leaf_circuit (reachable : s.Reachable) (known : f ∈ s)
    (prepared : prepare s f settings = .ok (m, s')) (start : m.solver.start = .ok (true, p))
    (tree : Dtree.minFill s' m.nonUnits = .ok (d, e)) (place : d.place p = .ok t) (leaf : l ∈ t.leaves)
    (grows : Grows s' c.store) (names : c.solver.names = p.names)
    (numbers : c.solver.numbers = p.numbers) : Delivers (c.leaf l) (LeafCircuit c l.source) := by
  have ready := prepare_ready reachable.wellFormed known prepared
  obtain ⟨s₂, _, _, _, _, added, _⟩ := prepare_simplified reachable.wellFormed known prepared
  have apart : m.solver.Apart := (Stepper.Driven.fresh.add added).apart
  have wf := ready.wellFormed
  obtain ⟨_, _, rest⟩ := bind_ok.mp tree
  obtain ⟨_, built, rest⟩ := bind_ok.mp rest
  cases rest
  obtain ⟨rfl, _, literals⟩ := Dtree.place_ok place
  have source : l.source ∈ t.unplaced.leaves := by
    rw [Dtree.leaves_unplaced]
    exact List.mem_map_of_mem leaf
  obtain ⟨g, conjunct, made⟩ := Dtree.alongOrder_gathers wf built l.source source
  obtain ⟨clause, _, lits, _⟩ := Dtree.ofClause_ok made
  have here : g ∈ s' := (wf.flatten_proper ready.mem conjunct).1
  refine leaf_delivers_circuit (grows.wellFormed wf) (fun m' k named => ?_) ?_ ?_
  · have fits := ready.fits.congr (names.trans (Stepper.start_names start))
    exact Var.Fits.word (Stepper.litOf_in fits named)
  · refine ready.given.renders apart (names.trans (Stepper.start_names start))
      (numbers.trans (Stepper.start_numbers start)) ((literals l leaf).imp fun k k' number => ?_)
    rw [← number, Stepper.literal?, Stepper.literal?, Stepper.numberOf?, Stepper.numberOf?,
      Stepper.start_numbers start]
  · have spells : Spells s' l.source := by
      rw [Spells, clause]
      exact ⟨here, lits⟩
    exact spells.later (grows.later wf)

/-- After a decision: a clause of three literals, one of them false and the others undecided. -/
theorem leaf_circuit_knot : ∃ m s' p d e t q l, prepare knot.2 knot.1 {} = .ok (m, s') ∧
    m.solver.start = .ok (true, p) ∧ Dtree.minFill s' m.nonUnits = .ok (d, e) ∧ d.place p = .ok t ∧
      p.decide ⟨2⟩ false = .ok (true, q) ∧ l ∈ t.leaves ∧
        l.source.lits.map q.truth = [.undef, .undef, .fls] ∧
          let c : Compilation := { first s' p t .never with solver := q }
          Delivers (c.leaf l) (LeafCircuit c l.source) := by
  have ran : Delivers (prepare knot.2 knot.1 {}) fun x => Delivers x.1.solver.start fun y => y.1 = true ∧
      Delivers (Dtree.minFill x.2 x.1.nonUnits) fun z => Delivers (z.1.place y.2) fun t =>
        Delivers (y.2.decide ⟨2⟩ false) fun w => w.1 = true ∧
          ∃ l ∈ t.leaves, l.source.lits.map w.2.truth = [.undef, .undef, .fls] := by decide +kernel
  obtain ⟨⟨m, s'⟩, prepared, ⟨_, p⟩, start, rfl, ⟨d, e⟩, tree, t, place, ⟨_, q⟩, run, rfl, l, leaf, truths⟩ := ran
  obtain ⟨_, _, _, _, _, added, _⟩ := prepare_simplified knot_reachable.wellFormed knot_mem prepared
  have driven := (Stepper.Driven.fresh.add added).start start
  obtain ⟨_, _, spares⟩ := driven.sound.decide run
  exact ⟨m, s', p, d, e, t, q, l, prepared, start, tree, place, run, leaf, truths,
    leaf_circuit knot_reachable knot_mem prepared start tree place leaf (.refl _) spares.names_eq
      spares.numbers_eq⟩

end Compiler

end ModelCounting
