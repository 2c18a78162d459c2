import Mathlib.Data.List.Forall2
import ModelCounting.Proofs.Junction

/-!
Histories of a store: the constructors as steps, and what each of them means. A formula that a
history builds is described by its value and by the variables it may mention.
-/

namespace ModelCounting

namespace Store

variable {s s' s'' : Store} {c : Connective} {f g : Formula} {fs : List Formula}

/-- The steps by which a store grows: naming a variable, and the constructors. -/
inductive Step : Store → Store → Prop
  | declare (s : Store) (name : String) : Step s (s.declare name).2
  | lit (s : Store) {l : Lit} (word : l.code < Node.wordLimit) : Step s (s.lit l).2
  | neg (s : Store) {f : Formula} (known : f ∈ s) : Step s (s.neg f).2
  | junction (s : Store) (c : Connective) {fs : List Formula} (known : ∀ f ∈ fs, f ∈ s) :
    Step s (s.junction c fs).2
  | implies (s : Store) {f g : Formula} (hf : f ∈ s) (hg : g ∈ s) : Step s (s.implies f g).2
  | equiv (s : Store) {f g : Formula} (hf : f ∈ s) (hg : g ∈ s) : Step s (s.equiv f g).2

/-- One store comes from another by any number of steps. -/
def Grows : Store → Store → Prop := Relation.ReflTransGen Step

/-- A history of steps leads to the store. -/
def Reachable (s : Store) : Prop := Grows initial s

/-! One step. -/

structure Produces (s : Store) (r : Formula × Store) : Prop where
  later : Extends s r.2
  wellFormed : r.2.WellFormed
  mem : r.1 ∈ r.2

theorem Produces.same (wf : s.WellFormed) (known : f ∈ s) : Produces s (f, s) :=
  ⟨Extends.refl s, wf, known⟩

theorem Interned.produces {n : Node} {r : Formula × Store} (interned : Interned s n r.1 r.2) :
    Produces s r :=
  ⟨interned.later, interned.wellFormed, interned.mem⟩

theorem Joined.produces {r : Formula × Store} (joined : Joined s c fs r.1 r.2) : Produces s r :=
  ⟨joined.later, joined.wellFormed, joined.mem⟩

theorem declare_later (s : Store) (name : String) : Extends s (s.declare name).2 := by
  unfold declare
  split <;> exact ⟨Nat.le_refl _, fun _ _ => rfl⟩

theorem WellFormed.declare (wf : s.WellFormed) (name : String) : (s.declare name).2.WellFormed := by
  unfold Store.declare
  split <;> exact ⟨wf.size_two, wf.node_falsum, wf.node_verum, wf.handle_iff, wf.canonical, wf.vars_eq⟩

theorem WellFormed.lit_interned (wf : s.WellFormed) {l : Lit} (word : l.code < Node.wordLimit) :
    Interned s (.lit l) (s.lit l).1 (s.lit l).2 :=
  intern_interned wf (by simp [Node.children]) word

theorem neg_word {l : Lit} (word : l.code < Node.wordLimit) : (-l).code < Node.wordLimit := by
  show l.negate.code < _
  simp only [Lit.negate, Node.wordLimit] at *
  split <;> omega

theorem WellFormed.lit_word (wf : s.WellFormed) (known : f ∈ s) {l : Lit}
    (shape : s.node f = .lit l) : l.code < Node.wordLimit := by
  have canonical := wf.canonical f known
  rw [shape] at canonical
  exact canonical

theorem neg_cases (s : Store) (f : Formula) :
    (s.node f = .falsum ∧ s.neg f = (.verum, s)) ∨ (s.node f = .verum ∧ s.neg f = (.falsum, s)) ∨
      (∃ l, s.node f = .lit l ∧ s.neg f = s.lit (-l)) ∨
      (∃ g, s.node f = .not g ∧ s.neg f = (g, s)) ∨
      ((s.node f).isCompound = true ∧ s.neg f = s.intern (.not f)) := by
  unfold neg
  cases s.node f <;> simp [Node.isCompound]

theorem WellFormed.neg_produces (wf : s.WellFormed) (known : f ∈ s) : Produces s (s.neg f) := by
  rcases s.neg_cases f with ⟨_, run⟩ | ⟨_, run⟩ | ⟨l, shape, run⟩ | ⟨g, shape, run⟩ | ⟨shape, run⟩ <;>
    rw [run]
  · exact .same wf wf.verum_mem
  · exact .same wf wf.falsum_mem
  · exact (wf.lit_interned (neg_word (wf.lit_word known shape))).produces
  · exact .same wf (child_mem known (by simp [shape, Node.children]))
  · exact (intern_interned wf (n := .not f) (by simpa [Node.children] using known) shape).produces

theorem WellFormed.junction_produces (wf : s.WellFormed) (known : ∀ f ∈ fs, f ∈ s) :
    Produces s (s.junction c fs) :=
  (wf.junction_joined known).produces

theorem implies_cases (s : Store) (f g : Formula) :
    ((f = .falsum ∨ g = .verum ∨ f = g) ∧ s.implies f g = (.verum, s)) ∨
      (f = .verum ∧ s.implies f g = (g, s)) ∨ (g = .falsum ∧ s.implies f g = s.neg f) ∨
      (f ≠ g ∧ f.isConstant = false ∧ g.isConstant = false ∧
        s.implies f g = s.intern (.implies f g)) := by
  unfold implies
  split
  · rename_i h
    exact .inl ⟨h, rfl⟩
  · split
    · rename_i h
      exact .inr (.inl ⟨h, rfl⟩)
    · split
      · rename_i h
        exact .inr (.inr (.inl ⟨h, rfl⟩))
      · right; right; right
        simp_all [Formula.isConstant]

theorem WellFormed.implies_produces (wf : s.WellFormed) (hf : f ∈ s) (hg : g ∈ s) :
    Produces s (s.implies f g) := by
  rcases s.implies_cases f g with ⟨_, run⟩ | ⟨_, run⟩ | ⟨_, run⟩ | ⟨ne, left, right, run⟩ <;> rw [run]
  · exact .same wf wf.verum_mem
  · exact .same wf hg
  · exact wf.neg_produces hf
  · refine (intern_interned wf (n := .implies f g) ?_ ⟨ne, left, right⟩).produces
    simp [Node.children, hf, hg]

/-- An equivalence is decided, is one of its sides or the negation of one, or is a new node. -/
theorem equiv_cases (s : Store) (f g : Formula) :
    (f = g ∧ s.equiv f g = (.verum, s)) ∨ (f = .verum ∧ s.equiv f g = (g, s)) ∨
      (g = .verum ∧ s.equiv f g = (f, s)) ∨ (f = .falsum ∧ s.equiv f g = s.neg g) ∨
      (g = .falsum ∧ s.equiv f g = s.neg f) ∨
      (∃ l, s.node f = .lit (-l) ∧ s.node g = .lit l ∧ s.equiv f g = (.falsum, s)) ∨
      (f ≠ g ∧ f.isConstant = false ∧ g.isConstant = false ∧
        (∀ l, s.node f = .lit l → s.node g ≠ .lit (-l)) ∧
        s.equiv f g = s.intern (.equiv f g)) := by
  unfold equiv
  split
  · rename_i h
    exact .inl ⟨h, rfl⟩
  split
  · rename_i h
    exact .inr (.inl ⟨h, rfl⟩)
  split
  · rename_i h
    exact .inr (.inr (.inl ⟨h, rfl⟩))
  split
  · rename_i h
    exact .inr (.inr (.inr (.inl ⟨h, rfl⟩)))
  split
  · rename_i h
    exact .inr (.inr (.inr (.inr (.inl ⟨h, rfl⟩))))
  right; right; right; right; right
  split
  · rename_i l m left right
    split
    · rename_i opposite
      exact .inl ⟨m, by rw [left, opposite], right, rfl⟩
    · rename_i apart
      refine .inr ⟨by assumption, ?_, ?_, ?_, rfl⟩
      · simp_all [Formula.isConstant]
      · simp_all [Formula.isConstant]
      · intro k first second
        rw [left] at first
        rw [right] at second
        cases first
        cases second
        simp at apart
  · rename_i apart
    refine .inr ⟨by assumption, ?_, ?_, fun l left right => apart l (-l) left right, rfl⟩
    · simp_all [Formula.isConstant]
    · simp_all [Formula.isConstant]

theorem WellFormed.equiv_produces (wf : s.WellFormed) (hf : f ∈ s) (hg : g ∈ s) :
    Produces s (s.equiv f g) := by
  rcases s.equiv_cases f g with ⟨_, run⟩ | ⟨_, run⟩ | ⟨_, run⟩ | ⟨_, run⟩ | ⟨_, run⟩ |
      ⟨_, _, _, run⟩ | ⟨ne, left, right, apart, run⟩ <;> rw [run]
  · exact .same wf wf.verum_mem
  · exact .same wf hg
  · exact .same wf hf
  · exact wf.neg_produces hg
  · exact wf.neg_produces hf
  · exact .same wf wf.falsum_mem
  · refine (intern_interned wf (n := .equiv f g) ?_ ⟨ne, left, right, apart⟩).produces
    simp [Node.children, hf, hg]

theorem Step.later (step : Step s s') (wf : s.WellFormed) : Extends s s' ∧ s'.WellFormed := by
  cases step with
  | declare name => exact ⟨s.declare_later name, wf.declare name⟩
  | lit word => exact ⟨(wf.lit_interned word).later, (wf.lit_interned word).wellFormed⟩
  | neg known => exact ⟨(wf.neg_produces known).later, (wf.neg_produces known).wellFormed⟩
  | junction c known =>
    exact ⟨(wf.junction_produces known).later, (wf.junction_produces known).wellFormed⟩
  | implies hf hg =>
    exact ⟨(wf.implies_produces hf hg).later, (wf.implies_produces hf hg).wellFormed⟩
  | equiv hf hg => exact ⟨(wf.equiv_produces hf hg).later, (wf.equiv_produces hf hg).wellFormed⟩

/-! Histories. -/

theorem Grows.refl (s : Store) : Grows s s := Relation.ReflTransGen.refl

theorem Grows.trans (first : Grows s s') (second : Grows s' s'') : Grows s s'' :=
  Relation.ReflTransGen.trans first second

theorem Step.grows (step : Step s s') : Grows s s' := Relation.ReflTransGen.single step

theorem Grows.keeps (grows : Grows s s') (wf : s.WellFormed) : Extends s s' ∧ s'.WellFormed := by
  induction grows with
  | refl => exact ⟨Extends.refl s, wf⟩
  | tail _ step ih =>
    have next := step.later ih.2
    exact ⟨ih.1.trans next.1, next.2⟩

theorem Grows.later (grows : Grows s s') (wf : s.WellFormed) : Extends s s' := (grows.keeps wf).1

theorem Grows.wellFormed (grows : Grows s s') (wf : s.WellFormed) : s'.WellFormed :=
  (grows.keeps wf).2

theorem mem_initial : f ∈ initial ↔ f = .falsum ∨ f = .verum := by
  cases f with
  | mk id =>
    have size_eq : initial.size = 2 := rfl
    simp only [mem_iff, size_eq, Formula.falsum, Formula.verum, Formula.mk.injEq]
    omega

theorem initial_wellFormed : initial.WellFormed where
  size_two := by decide
  node_falsum := rfl
  node_verum := rfl
  handle_iff n f := by
    rw [mem_initial]
    simp only [initial, Std.TreeMap.getElem?_insert]
    constructor
    · intro found
      split at found
      · rename_i h
        cases Option.some.inj found
        exact ⟨.inr rfl, Std.LawfulEqOrd.eq_of_compare h⟩
      · split at found
        · rename_i h
          cases Option.some.inj found
          exact ⟨.inl rfl, Std.LawfulEqOrd.eq_of_compare h⟩
        · simp at found
    · rintro ⟨rfl | rfl, rfl⟩ <;> rfl
  canonical f known := by
    rcases mem_initial.mp known with rfl | rfl <;> exact trivial
  vars_eq f known := by
    rcases mem_initial.mp known with rfl | rfl <;> rfl

theorem Reachable.wellFormed (reachable : s.Reachable) : s.WellFormed :=
  Grows.wellFormed reachable initial_wellFormed

/-! Meaning. -/

/-- A history that builds a formula of the given value, over the given variables. -/
structure Builds (s : Store) (r : Formula × Store) (meaning : (Var → Bool) → Bool)
    (scope : Var → Prop) : Prop where
  grows : Grows s r.2
  mem : r.1 ∈ r.2
  eval_eq : ∀ value, r.2.eval value r.1 = meaning value
  vars_sub : ∀ v ∈ r.2.vars r.1, scope v

theorem Builds.later {r : Formula × Store} {meaning : (Var → Bool) → Bool} {scope : Var → Prop}
    (builds : Builds s r meaning scope) (wf : s.WellFormed) : Extends s r.2 :=
  builds.grows.later wf

theorem Builds.wellFormed {r : Formula × Store} {meaning : (Var → Bool) → Bool}
    {scope : Var → Prop} (builds : Builds s r meaning scope) (wf : s.WellFormed) :
    r.2.WellFormed :=
  builds.grows.wellFormed wf

theorem Builds.known (known : f ∈ s) : Builds s (f, s) (fun value => s.eval value f) (· ∈ s.vars f) :=
  ⟨Grows.refl s, known, fun _ => rfl, fun _ h => h⟩

theorem Builds.mono {r : Formula × Store} {meaning meaning' : (Var → Bool) → Bool}
    {scope scope' : Var → Prop} (builds : Builds s r meaning scope)
    (same : ∀ value, meaning value = meaning' value) (wider : ∀ v, scope v → scope' v) :
    Builds s r meaning' scope' :=
  ⟨builds.grows, builds.mem, fun value => (builds.eval_eq value).trans (same value),
    fun v h => wider v (builds.vars_sub v h)⟩

theorem Builds.after {r : Formula × Store} {meaning : (Var → Bool) → Bool}
    {scope : Var → Prop} (builds : Builds s' r meaning scope) (before : Grows s s') :
    Builds s r meaning scope :=
  ⟨before.trans builds.grows, builds.mem, builds.eval_eq, builds.vars_sub⟩

theorem WellFormed.lit_meaning (wf : s.WellFormed) (known : f ∈ s) {l : Lit}
    (shape : s.node f = .lit l) :
    (∀ value, s.eval value f = l.holds value) ∧ ∀ v ∈ s.vars f, v = l.var := by
  constructor
  · intro value
    rw [eval_node, shape]
    rfl
  · intro v mentioned
    rcases (wf.mem_vars known v).mp mentioned with ⟨m, same, rfl⟩ | ⟨c, child, _⟩
    · rw [shape] at same
      cases same
      rfl
    · simp [shape, Node.children] at child

theorem WellFormed.lit_builds (wf : s.WellFormed) {l : Lit} (word : l.code < Node.wordLimit) :
    Builds s (s.lit l) l.holds (· = l.var) := by
  have interned := wf.lit_interned word
  have meaning := interned.wellFormed.lit_meaning interned.mem interned.node_eq
  exact ⟨(Step.lit s word).grows, interned.mem, fun value => meaning.1 value, meaning.2⟩

theorem holds_neg (value : Var → Bool) (l : Lit) : (-l).holds value = !l.holds value := by
  simp only [Lit.holds, Lit.var_neg, Lit.phase_neg]
  cases value l.var <;> cases l.phase <;> rfl

theorem WellFormed.neg_builds (wf : s.WellFormed) (known : f ∈ s) :
    Builds s (s.neg f) (fun value => !s.eval value f) (· ∈ s.vars f) := by
  refine ⟨(Step.neg s known).grows, (wf.neg_produces known).mem, fun value => ?_, fun v => ?_⟩
  · rw [s.eval_node value f]
    rcases s.neg_cases f with ⟨shape, run⟩ | ⟨shape, run⟩ | ⟨l, shape, run⟩ | ⟨g, shape, run⟩ |
        ⟨shape, run⟩ <;> rw [run]
    · simp [shape, Node.eval, wf]
    · simp [shape, Node.eval, wf]
    · rw [(wf.lit_builds (neg_word (wf.lit_word known shape))).eval_eq, shape, holds_neg]
      rfl
    · simp [shape, Node.eval]
    · have interned := intern_interned wf (n := .not f) (by simpa [Node.children] using known) shape
      rw [eval_node, interned.node_eq, Node.eval, interned.later.eval_eq known, s.eval_node value f]
  · rcases s.neg_cases f with ⟨shape, run⟩ | ⟨shape, run⟩ | ⟨l, shape, run⟩ | ⟨g, shape, run⟩ |
        ⟨shape, run⟩ <;> rw [run]
    · simp [wf.vars_constant (f := .verum) rfl]
    · simp [wf.vars_constant (f := .falsum) rfl]
    · intro mentioned
      have := (wf.lit_builds (neg_word (wf.lit_word known shape))).vars_sub v mentioned
      exact (wf.mem_vars known v).mpr (.inl ⟨l, shape, by rw [this, Lit.var_neg]⟩)
    · exact wf.vars_child known (by simp [shape, Node.children])
    · intro mentioned
      have interned := intern_interned wf (n := .not f) (by simpa [Node.children] using known) shape
      rw [interned.wellFormed.mem_vars interned.mem, interned.node_eq] at mentioned
      simpa [Node.children, interned.later.vars_eq known] using mentioned

theorem WellFormed.junction_builds (wf : s.WellFormed) (known : ∀ f ∈ fs, f ∈ s) :
    Builds s (s.junction c fs) (fun value => c.holds (s.eval value) fs)
      (fun v => ∃ f ∈ fs, v ∈ s.vars f) :=
  have joined := wf.junction_joined (c := c) known
  ⟨(Step.junction s c known).grows, joined.mem, joined.eval_eq wf known,
    fun _ mentioned => joined.vars_subset wf known mentioned⟩

theorem WellFormed.implies_builds (wf : s.WellFormed) (hf : f ∈ s) (hg : g ∈ s) :
    Builds s (s.implies f g) (fun value => !s.eval value f || s.eval value g)
      (fun v => v ∈ s.vars f ∨ v ∈ s.vars g) := by
  refine ⟨(Step.implies s hf hg).grows, (wf.implies_produces hf hg).mem, fun value => ?_, fun v => ?_⟩
  all_goals rcases s.implies_cases f g with ⟨trivially, run⟩ | ⟨rfl, run⟩ | ⟨rfl, run⟩ |
      ⟨ne, left, right, run⟩ <;> rw [run]
  · rcases trivially with rfl | rfl | rfl <;> simp [wf]
  · simp [wf]
  · simp [(wf.neg_builds hf).eval_eq, wf]
  · have interned := intern_interned wf (n := .implies f g) (by simp [Node.children, hf, hg])
      ⟨ne, left, right⟩
    rw [eval_node, interned.node_eq, Node.eval, interned.later.eval_eq hf, interned.later.eval_eq hg]
  · simp [wf.vars_constant (f := .verum) rfl]
  · exact .inr
  · exact fun mentioned => .inl ((wf.neg_builds hf).vars_sub v mentioned)
  · intro mentioned
    have interned := intern_interned wf (n := .implies f g) (by simp [Node.children, hf, hg])
      ⟨ne, left, right⟩
    rw [interned.wellFormed.mem_vars interned.mem, interned.node_eq] at mentioned
    simpa [Node.children, interned.later.vars_eq hf, interned.later.vars_eq hg] using mentioned

theorem WellFormed.equiv_builds (wf : s.WellFormed) (hf : f ∈ s) (hg : g ∈ s) :
    Builds s (s.equiv f g) (fun value => s.eval value f == s.eval value g)
      (fun v => v ∈ s.vars f ∨ v ∈ s.vars g) := by
  refine ⟨(Step.equiv s hf hg).grows, (wf.equiv_produces hf hg).mem, fun value => ?_, fun v => ?_⟩
  all_goals rcases s.equiv_cases f g with ⟨rfl, run⟩ | ⟨rfl, run⟩ | ⟨rfl, run⟩ | ⟨rfl, run⟩ |
      ⟨rfl, run⟩ | ⟨l, first, second, run⟩ | ⟨ne, left, right, apart, run⟩ <;> rw [run]
  · simp [wf]
  · simp [wf]
  · simp [wf]
  · simp [(wf.neg_builds hg).eval_eq, wf]
  · simp [(wf.neg_builds hf).eval_eq, wf]
  · rw [wf.eval_falsum, (wf.lit_meaning hf first).1, (wf.lit_meaning hg second).1, holds_neg]
    cases l.holds value <;> rfl
  · have interned := intern_interned wf (n := .equiv f g) (by simp [Node.children, hf, hg])
      ⟨ne, left, right, apart⟩
    rw [eval_node, interned.node_eq, Node.eval, interned.later.eval_eq hf, interned.later.eval_eq hg]
  · simp [wf.vars_constant (f := .verum) rfl]
  · exact .inr
  · exact .inl
  · exact fun mentioned => .inr ((wf.neg_builds hg).vars_sub v mentioned)
  · exact fun mentioned => .inl ((wf.neg_builds hf).vars_sub v mentioned)
  · simp [wf.vars_constant (f := .falsum) rfl]
  · intro mentioned
    have interned := intern_interned wf (n := .equiv f g) (by simp [Node.children, hf, hg])
      ⟨ne, left, right, apart⟩
    rw [interned.wellFormed.mem_vars interned.mem, interned.node_eq] at mentioned
    simpa [Node.children, interned.later.vars_eq hf, interned.later.vars_eq hg] using mentioned

/-! Lists of literals. -/

theorem WellFormed.literals_build (wf : s.WellFormed) {ls : List Lit}
    (words : ∀ l ∈ ls, l.code < Node.wordLimit) :
    Grows s (s.literals ls).2 ∧
      List.Forall₂ (fun l f => f ∈ (s.literals ls).2 ∧ (s.literals ls).2.node f = .lit l)
        ls (s.literals ls).1 := by
  induction ls generalizing s with
  | nil => exact ⟨Grows.refl s, .nil⟩
  | cons l ls ih =>
    have interned := wf.lit_interned (words l (by simp))
    have rest := ih interned.wellFormed fun m hm => words m (List.mem_cons_of_mem l hm)
    have later := rest.1.later interned.wellFormed
    refine ⟨(Step.lit s (words l (by simp))).grows.trans rest.1, .cons ⟨?_, ?_⟩ rest.2⟩
    · exact later.mem interned.mem
    · exact (later.node_eq interned.mem).trans interned.node_eq

theorem WellFormed.literals_meaning (wf : s.WellFormed) {ls : List Lit}
    (words : ∀ l ∈ ls, l.code < Node.wordLimit) :
    (∀ f ∈ (s.literals ls).1, ∃ l ∈ ls, f ∈ (s.literals ls).2 ∧ (s.literals ls).2.node f = .lit l) ∧
      ∀ l ∈ ls, ∃ f ∈ (s.literals ls).1, (s.literals ls).2.node f = .lit l := by
  have pairs := (wf.literals_build words).2
  generalize (s.literals ls).2 = s', (s.literals ls).1 = fs at pairs
  induction pairs with
  | nil => simp
  | cons head tail ih =>
    simp only [List.mem_cons, forall_eq_or_imp, exists_eq_or_imp]
    have ih := ih fun m hm => words m (List.mem_cons_of_mem _ hm)
    exact ⟨⟨.inl head, fun f hf => .inr (ih.1 f hf)⟩, .inl head.2, fun l hl => .inr (ih.2 l hl)⟩

theorem WellFormed.junction_literals_builds (wf : s.WellFormed) {ls : List Lit}
    (words : ∀ l ∈ ls, l.code < Node.wordLimit) :
    Builds s ((s.literals ls).2.junction c (s.literals ls).1)
      (fun value => match c with
        | .conj => ls.all (·.holds value)
        | .disj => ls.any (·.holds value))
      (fun v => ∃ l ∈ ls, l.var = v) := by
  have grows := (wf.literals_build words).1
  have wf' := grows.wellFormed wf
  obtain ⟨backward, forward⟩ := wf.literals_meaning words
  refine ((wf'.junction_builds fun f hf => ?_).after grows).mono (fun value => ?_) fun v => ?_
  · obtain ⟨_, _, known, _⟩ := backward f hf
    exact known
  · have value_eq {f : Formula} {l : Lit} (shape : (s.literals ls).2.node f = .lit l) :
        (s.literals ls).2.eval value f = l.holds value := by
      rw [eval_node, shape]
      rfl
    apply c.eq_of_deciding_iff
    rw [Connective.holds_eq_deciding]
    have flat : (∃ f ∈ (s.literals ls).1, (s.literals ls).2.eval value f = c.deciding) ↔
        ∃ l ∈ ls, l.holds value = c.deciding := by
      constructor
      · rintro ⟨f, hf, decides⟩
        obtain ⟨l, hl, _, shape⟩ := backward f hf
        exact ⟨l, hl, by rw [← value_eq shape, decides]⟩
      · rintro ⟨l, hl, decides⟩
        obtain ⟨f, hf, shape⟩ := forward l hl
        exact ⟨f, hf, by rw [value_eq shape, decides]⟩
    rw [flat]
    cases c <;> simp [Connective.deciding]
  · rintro ⟨f, hf, mentioned⟩
    obtain ⟨l, hl, known, shape⟩ := backward f hf
    exact ⟨l, hl, ((wf'.lit_meaning known shape).2 v mentioned).symm⟩

end Store

end ModelCounting
