import ModelCounting.Proofs.Clausal

/-!
Constructions that are repeated. A store finds an equal node again, so what was built once is built
again without a new node, in every store that has grown since. This holds of the constructors, and
of every conversion that is made of them.
-/

namespace ModelCounting

namespace Store

variable {s s' t : Store} {c : Connective} {f g : Formula} {fs gs : List Formula}

/-- A run that makes the store grow and whose answer is right. In every later store it has the same
answer and adds nothing. -/
structure Replays {α : Type} (right : Store → α → Prop) (run : Store → α × Store) (s : Store) :
    Prop where
  grows : Grows s (run s).2
  right : right (run s).2 (run s).1
  again : ∀ t, t.WellFormed → Extends (run s).2 t → run t = ((run s).1, t)

abbrev Rebuilds (build : Store → Formula × Store) (s : Store) : Prop :=
  Replays (fun s f => f ∈ s) build s

namespace Replays

variable {α β : Type} {right : Store → α → Prop} {right' : Store → β → Prop}
  {run run' : Store → α × Store} {k : α → Store → β × Store}

theorem pure {a : α} (holds : right s a) : Replays right (fun s => (a, s)) s :=
  ⟨Grows.refl s, holds, fun _ _ _ => rfl⟩

theorem bind (wf : s.WellFormed) (first : Replays right run s)
    (rest : ∀ a s', Grows s s' → right s' a → Replays right' (k a) s') :
    Replays right' (fun s => k (run s).1 (run s).2) s := by
  have second := rest _ _ first.grows first.right
  refine ⟨first.grows.trans second.grows, second.right, fun t wf' later => ?_⟩
  have before := (second.grows.later (first.grows.wellFormed wf)).trans later
  simp only [first.again t wf' before]
  exact second.again t wf' later

theorem congr (replays : Replays right run' s) (wf : s.WellFormed)
    (same : ∀ t, Extends s t → run t = run' t) : Replays right run s := by
  have here := same s (Extends.refl s)
  refine ⟨here ▸ replays.grows, here ▸ replays.right, fun t wf' later => ?_⟩
  rw [here] at later ⊢
  rw [same t ((replays.grows.later wf).trans later)]
  exact replays.again t wf' later

end Replays

/-! The constructors. -/

theorem WellFormed.intern_known {n : Node} (wf : s.WellFormed) (known : f ∈ s) (shape : s.node f = n) :
    s.intern n = (f, s) := by
  have found : s.handles[n]? = some f := (wf.handle_iff n f).mpr ⟨known, shape⟩
  unfold intern
  rw [found]

theorem WellFormed.junction_known (wf : s.WellFormed) (known : f ∈ s) (shape : s.node f = c.node fs) :
    s.junction c fs = (f, s) := by
  rw [junction_operands (wf.operands_of_node known shape)]
  exact wf.intern_known known shape

theorem Interned.again {n : Node} (interned : Interned s n f s') (wf : t.WellFormed)
    (later : Extends s' t) : t.intern n = (f, t) :=
  wf.intern_known (later.mem interned.mem) ((later.node_eq interned.mem).trans interned.node_eq)

theorem WellFormed.lit_rebuilds (wf : s.WellFormed) {l : Lit} (word : l.code < Node.wordLimit) :
    Rebuilds (·.lit l) s where
  grows := (Step.lit s word).grows
  right := (wf.lit_interned word).mem
  again _ wf' later := (wf.lit_interned word).again wf' later

theorem WellFormed.neg_rebuilds (wf : s.WellFormed) (known : f ∈ s) : Rebuilds (·.neg f) s where
  grows := (Step.neg s known).grows
  right := (wf.neg_produces known).mem
  again t wf' later := by
    have same := ((wf.neg_produces known).later.trans later).node_eq known
    rcases s.neg_cases f with ⟨shape, run⟩ | ⟨shape, run⟩ | ⟨l, shape, run⟩ | ⟨g, shape, run⟩ |
        ⟨shape, run⟩ <;> rw [run] at later ⊢
    · simp only [neg, same, shape]
    · simp only [neg, same, shape]
    · have interned := wf.lit_interned (neg_word (wf.lit_word known shape))
      simp only [neg, same, shape]
      exact interned.again wf' later
    · simp only [neg, same, shape]
    · have interned := intern_interned wf (n := .not f) (by simpa [Node.children] using known) shape
      have plain : t.neg f = t.intern (.not f) := by
        unfold neg
        rw [same]
        cases h : s.node f <;> simp_all [Node.isCompound]
      rw [plain]
      exact interned.again wf' later

theorem Extends.operandsOf_eq (later : Extends s t) (known : ∀ f ∈ fs, f ∈ s) :
    t.operandsOf c fs = s.operandsOf c fs := by
  unfold operandsOf
  rw [List.flatMap_congr fun f member => later.flatten_eq (known f member)]

theorem Extends.clashing_eq (later : Extends s t) (known : ∀ f ∈ fs, f ∈ s) :
    t.clashing fs = s.clashing fs := by
  rw [Bool.eq_iff_iff, clashing_iff, clashing_iff]
  refine exists_congr fun f => and_congr_right fun hf => exists_congr fun g => and_congr_right fun hg => ?_
  rw [later.node_eq (known f hf), later.node_eq (known g hg)]

theorem Joined.node_eq (joined : Joined s c fs g s') (undecided : ¬ s.Decided c fs)
    (many : 2 ≤ (s.operandsOf c fs).length) : s'.node g = c.node (s.operandsOf c fs) := by
  have flat := joined.flatten_eq undecided
  have proper : g ≠ c.neutral := by
    rintro rfl
    simp [← flat, flatten_neutral] at many
  rcases s'.flatten_cases c proper with ⟨gs, shape, same⟩ | ⟨_, single⟩
  · rw [shape, ← flat, same]
  · simp [← flat, single] at many

theorem WellFormed.junction_rebuilds (wf : s.WellFormed) (known : ∀ f ∈ fs, f ∈ s) :
    Rebuilds (·.junction c fs) s where
  grows := (Step.junction s c known).grows
  right := (wf.junction_produces known).mem
  again t wf' later := by
    have joined := wf.junction_joined (c := c) known
    have before := joined.later.trans later
    have operands : ∀ o ∈ s.operandsOf c fs, o ∈ s := by
      intro o operand
      obtain ⟨f, hf, flat⟩ := mem_operandsOf.mp operand
      exact (wf.flatten_proper (known f hf) flat).1
    have ops := before.operandsOf_eq (c := c) known
    have clash := before.clashing_eq operands
    by_cases decided : s.Decided c fs
    · rw [joined.decided decided, junction_eq, ops, clash]
      rcases decided with absorbing | clashes
      · rw [if_pos (List.contains_iff_mem.mpr absorbing)]
      · rw [if_pos clashes]
        split <;> rfl
    · have apart := decided
      rw [Decided, not_or, Bool.not_eq_true] at apart
      have noAbsorbing : fs.contains c.absorbing = false :=
        Bool.eq_false_iff.mpr fun h => apart.1 (List.contains_iff_mem.mp h)
      have many := joined.node_eq decided
      simp only [junction_eq, ops, clash, noAbsorbing, apart.2, Bool.false_eq_true, if_false]
        at joined later many ⊢
      match s.operandsOf c fs, joined, later, many with
      | [], _, _, _ => rfl
      | [f], _, _, _ => rfl
      | f :: g :: fs, joined, later, many =>
        exact wf'.intern_known (later.mem joined.mem) ((later.node_eq joined.mem).trans (many (by simp)))

theorem WellFormed.implies_rebuilds (wf : s.WellFormed) (hf : f ∈ s) (hg : g ∈ s) :
    Rebuilds (·.implies f g) s where
  grows := (Step.implies s hf hg).grows
  right := (wf.implies_produces hf hg).mem
  again t wf' later := by
    simp only [implies] at later ⊢
    split_ifs at later ⊢ with trivially verum falsum
    · rfl
    · rfl
    · exact (wf.neg_rebuilds hf).again t wf' later
    · have canonical : (Node.implies f g).Canonical s.node := by
        simp_all [Node.Canonical, Formula.isConstant]
      exact (intern_interned wf (by simp [Node.children, hf, hg]) canonical).again wf' later

theorem WellFormed.equiv_rebuilds (wf : s.WellFormed) (hf : f ∈ s) (hg : g ∈ s) :
    Rebuilds (·.equiv f g) s where
  grows := (Step.equiv s hf hg).grows
  right := (wf.equiv_produces hf hg).mem
  again t wf' later := by
    have before := (wf.equiv_produces hf hg).later.trans later
    have cases_then := s.equiv_cases f g
    have cases_now := t.equiv_cases f g
    rw [before.node_eq hf, before.node_eq hg] at cases_now
    by_cases folded : f = g ∨ f = .verum ∨ g = .verum ∨ f = .falsum ∨ g = .falsum
    · simp only [equiv] at later ⊢
      split_ifs at later ⊢
      · rfl
      · rfl
      · rfl
      · exact (wf.neg_rebuilds hg).again t wf' later
      · exact (wf.neg_rebuilds hf).again t wf' later
      · simp_all
    · -- the two operands clash, or the node is a new one, and the same is the case later on
      simp only [not_or] at folded
      simp only [folded, false_and, false_or] at cases_then cases_now
      rcases cases_then with ⟨l, first, second, run⟩ | ⟨ne, left, right, apart, run⟩
      · rcases cases_now with ⟨_, _, _, run'⟩ | ⟨_, _, _, apart, _⟩
        · simp only [run, run']
        · exact absurd (by simpa using second) (apart (-l) first)
      · have interned := intern_interned wf (n := .equiv f g) (by simp [Node.children, hf, hg])
          ⟨ne, left, right, apart⟩
        rcases cases_now with ⟨l, first, second, _⟩ | ⟨_, _, _, _, run'⟩
        · exact absurd (by simpa using second) (apart (-l) first)
        · simp only [run, run'] at later ⊢
          exact interned.again wf' later

/-! Lists of literals. -/

theorem WellFormed.literals_replay (wf : s.WellFormed) {ls : List Lit}
    (words : ∀ l ∈ ls, l.code < Node.wordLimit) :
    Replays (fun s fs => ∀ f ∈ fs, f ∈ s) (·.literals ls) s := by
  induction ls generalizing s with
  | nil => exact .pure (by simp)
  | cons l ls ih =>
    refine (wf.lit_rebuilds (words l (by simp))).bind wf
      (k := fun f s => (f :: (s.literals ls).1, (s.literals ls).2)) fun f s' grows known => ?_
    have wf' := grows.wellFormed wf
    refine (ih wf' fun m member => words m (List.mem_cons_of_mem l member)).bind wf'
      (k := fun fs s => (f :: fs, s)) fun fs s'' grows' each => .pure ?_
    intro g member
    rcases List.mem_cons.mp member with rfl | member
    · exact (grows'.later wf').mem known
    · exact each g member

theorem WellFormed.junction_literals_rebuild (wf : s.WellFormed) {ls : List Lit}
    (words : ∀ l ∈ ls, l.code < Node.wordLimit) :
    Rebuilds (fun s => (s.literals ls).2.junction c (s.literals ls).1) s :=
  (wf.literals_replay words).bind wf (k := fun fs s => s.junction c fs)
    fun _ _ grows known => (grows.wellFormed wf).junction_rebuilds known

/-! Memoized conversions. -/

section Conversion

variable {K : Type} [Ord K]

def recorded {α M : Type} (r : α × Store × M) : (α × M) × Store := ((r.1, r.2.2), r.2.1)

def Kept (s : Store) (r : Formula × Std.TreeMap K Formula) : Prop :=
  r.1 ∈ s ∧ Remembers (fun _ s g => g ∈ s) s r.2

def Retraces (convert : Store → Std.TreeMap K Formula → Formula × Store × Std.TreeMap K Formula)
    (s : Store) : Prop :=
  ∀ memo, Remembers (fun _ s g => g ∈ s) s memo → Replays Kept (fun s => recorded (convert s memo)) s

namespace Retraces

variable {m : Store → Std.TreeMap K Formula → Formula × Store × Std.TreeMap K Formula}
  {k : Formula → Store → Std.TreeMap K Formula → Formula × Store × Std.TreeMap K Formula}

theorem bind (wf : s.WellFormed) (first : Retraces m s)
    (rest : ∀ x s', Grows s s' → x ∈ s' → Retraces (k x) s') :
    Retraces (fun s memo => k (m s memo).1 (m s memo).2.1 (m s memo).2.2) s :=
  fun memo good => (first memo good).bind wf (k := fun r s => recorded (k r.1 s r.2))
    fun r s' grows kept => rest r.1 s' grows kept.1 r.2 kept.2

theorem build {b : Store → Formula × Store} (wf : s.WellFormed) (rebuilds : Rebuilds b s) :
    Retraces (fun s (memo : Std.TreeMap K Formula) => ((b s).1, (b s).2, memo)) s :=
  fun memo good => rebuilds.bind wf (k := fun g s => ((g, memo), s)) fun _ _ grows known =>
    .pure ⟨known, good.mono fun _ _ held => (grows.later wf).mem held⟩

theorem memoized [Std.TransOrd K] [Std.LawfulEqOrd K] {convert n : Store → Std.TreeMap K Formula →
      Formula × Store × Std.TreeMap K Formula} {i : K} (wf : s.WellFormed)
    (found : ∀ t memo g, memo[i]? = some g → convert t memo = (g, t, memo))
    (fresh : ∀ t memo, Extends s t → memo[i]? = none → convert t memo =
      ((n t memo).1, (n t memo).2.1, (n t memo).2.2.insert i (n t memo).1))
    (retraces : Retraces n s) : Retraces convert s := by
  intro memo good
  cases entry : memo[i]? with
  | some g =>
    refine Replays.congr (Replays.pure (a := (g, memo)) ⟨good i g entry, good⟩) wf fun t _ => ?_
    rw [found t memo g entry]
    rfl
  | none =>
    refine Replays.congr ((retraces memo good).bind wf
      (k := fun r s => ((r.1, r.2.insert i r.1), s)) fun r s' grows kept =>
        .pure ⟨kept.1, kept.2.insert kept.1⟩) wf fun t later => ?_
    rw [fresh t memo later entry]
    rfl

end Retraces

theorem collect_replays {step : Formula → Store → Std.TreeMap K Formula →
      Formula × Store × Std.TreeMap K Formula} {s₀ : Store} (wf : s₀.WellFormed)
    (each : ∀ f ∈ fs, ∀ s, Grows s₀ s → Retraces (step f) s) {s : Store} (before : Grows s₀ s)
    {memo : Std.TreeMap K Formula} (good : Remembers (fun _ s g => g ∈ s) s memo)
    {acc : List Formula} (known : ∀ g ∈ acc, g ∈ s) :
    Replays (fun s r => (∀ g ∈ r.1, g ∈ s) ∧ Remembers (fun _ s g => g ∈ s) s r.2)
      (fun s => recorded (collect step fs (acc, s, memo))) s := by
  induction fs generalizing s memo acc with
  | nil => exact Replays.pure (a := (acc, memo)) ⟨known, good⟩
  | cons f fs ih =>
    have wf' := before.wellFormed wf
    refine (each f (by simp) s before memo good).bind wf'
      (k := fun r s => recorded (collect step fs (r.1 :: acc, s, r.2))) fun r s' grows kept => ?_
    refine ih (fun g member => each g (List.mem_cons_of_mem f member)) (before.trans grows) kept.2 ?_
    intro g member
    rcases List.mem_cons.mp member with rfl | member
    · exact kept.1
    · exact (grows.later wf').mem (known g member)

theorem junctionOf_retraces {step : Formula → Store → Std.TreeMap K Formula →
      Formula × Store × Std.TreeMap K Formula} (wf : s.WellFormed)
    (each : ∀ f ∈ fs, ∀ s', Grows s s' → Retraces (step f) s') :
    Retraces (fun s memo => junctionOf c (collect step fs ([], s, memo))) s :=
  fun _ good => (collect_replays wf each (Grows.refl s) good (by simp)).bind wf
    (k := fun r s => recorded (junctionOf c (r.1, s, r.2))) fun r _ grows kept =>
      have wf' := grows.wellFormed wf
      Retraces.build wf' (wf'.junction_rebuilds fun g member => kept.1 g (List.mem_reverse.mp member))
        r.2 kept.2

end Conversion

theorem WellFormed.conj_disj_rebuilds (wf : s.WellFormed) (first : ∀ f ∈ fs, f ∈ s)
    (second : ∀ g ∈ gs, g ∈ s) : Rebuilds (fun s =>
      let x := s.disj fs
      let y := x.2.disj gs
      y.2.conj [x.1, y.1]) s := by
  refine (wf.junction_rebuilds (c := .disj) first).bind wf
    (k := fun x s => (s.disj gs).2.conj [x, (s.disj gs).1]) fun x s' grows left => ?_
  have wf' := grows.wellFormed wf
  refine (wf'.junction_rebuilds (c := .disj) fun g member => (grows.later wf).mem (second g member)).bind
    wf' (k := fun y s => s.conj [x, y]) fun y s'' grows' right => ?_
  exact (grows'.wellFormed wf').junction_rebuilds (by simp [right, (grows'.later wf').mem left])

def equivOf (p : Bool) (posA negA posB negB : Formula) (s : Store) : Formula × Store :=
  let x := s.disj (if p then [negA, posB] else [posA, posB])
  let y := x.2.disj (if p then [posA, negB] else [negA, negB])
  y.2.conj [x.1, y.1]

theorem nnf_equiv_retraces {a b : Formula} {p : Bool} (wf : s.WellFormed)
    (below : ∀ g ∈ [a, b], ∀ q s', Grows s s' → Retraces (nnfFrom g q) s') :
    Retraces (fun s memo => nnfNode f p s memo (.equiv a b)) s := by
  refine Retraces.bind wf (below a (by simp) true s (Grows.refl s)) (k := fun posA s memo =>
    let x := nnfFrom a false s memo
    let y := nnfFrom b true x.2.1 x.2.2
    let z := nnfFrom b false y.2.1 y.2.2
    ((equivOf p posA x.1 y.1 z.1 z.2.1).1, (equivOf p posA x.1 y.1 z.1 z.2.1).2, z.2.2))
    fun posA s₁ grows₁ held₁ => ?_
  have wf₁ := grows₁.wellFormed wf
  refine Retraces.bind wf₁ (below a (by simp) false s₁ grows₁) (k := fun negA s memo =>
    let y := nnfFrom b true s memo
    let z := nnfFrom b false y.2.1 y.2.2
    ((equivOf p posA negA y.1 z.1 z.2.1).1, (equivOf p posA negA y.1 z.1 z.2.1).2, z.2.2))
    fun negA s₂ grows₂ held₂ => ?_
  have wf₂ := grows₂.wellFormed wf₁
  refine Retraces.bind wf₂ (below b (by simp) true s₂ (grows₁.trans grows₂)) (k := fun posB s memo =>
    let z := nnfFrom b false s memo
    ((equivOf p posA negA posB z.1 z.2.1).1, (equivOf p posA negA posB z.1 z.2.1).2, z.2.2))
    fun posB s₃ grows₃ held₃ => ?_
  have wf₃ := grows₃.wellFormed wf₂
  refine Retraces.bind wf₃ (below b (by simp) false s₃ ((grows₁.trans grows₂).trans grows₃))
    (k := fun negB s memo =>
      ((equivOf p posA negA posB negB s).1, (equivOf p posA negA posB negB s).2, memo))
    fun negB s₄ grows₄ held₄ => ?_
  have later₃ := grows₄.later wf₃
  have later₂ := (grows₃.later wf₂).trans later₃
  have later₁ := (grows₂.later wf₁).trans later₂
  refine Retraces.build (grows₄.wellFormed wf₃) ((grows₄.wellFormed wf₃).conj_disj_rebuilds ?_ ?_)
  · cases p <;> simp [later₁.mem held₁, later₂.mem held₂, later₃.mem held₃]
  · cases p <;> simp [later₁.mem held₁, later₂.mem held₂, held₄]

theorem nnfFrom_retraces (wf : s.WellFormed) (known : f ∈ s) (p : Bool) :
    Retraces (nnfFrom f p) s := by
  induction size : f.id using Nat.strongRecOn generalizing f p s with
  | ind k ih =>
    have below : ∀ g ∈ (s.node f).children, ∀ q s', Grows s s' → Retraces (nnfFrom g q) s' :=
      fun g child q s' grows => ih g.id (size ▸ s.child_lt child) (grows.wellFormed wf)
        ((grows.later wf).mem (child_mem known child)) q rfl
    refine Retraces.memoized (n := fun t memo => nnfNode f p t memo (s.node f)) (i := (f, p)) wf
      (fun t memo g found => ?_) (fun t memo later fresh => ?_) ?_
    · rw [nnfFrom]
      simp only [found]
    · rw [nnfFrom_fresh fresh, later.node_eq known]
    · cases shape : s.node f with
      | falsum | verum | lit =>
        cases p with
        | true => exact Retraces.build wf (b := fun s => (f, s)) (.pure known)
        | false => exact Retraces.build wf (wf.neg_rebuilds known)
      | not g => exact below g (by simp [shape, Node.children]) (!p) s (Grows.refl s)
      | and fs =>
        exact junctionOf_retraces wf fun g member s' => below g (by rwa [shape]) p s'
      | or fs =>
        exact junctionOf_retraces wf fun g member s' => below g (by rwa [shape]) p s'
      | implies a b =>
        refine Retraces.bind wf (below a (by simp [shape, Node.children]) (!p) s (Grows.refl s))
          (k := fun x s memo => junctionOf (Connective.disj.under p)
            ([(nnfFrom b p s memo).1, x], (nnfFrom b p s memo).2.1, (nnfFrom b p s memo).2.2))
          fun x s' grows left => ?_
        have wf' := grows.wellFormed wf
        refine Retraces.bind wf' (below b (by simp [shape, Node.children]) p s' grows)
          (k := fun y s memo => junctionOf (Connective.disj.under p) ([y, x], s, memo))
          fun y s'' grows' right => ?_
        have wf'' := grows'.wellFormed wf'
        exact Retraces.build wf'' (wf''.junction_rebuilds (by simp [right, (grows'.later wf').mem left]))
      | equiv a b => exact nnf_equiv_retraces wf fun g member q s' => below g (by rwa [shape]) q s'

theorem WellFormed.nnf_rebuilds (wf : s.WellFormed) (known : f ∈ s) : Rebuilds (·.nnf f) s :=
  (nnfFrom_retraces wf known true ∅ (by simp [Remembers])).bind wf (k := fun r s => (r.1, s))
    fun _ _ _ kept => .pure kept.1

/-! Conjunctive normal form. -/

theorem conjuncts_mem (known : f ∈ s) (member : g ∈ s.conjuncts f) : g ∈ s := by
  unfold conjuncts at member
  split at member
  · rename_i shape
    exact child_mem known (by rwa [shape])
  · rwa [List.mem_singleton.mp member]

theorem Extends.conjuncts_eq (later : Extends s t) (known : f ∈ s) : t.conjuncts f = s.conjuncts f := by
  unfold conjuncts
  rw [later.node_eq known]

theorem disjEach_replays (wf : s.WellFormed) (known : f ∈ s) (each : ∀ g ∈ gs, g ∈ s) :
    Replays (fun s fs => ∀ g ∈ fs, g ∈ s) (·.disjEach f gs) s := by
  induction gs generalizing s with
  | nil => exact .pure (by simp)
  | cons g gs ih =>
    have pair : ∀ h ∈ [f, g], h ∈ s := by simp [known, each g (by simp)]
    refine (wf.junction_rebuilds (c := .disj) pair).bind wf
      (k := fun h s => (h :: (s.disjEach f gs).1, (s.disjEach f gs).2)) fun h s' grows held => ?_
    have wf' := grows.wellFormed wf
    have later := grows.later wf
    refine (ih wf' (later.mem known) fun h member => later.mem (each h (List.mem_cons_of_mem g member))).bind
      wf' (k := fun fs s => (h :: fs, s)) fun fs s'' grows' rest => .pure ?_
    intro k member
    rcases List.mem_cons.mp member with rfl | member
    · exact (grows'.later wf').mem held
    · exact rest k member

theorem disjPairs_replays (wf : s.WellFormed) (first : ∀ f ∈ fs, f ∈ s) (second : ∀ g ∈ gs, g ∈ s) :
    Replays (fun s hs => ∀ h ∈ hs, h ∈ s) (·.disjPairs gs fs) s := by
  induction fs generalizing s with
  | nil => exact .pure (by simp)
  | cons f fs ih =>
    refine (disjEach_replays wf (first f (by simp)) second).bind wf
      (k := fun hs s => (hs ++ (s.disjPairs gs fs).1, (s.disjPairs gs fs).2)) fun hs s' grows row => ?_
    have wf' := grows.wellFormed wf
    have later := grows.later wf
    refine (ih wf' (fun g member => later.mem (first g (List.mem_cons_of_mem f member)))
      fun g member => later.mem (second g member)).bind wf' (k := fun ks s => (hs ++ ks, s))
        fun ks s'' grows' rest => .pure ?_
    intro k member
    rcases List.mem_append.mp member with member | member
    · exact (grows'.later wf').mem (row k member)
    · exact rest k member

theorem distribute_rebuilds (wf : s.WellFormed) (hf : f ∈ s) (hg : g ∈ s) :
    Rebuilds (·.distribute f g) s := by
  have pairs := disjPairs_replays wf (fun _ member => conjuncts_mem hf member)
    fun _ member => conjuncts_mem hg member
  refine (pairs.bind wf (k := fun fs s => s.conj fs) fun hs s' grows each =>
    (grows.wellFormed wf).junction_rebuilds each).congr wf fun t later => ?_
  unfold distribute
  rw [later.conjuncts_eq hf, later.conjuncts_eq hg]

theorem cnfSum_retraces {s₀ : Store} (wf : s₀.WellFormed)
    (each : ∀ f ∈ fs, ∀ s, Grows s₀ s → Retraces (cnfFrom f) s) {s : Store} (before : Grows s₀ s)
    (known : f ∈ s) : Retraces (fun s memo => cnfSum fs (f, s, memo)) s := by
  induction fs generalizing s f with
  | nil => exact Retraces.build (before.wellFormed wf) (b := fun s => (f, s)) (.pure known)
  | cons g gs ih =>
    have wf' := before.wellFormed wf
    refine Retraces.bind wf' (each g (by simp) s before) (k := fun h s memo =>
      cnfSum gs ((s.distribute f h).1, (s.distribute f h).2, memo)) fun h s' grows held => ?_
    have wf'' := grows.wellFormed wf'
    refine Retraces.bind wf'' (m := fun s memo => ((s.distribute f h).1, (s.distribute f h).2, memo))
      (k := fun sum s memo => cnfSum gs (sum, s, memo))
      (Retraces.build wf'' (distribute_rebuilds wf'' ((grows.later wf').mem known) held))
      fun sum s'' grows' held' => ?_
    exact ih (fun k member => each k (List.mem_cons_of_mem g member))
      ((before.trans grows).trans grows') held'

theorem cnfFrom_retraces (wf : s.WellFormed) (known : f ∈ s) : Retraces (cnfFrom f) s := by
  induction size : f.id using Nat.strongRecOn generalizing f s with
  | ind k ih =>
    have below : ∀ g ∈ (s.node f).children, ∀ s', Grows s s' → Retraces (cnfFrom g) s' :=
      fun g child s' grows => ih g.id (size ▸ s.child_lt child) (grows.wellFormed wf)
        ((grows.later wf).mem (child_mem known child)) rfl
    refine Retraces.memoized (n := fun t memo => cnfNode f t memo (s.node f)) (i := f) wf
      (fun t memo g found => ?_) (fun t memo later fresh => ?_) ?_
    · rw [cnfFrom]
      simp only [found]
    · rw [cnfFrom_fresh fresh, later.node_eq known]
    · cases shape : s.node f with
      | falsum | verum | lit | not | implies | equiv =>
        exact Retraces.build wf (b := fun s => (f, s)) (.pure known)
      | and fs => exact junctionOf_retraces wf fun g member s' => below g (by rwa [shape]) s'
      | or fs =>
        exact cnfSum_retraces wf (fun g member s' => below g (by rwa [shape]) s') (Grows.refl s)
          wf.falsum_mem

/-! Restriction. -/

theorem restrict_pair_retraces {ls : List Lit} {a b : Formula} (wf : s.WellFormed)
    (below : ∀ g ∈ [a, b], ∀ s', Grows s s' → Retraces (restrictFrom ls g) s')
    {build : Store → Formula → Formula → Formula × Store}
    (builds : ∀ s' x y, s'.WellFormed → x ∈ s' → y ∈ s' → Rebuilds (build · x y) s') :
    Retraces (fun s memo =>
      let x := restrictFrom ls a s memo
      let y := restrictFrom ls b x.2.1 x.2.2
      ((build y.2.1 x.1 y.1).1, (build y.2.1 x.1 y.1).2, y.2.2)) s := by
  refine Retraces.bind wf (below a (by simp) s (Grows.refl s)) (k := fun x s memo =>
    let y := restrictFrom ls b s memo
    ((build y.2.1 x y.1).1, (build y.2.1 x y.1).2, y.2.2)) fun x s' grows left => ?_
  have wf' := grows.wellFormed wf
  refine Retraces.bind wf' (below b (by simp) s' grows)
    (k := fun y s memo => ((build s x y).1, (build s x y).2, memo)) fun y s'' grows' right => ?_
  have wf'' := grows'.wellFormed wf'
  exact Retraces.build wf'' (builds s'' x y wf'' ((grows'.later wf').mem left) right)

theorem restrictFrom_retraces {ls : List Lit} (wf : s.WellFormed) (known : f ∈ s) :
    Retraces (restrictFrom ls f) s := by
  induction size : f.id using Nat.strongRecOn generalizing f s with
  | ind k ih =>
    have below : ∀ g ∈ (s.node f).children, ∀ s', Grows s s' → Retraces (restrictFrom ls g) s' :=
      fun g child s' grows => ih g.id (size ▸ s.child_lt child) (grows.wellFormed wf)
        ((grows.later wf).mem (child_mem known child)) rfl
    have constant {g : Formula} (held : g ∈ s) :
        Retraces (fun s (memo : Memo) => (g, s, memo)) s :=
      Retraces.build wf (b := fun s => (g, s)) (.pure held)
    refine Retraces.memoized (n := fun t memo => restrictNode ls f t memo (s.node f)) (i := f) wf
      (fun t memo g found => ?_) (fun t memo later fresh => ?_) ?_
    · rw [restrictFrom]
      simp only [found]
    · rw [restrictFrom_fresh fresh, later.node_eq known]
    · cases shape : s.node f with
      | falsum | verum => exact constant known
      | lit l =>
        simp only [restrictNode]
        split_ifs
        · exact constant wf.verum_mem
        · exact constant wf.falsum_mem
        · exact constant known
      | not g =>
        refine Retraces.bind wf (below g (by simp [shape, Node.children]) s (Grows.refl s))
          (k := fun h s memo => ((s.neg h).1, (s.neg h).2, memo)) fun h s' grows held => ?_
        exact Retraces.build (grows.wellFormed wf) ((grows.wellFormed wf).neg_rebuilds held)
      | and fs => exact junctionOf_retraces wf fun g member s' => below g (by rwa [shape]) s'
      | or fs => exact junctionOf_retraces wf fun g member s' => below g (by rwa [shape]) s'
      | implies a b =>
        exact restrict_pair_retraces wf (fun g member => below g (by rwa [shape]))
          fun s' x y wf' hx hy => wf'.implies_rebuilds hx hy
      | equiv a b =>
        exact restrict_pair_retraces wf (fun g member => below g (by rwa [shape]))
          fun s' x y wf' hx hy => wf'.equiv_rebuilds hx hy

theorem WellFormed.restrict_rebuilds (wf : s.WellFormed) (known : f ∈ s) (ls : List Lit) :
    Rebuilds (·.restrict f ls) s :=
  (restrictFrom_retraces wf known ∅ (by simp [Remembers])).bind wf (k := fun r s => (r.1, s))
    fun _ _ _ kept => .pure kept.1

end Store

end ModelCounting
