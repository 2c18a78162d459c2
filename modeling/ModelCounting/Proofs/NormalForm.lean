import ModelCounting.NormalForm.Restriction
import ModelCounting.Proofs.Answer
import ModelCounting.Proofs.History

/-!
Normal forms mean what the formula means. The three conversions (negation normal form, conjunctive
normal form, restriction) go down a formula with a memo of the results so far; each is correct
because the memo only holds correct results and stays so while the store grows.
-/

namespace ModelCounting

namespace Store

variable {s s' s'' : Store} {c : Connective} {f g : Formula} {fs gs : List Formula}

/-! Memoized conversions. -/

section Conversion

variable {M : Type} {good : Store → M → Prop}

structure Converts (right : Store → Formula → Prop) (good : Store → M → Prop) (s : Store)
    (r : Formula × Store × M) : Prop where
  grows : Grows s r.2.1
  good : good r.2.1 r.2.2
  right : right r.2.1 r.1

def Remembers {K : Type} [Ord K] (right : K → Store → Formula → Prop) (s : Store)
    (memo : Std.TreeMap K Formula) : Prop :=
  ∀ k g, memo[k]? = some g → right k s g

theorem Remembers.mono {K : Type} [Ord K] {right : K → Store → Formula → Prop}
    {memo : Std.TreeMap K Formula} (good : Remembers right s memo)
    (stable : ∀ k g, right k s g → right k s' g) : Remembers right s' memo :=
  fun k g found => stable k g (good k g found)

theorem Remembers.insert {K : Type} [Ord K] [Std.TransOrd K] [Std.LawfulEqOrd K]
    {right : K → Store → Formula → Prop} {memo : Std.TreeMap K Formula}
    (good : Remembers right s memo) {k : K} (new : right k s g) :
    Remembers right s (memo.insert k g) := by
  intro k' g' found
  rw [Std.TreeMap.getElem?_insert] at found
  split at found
  · rename_i same
    cases Std.LawfulEqOrd.eq_of_compare same
    cases Option.some.inj found
    exact new
  · exact good k' g' found

def collect (step : Formula → Store → M → Formula × Store × M) (fs : List Formula)
    (start : List Formula × Store × M) : List Formula × Store × M :=
  fs.foldl (fun r f => ((step f r.2.1 r.2.2).1 :: r.1, (step f r.2.1 r.2.2).2)) start

theorem collect_attach (step : Formula → Store → M → Formula × Store × M) (fs : List Formula)
    (start : List Formula × Store × M) :
    fs.attach.foldl (fun r g => ((step g.1 r.2.1 r.2.2).1 :: r.1, (step g.1 r.2.1 r.2.2).2.1,
      (step g.1 r.2.1 r.2.2).2.2)) start = collect step fs start := by
  unfold collect
  exact List.foldl_attach (f := fun r g => ((step g r.2.1 r.2.2).1 :: r.1, (step g r.2.1 r.2.2).2))

theorem collect_converts (right : Formula → Store → Formula → Prop)
    {step : Formula → Store → M → Formula × Store × M} {s₀ : Store}
    (stable : ∀ f s s' g, Extends s s' → f ∈ s → right f s g → right f s' g)
    (wf : s₀.WellFormed) (known : ∀ f ∈ fs, f ∈ s₀)
    (each : ∀ f ∈ fs, ∀ s memo, Grows s₀ s → good s memo →
      Converts (right f) good s (step f s memo))
    {s : Store} {memo : M} (before : Grows s₀ s) (start : good s memo) (acc : List Formula) :
    ∃ hs, (collect step fs (acc, s, memo)).1 = hs.reverse ++ acc ∧
      Grows s (collect step fs (acc, s, memo)).2.1 ∧
      good (collect step fs (acc, s, memo)).2.1 (collect step fs (acc, s, memo)).2.2 ∧
      List.Forall₂ (fun f h => right f (collect step fs (acc, s, memo)).2.1 h) fs hs := by
  induction fs generalizing s memo acc with
  | nil => exact ⟨[], rfl, Grows.refl s, start, .nil⟩
  | cons f fs ih =>
    have first := each f (by simp) s memo before start
    have wf' := before.wellFormed wf
    obtain ⟨hs, run, grows, good, rest⟩ := ih (fun g hg => known g (List.mem_cons_of_mem f hg))
      (fun g hg => each g (List.mem_cons_of_mem f hg)) (before.trans first.grows) first.good
      ((step f s memo).1 :: acc)
    have later := grows.later (first.grows.wellFormed wf')
    have present : f ∈ (step f s memo).2.1 :=
      ((before.trans first.grows).later wf).mem (known f (by simp))
    refine ⟨(step f s memo).1 :: hs, ?_, first.grows.trans grows, good, .cons ?_ rest⟩
    · simpa [collect] using run
    · exact stable f _ _ _ later present first.right

end Conversion

theorem holds_forall₂ {p q : Formula → Bool} (same : List.Forall₂ (fun f g => q g = p f) fs gs) :
    c.holds q gs = c.holds p fs := by
  apply c.eq_of_deciding_iff
  rw [Connective.holds_eq_deciding, Connective.holds_eq_deciding]
  induction same with
  | nil => simp
  | cons head _ ih =>
    simp only [List.mem_cons, exists_eq_or_imp, ih]
    rw [head]

structure Means (meaning : (Var → Bool) → Bool) (scope : Var → Prop) (s : Store) (g : Formula) :
    Prop where
  mem : g ∈ s
  eval_eq : ∀ value, s.eval value g = meaning value
  vars_sub : ∀ v ∈ s.vars g, scope v

section Means

variable {meaning meaning' : (Var → Bool) → Bool} {scope scope' : Var → Prop}

theorem Builds.means {r : Formula × Store} (builds : Builds s r meaning scope) :
    Means meaning scope r.2 r.1 :=
  ⟨builds.mem, builds.eval_eq, builds.vars_sub⟩

theorem Means.later (means : Means meaning scope s g) (later : Extends s s') :
    Means meaning scope s' g := by
  refine ⟨later.mem means.mem, fun value => ?_, ?_⟩
  · rw [later.eval_eq means.mem]
    exact means.eval_eq value
  · rw [later.vars_eq means.mem]
    exact means.vars_sub

theorem Means.mono (means : Means meaning scope s g)
    (same : ∀ value, meaning value = meaning' value) (wider : ∀ v, scope v → scope' v) :
    Means meaning' scope' s g :=
  ⟨means.mem, fun value => (means.eval_eq value).trans (same value),
    fun v h => wider v (means.vars_sub v h)⟩

end Means

/-! Negation normal form. -/

theorem WellFormed.isNnf_constant (wf : s.WellFormed) (constant : f.isConstant = true) :
    s.isNnf f = true := by
  rw [isNnf_node]
  rcases wf.node_constant constant with shape | shape <;> rw [shape] <;> rfl

theorem WellFormed.isNnf_flatten (wf : s.WellFormed) (c : Connective) (f : Formula) :
    s.isNnf f = true ↔ ∀ o ∈ s.flatten c f, s.isNnf o = true := by
  by_cases neutral : f = c.neutral
  · simp [neutral, flatten_neutral, wf.isNnf_constant ((isConstant_iff c).mpr (.inl rfl))]
  · rcases s.flatten_cases c neutral with ⟨gs, shape, flat⟩ | ⟨_, flat⟩
    · rw [flat, isNnf_node, shape]
      cases c <;> simp [Connective.node, Node.isNnf]
    · simp [flat]

theorem Joined.isNnf (joined : Joined s c fs g s') (wf : s.WellFormed) (known : ∀ f ∈ fs, f ∈ s)
    (each : ∀ f ∈ fs, s.isNnf f = true) : s'.isNnf g = true := by
  by_cases decided : s.Decided c fs
  · rw [joined.decided decided]
    exact joined.wellFormed.isNnf_constant ((isConstant_iff c).mpr (.inr rfl))
  · rw [joined.wellFormed.isNnf_flatten c, joined.flatten_eq decided]
    intro o operand
    obtain ⟨f, hf, flat⟩ := mem_operandsOf.mp operand
    rw [joined.later.isNnf_eq (wf.flatten_proper (known f hf) flat).1]
    exact (wf.isNnf_flatten c f).mp (each f hf) o flat

structure MeansNnf (meaning : (Var → Bool) → Bool) (scope : Var → Prop) (s : Store) (g : Formula) :
    Prop extends Means meaning scope s g where
  isNnf : s.isNnf g = true

theorem MeansNnf.later {meaning : (Var → Bool) → Bool} {scope : Var → Prop}
    (means : MeansNnf meaning scope s g) (later : Extends s s') : MeansNnf meaning scope s' g := by
  refine ⟨means.toMeans.later later, ?_⟩
  rw [later.isNnf_eq means.mem]
  exact means.isNnf

theorem MeansNnf.mono {meaning meaning' : (Var → Bool) → Bool} {scope scope' : Var → Prop}
    (means : MeansNnf meaning scope s g) (same : ∀ value, meaning value = meaning' value)
    (wider : ∀ v, scope v → scope' v) : MeansNnf meaning' scope' s g :=
  ⟨means.toMeans.mono same wider, means.isNnf⟩

theorem WellFormed.junction_meansNnf {scope : Var → Prop} (wf : s.WellFormed)
    (parts : ∀ g ∈ gs, ∃ meaning, MeansNnf meaning scope s g) :
    Grows s (s.junction c gs).2 ∧
      MeansNnf (fun value => c.holds (s.eval value) gs) scope (s.junction c gs).2
        (s.junction c gs).1 := by
  have present : ∀ g ∈ gs, g ∈ s := fun g hg => by
    obtain ⟨_, means⟩ := parts g hg
    exact means.mem
  have builds := wf.junction_builds (c := c) present
  refine ⟨builds.grows, builds.means.mono (fun _ => rfl) ?_, ?_⟩
  · rintro v ⟨g, hg, inside⟩
    obtain ⟨_, means⟩ := parts g hg
    exact means.vars_sub v inside
  · refine (wf.junction_joined present).isNnf wf present fun g hg => ?_
    obtain ⟨_, means⟩ := parts g hg
    exact means.isNnf

theorem WellFormed.conj_disj_meansNnf {scope : Var → Prop} {hs : List Formula} (wf : s.WellFormed)
    (first : ∀ g ∈ gs, ∃ meaning, MeansNnf meaning scope s g)
    (second : ∀ h ∈ hs, ∃ meaning, MeansNnf meaning scope s h) :
    let x := s.disj gs
    let y := x.2.disj hs
    let z := y.2.conj [x.1, y.1]
    Grows s z.2 ∧ MeansNnf (fun value => Connective.disj.holds (s.eval value) gs &&
      Connective.disj.holds (s.eval value) hs) scope z.2 z.1 := by
  intro x y z
  have left := wf.junction_meansNnf (c := .disj) first
  have wf₁ := left.1.wellFormed wf
  have right := wf₁.junction_meansNnf (c := .disj) fun h hh => by
    obtain ⟨meaning, means⟩ := second h hh
    exact ⟨meaning, means.later (left.1.later wf)⟩
  have wf₂ := right.1.wellFormed wf₁
  have leftAfter := left.2.later (right.1.later wf₁)
  have parts : ∀ h ∈ [x.1, y.1], ∃ meaning, MeansNnf meaning scope y.2 h := by
    simp only [List.mem_cons, List.not_mem_nil, or_false, forall_eq_or_imp, forall_eq]
    exact ⟨⟨_, leftAfter⟩, ⟨_, right.2⟩⟩
  have both := wf₂.junction_meansNnf (c := .conj) parts
  refine ⟨(left.1.trans right.1).trans both.1, both.2.mono (fun value => ?_) fun v h => h⟩
  have known : Connective.disj.holds (x.2.eval value) hs = Connective.disj.holds (s.eval value) hs :=
    Connective.holds_congr fun h hh => by
      obtain ⟨_, means⟩ := second h hh
      exact (left.1.later wf).eval_eq means.mem value
  have x_eq : y.2.eval value x.1 = _ := leftAfter.eval_eq value
  have y_eq : y.2.eval value y.1 = _ := right.2.eval_eq value
  show Connective.conj.holds (y.2.eval value) [x.1, y.1] = _
  simp only [Connective.holds, List.all_cons, List.all_nil, Bool.and_true, x_eq, y_eq]
  exact congrArg _ known

def Normal (positive : Bool) (f : Formula) (s : Store) (g : Formula) : Prop :=
  MeansNnf (fun value => s.eval value f == positive) (· ∈ s.vars f) s g

theorem Normal.later {p : Bool} (normal : Normal p f s g) (later : Extends s s')
    (known : f ∈ s) : Normal p f s' g := by
  refine (MeansNnf.later normal later).mono (fun value => ?_) (fun v => ?_)
  · rw [later.eval_eq known]
  · rw [later.vars_eq known]
    exact id

theorem MeansNnf.normal {p : Bool} {meaning : (Var → Bool) → Bool}
    (means : MeansNnf meaning (· ∈ s.vars f) s' g) (known : f ∈ s) (later : Extends s s')
    (same : ∀ value, meaning value = (s.eval value f == p)) : Normal p f s' g := by
  refine means.mono (fun value => ?_) (fun v => ?_)
  · rw [later.eval_eq known]
    exact same value
  · rw [later.vars_eq known]
    exact id

def NormalMemo (s : Store) (memo : PolarityMemo) : Prop :=
  Remembers (fun k s g => k.1 ∈ s ∧ Normal k.2 k.1 s g) s memo

theorem NormalMemo.later {memo : PolarityMemo} (good : NormalMemo s memo) (later : Extends s s') :
    NormalMemo s' memo :=
  Remembers.mono good fun _ _ ⟨known, normal⟩ => ⟨later.mem known, normal.later later known⟩

theorem holds_under (c : Connective) (p : Bool) (q : Formula → Bool) (fs : List Formula) :
    (c.under p).holds (fun f => q f == p) fs = (c.holds q fs == p) := by
  cases c <;> cases p <;>
    simp [Connective.under, Connective.dual, Connective.holds, List.not_all_eq_any_not,
      List.not_any_eq_all_not]

def junctionOf {M : Type} (c : Connective) (r : List Formula × Store × M) : Formula × Store × M :=
  ((r.2.1.junction c r.1.reverse).1, (r.2.1.junction c r.1.reverse).2, r.2.2)

/-- The conversion of one node, given that of its operands. -/
def nnfNode (f : Formula) (p : Bool) (s : Store) (memo : PolarityMemo) :
    Node → Formula × Store × PolarityMemo
  | .falsum | .verum | .lit _ => if p then (f, s, memo) else ((s.neg f).1, (s.neg f).2, memo)
  | .not g => nnfFrom g (!p) s memo
  | .and fs => junctionOf (Connective.conj.under p) (collect (nnfFrom · p) fs ([], s, memo))
  | .or fs => junctionOf (Connective.disj.under p) (collect (nnfFrom · p) fs ([], s, memo))
  | .implies a b =>
    let (x, s, memo) := nnfFrom a (!p) s memo
    let (y, s, memo) := nnfFrom b p s memo
    junctionOf (Connective.disj.under p) ([y, x], s, memo)
  | .equiv a b =>
    let (posA, s, memo) := nnfFrom a true s memo
    let (negA, s, memo) := nnfFrom a false s memo
    let (posB, s, memo) := nnfFrom b true s memo
    let (negB, s, memo) := nnfFrom b false s memo
    let (x, s) := s.disj (if p then [negA, posB] else [posA, posB])
    let (y, s) := s.disj (if p then [posA, negB] else [negA, negB])
    let (g, s) := s.conj [x, y]
    (g, s, memo)

theorem nnfFrom_fresh {p : Bool} {memo : PolarityMemo} (fresh : memo[(f, p)]? = none) :
    nnfFrom f p s memo =
      ((nnfNode f p s memo (s.node f)).1, (nnfNode f p s memo (s.node f)).2.1,
        (nnfNode f p s memo (s.node f)).2.2.insert (f, p) (nnfNode f p s memo (s.node f)).1) := by
  rw [nnfFrom]
  simp only [fresh, collect_attach (nnfFrom · p)]
  split <;> rename_i shape <;> simp only [shape, nnfNode] <;> rfl

theorem isNnf_atomic (atomic : (s.node f).isAtomic = true) : s.isNnf f = true := by
  rw [isNnf_node]
  cases shape : s.node f <;> simp_all [Node.isAtomic, Node.isNnf]

theorem WellFormed.neg_atomic (wf : s.WellFormed) (known : f ∈ s)
    (atomic : (s.node f).isAtomic = true) : Normal false f (s.neg f).2 (s.neg f).1 := by
  have later := (wf.neg_produces known).later
  refine ⟨(wf.neg_builds known).means.mono (fun value => ?_) (fun v => ?_), ?_⟩
  · rw [later.eval_eq known]
    simp
  · rw [later.vars_eq known]
    exact id
  · rcases s.neg_cases f with ⟨_, run⟩ | ⟨_, run⟩ | ⟨l, shape, run⟩ | ⟨g, shape, _⟩ | ⟨shape, _⟩
    · rw [run]
      exact wf.isNnf_constant rfl
    · rw [run]
      exact wf.isNnf_constant rfl
    · rw [run]
      have interned := wf.lit_interned (neg_word (wf.lit_word known shape))
      exact isNnf_atomic (by rw [interned.node_eq]; rfl)
    · simp [shape, Node.isAtomic] at atomic
    · cases h : s.node f <;> simp [h, Node.isAtomic, Node.isCompound] at atomic shape

section Node

variable {p : Bool} {memo : PolarityMemo}

theorem nnf_atom (wf : s.WellFormed) (known : f ∈ s) (good : NormalMemo s memo)
    (atomic : (s.node f).isAtomic = true) :
    Converts (Normal p f) NormalMemo s
      (if p then (f, s, memo) else ((s.neg f).1, (s.neg f).2, memo)) := by
  cases p with
  | true =>
    refine ⟨Grows.refl s, good, ⟨(Builds.known known).means.mono (fun value => ?_) fun v h => h,
      isNnf_atomic atomic⟩⟩
    simp
  | false =>
    exact ⟨(Step.neg s known).grows, good.later (wf.neg_produces known).later,
      wf.neg_atomic known atomic⟩

theorem nnf_operands (wf : s.WellFormed) (known : f ∈ s) (good : NormalMemo s memo)
    (shape : s.node f = c.node fs)
    (below : ∀ g ∈ fs, ∀ s' memo', Grows s s' → NormalMemo s' memo' →
      Converts (Normal p g) NormalMemo s' (nnfFrom g p s' memo')) :
    Converts (Normal p f) NormalMemo s
      (junctionOf (c.under p) (collect (nnfFrom · p) fs ([], s, memo))) := by
  have children : (s.node f).children = fs := by rw [shape, Connective.node_children]
  obtain ⟨hs, results, grows, good', parts⟩ := collect_converts (Normal p)
    (fun _ _ _ _ later known normal => normal.later later known) wf
    (fun g hg => child_mem known (by rwa [children])) below (Grows.refl s) good []
  generalize collect (nnfFrom · p) fs ([], s, memo) = r at *
  have wf' := grows.wellFormed wf
  have later := grows.later wf
  have present := later.mem known
  rw [← later.node_eq known] at shape children
  have each : ∀ h ∈ hs, ∃ meaning, MeansNnf meaning (· ∈ r.2.1.vars f) r.2.1 h := by
    intro h hh
    obtain ⟨g, hg, normal⟩ := forall₂_mem_right parts h hh
    exact ⟨_, normal.mono (fun _ => rfl) fun v => wf'.vars_child present (by rwa [children])⟩
  have joined := wf'.junction_meansNnf (c := c.under p) each
  have after := joined.1.later wf'
  simp only [List.append_nil] at results
  unfold junctionOf
  rw [results, List.reverse_reverse]
  refine ⟨grows.trans joined.1, good'.later after, joined.2.normal present after fun value => ?_⟩
  rw [eval_node _ _ f, shape, Connective.node_eval, ← holds_under]
  exact holds_forall₂ (parts.imp fun _ _ normal => normal.eval_eq value)

theorem nnf_implies {a b : Formula} (wf : s.WellFormed) (known : f ∈ s) (good : NormalMemo s memo)
    (shape : s.node f = .implies a b)
    (below : ∀ g ∈ [a, b], ∀ q s' memo', Grows s s' → NormalMemo s' memo' →
      Converts (Normal q g) NormalMemo s' (nnfFrom g q s' memo')) :
    Converts (Normal p f) NormalMemo s (nnfNode f p s memo (.implies a b)) := by
  have left := below a (by simp) (!p) s memo (Grows.refl s) good
  have right := below b (by simp) p _ _ left.grows left.good
  have children : (s.node f).children = [a, b] := by rw [shape]; rfl
  have wf₁ := left.grows.wellFormed wf
  have wf₂ := right.grows.wellFormed wf₁
  have later := (left.grows.trans right.grows).later wf
  have x := left.right.later (right.grows.later wf₁)
    ((left.grows.later wf).mem (child_mem known (by simp [children])))
  have y := right.right
  have present := later.mem known
  have grows := left.grows.trans right.grows
  have good' := right.good
  rw [← later.node_eq known] at shape children
  simp only [nnfNode, junctionOf]
  generalize (nnfFrom a (!p) s memo).1 = g at *
  generalize nnfFrom b p (nnfFrom a (!p) s memo).2.1 (nnfFrom a (!p) s memo).2.2 = r at *
  have each : ∀ h ∈ [g, r.1], ∃ meaning, MeansNnf meaning (· ∈ r.2.1.vars f) r.2.1 h := by
    intro h hh
    simp only [List.mem_cons, List.not_mem_nil, or_false] at hh
    rcases hh with rfl | rfl
    · exact ⟨_, x.mono (fun _ => rfl) fun v => wf₂.vars_child present (by simp [children])⟩
    · exact ⟨_, y.mono (fun _ => rfl) fun v => wf₂.vars_child present (by simp [children])⟩
  have joined := wf₂.junction_meansNnf (c := Connective.disj.under p) each
  have after := joined.1.later wf₂
  refine ⟨grows.trans joined.1, good'.later after, joined.2.normal present after fun value => ?_⟩
  have := x.eval_eq value
  have := y.eval_eq value
  rw [eval_node _ _ f, shape]
  cases p <;> simp_all [Connective.under, Connective.dual, Connective.holds, Node.eval]

theorem nnf_equiv {a b : Formula} (wf : s.WellFormed) (known : f ∈ s) (good : NormalMemo s memo)
    (shape : s.node f = .equiv a b)
    (below : ∀ g ∈ [a, b], ∀ q s' memo', Grows s s' → NormalMemo s' memo' →
      Converts (Normal q g) NormalMemo s' (nnfFrom g q s' memo')) :
    Converts (Normal p f) NormalMemo s (nnfNode f p s memo (.equiv a b)) := by
  have children : (s.node f).children = [a, b] := by rw [shape]; rfl
  have knownA : a ∈ s := child_mem known (by simp [children])
  have knownB : b ∈ s := child_mem known (by simp [children])
  -- the four runs, one after the other
  have run₁ := below a (by simp) true s memo (Grows.refl s) good
  have run₂ := below a (by simp) false _ _ run₁.grows run₁.good
  have run₃ := below b (by simp) true _ _ (run₁.grows.trans run₂.grows) run₂.good
  have run₄ := below b (by simp) false _ _ ((run₁.grows.trans run₂.grows).trans run₃.grows) run₃.good
  simp only [nnfNode]
  generalize nnfFrom a true s memo = r₁ at *
  generalize nnfFrom a false r₁.2.1 r₁.2.2 = r₂ at *
  generalize nnfFrom b true r₂.2.1 r₂.2.2 = r₃ at *
  generalize nnfFrom b false r₃.2.1 r₃.2.2 = r₄ at *
  have wf₁ := run₁.grows.wellFormed wf
  have wf₂ := run₂.grows.wellFormed wf₁
  have wf₃ := run₃.grows.wellFormed wf₂
  have wf₄ := run₄.grows.wellFormed wf₃
  have grows := ((run₁.grows.trans run₂.grows).trans run₃.grows).trans run₄.grows
  have later := grows.later wf
  have posA := run₁.right.later (((run₂.grows.trans run₃.grows).trans run₄.grows).later wf₁)
    ((run₁.grows.later wf).mem knownA)
  have negA := run₂.right.later ((run₃.grows.trans run₄.grows).later wf₂)
    (((run₁.grows.trans run₂.grows).later wf).mem knownA)
  have posB := run₃.right.later (run₄.grows.later wf₃)
    ((((run₁.grows.trans run₂.grows).trans run₃.grows).later wf).mem knownB)
  have negB := run₄.right
  have present := later.mem known
  rw [← later.node_eq known] at shape children
  have part {h d : Formula} {q : Bool} (normal : Normal q d r₄.2.1 h) (operand : d ∈ [a, b]) :
      ∃ meaning, MeansNnf meaning (· ∈ r₄.2.1.vars f) r₄.2.1 h :=
    ⟨_, normal.mono (fun _ => rfl) fun v => wf₄.vars_child present (by rwa [children])⟩
  have first : ∀ h ∈ (if p then [r₂.1, r₃.1] else [r₁.1, r₃.1]),
      ∃ meaning, MeansNnf meaning (· ∈ r₄.2.1.vars f) r₄.2.1 h := by
    cases p <;> simp [part posA, part negA, part posB]
  have second : ∀ h ∈ (if p then [r₁.1, r₄.1] else [r₂.1, r₄.1]),
      ∃ meaning, MeansNnf meaning (· ∈ r₄.2.1.vars f) r₄.2.1 h := by
    cases p <;> simp [part posA, part negA, part negB]
  have joined := wf₄.conj_disj_meansNnf first second
  have after := joined.1.later wf₄
  refine ⟨grows.trans joined.1, run₄.good.later after, joined.2.normal present after fun value => ?_⟩
  have := posA.eval_eq value
  have := negA.eval_eq value
  have := posB.eval_eq value
  have := negB.eval_eq value
  rw [eval_node _ _ f, shape, Node.eval]
  cases p <;> cases va : r₄.2.1.eval value a <;> cases vb : r₄.2.1.eval value b <;>
    simp_all [Connective.holds]

end Node

theorem nnfFrom_converts (wf : s.WellFormed) (known : f ∈ s) (p : Bool) {memo : PolarityMemo}
    (good : NormalMemo s memo) : Converts (Normal p f) NormalMemo s (nnfFrom f p s memo) := by
  induction size : f.id using Nat.strongRecOn generalizing f p s memo with
  | ind k ih =>
    cases fresh : memo[(f, p)]? with
    | some g =>
      rw [nnfFrom]
      simp only [fresh]
      exact ⟨Grows.refl s, good, (good (f, p) g fresh).2⟩
    | none =>
      have below : ∀ g ∈ (s.node f).children, ∀ q s' memo', Grows s s' → NormalMemo s' memo' →
          Converts (Normal q g) NormalMemo s' (nnfFrom g q s' memo') :=
        fun g child q s' memo' grows good' => ih g.id (size ▸ s.child_lt child)
          (grows.wellFormed wf) ((grows.later wf).mem (child_mem known child)) q good' rfl
      have node : Converts (Normal p f) NormalMemo s (nnfNode f p s memo (s.node f)) := by
        cases shape : s.node f with
        | falsum | verum | lit => exact nnf_atom wf known good (by rw [shape]; rfl)
        | not g =>
          have child : g ∈ (s.node f).children := by simp [shape, Node.children]
          have run := below g child (!p) s memo (Grows.refl s) good
          have later := run.grows.later wf
          have wf' := run.grows.wellFormed wf
          have present := later.mem known
          rw [← later.node_eq known] at shape child
          refine ⟨run.grows, run.good, MeansNnf.normal (run.right.mono (fun _ => rfl)
            fun v => wf'.vars_child present child) present (Extends.refl _) fun value => ?_⟩
          rw [eval_node _ _ f, shape, Node.eval]
          cases p <;> cases (nnfFrom g _ s memo).2.1.eval value g <;> rfl
        | and fs =>
          exact nnf_operands (c := .conj) wf known good shape fun g hg =>
            below g (by rwa [shape]) p
        | or fs =>
          exact nnf_operands (c := .disj) wf known good shape fun g hg =>
            below g (by rwa [shape]) p
        | implies a b =>
          exact nnf_implies wf known good shape fun g hg => below g (by rwa [shape])
        | equiv a b => exact nnf_equiv wf known good shape fun g hg => below g (by rwa [shape])
      rw [nnfFrom_fresh fresh]
      exact ⟨node.grows, node.good.insert ⟨(node.grows.later wf).mem known, node.right⟩, node.right⟩

theorem WellFormed.nnf_normal (wf : s.WellFormed) (known : f ∈ s) :
    Grows s (s.nnf f).2 ∧ Normal true f (s.nnf f).2 (s.nnf f).1 := by
  have start : NormalMemo s ∅ := fun k g found => by simp at found
  have run := nnfFrom_converts wf known true start
  exact ⟨run.grows, run.right⟩

end Store

end ModelCounting
