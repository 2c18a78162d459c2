import Mathlib.Data.List.Pairwise
import ModelCounting.Proofs.NormalForm

/-!
Circuits: what holds at every node below a formula. A formula is deterministic if the operands of
each disjunction below it exclude each other, and decomposable if the operands of each conjunction
share no variable. The constructors keep both under conditions on their operands, although they
flatten, fold and share.
-/

namespace ModelCounting

namespace Store

variable {s s' : Store} {c : Connective} {f g : Formula} {fs gs : List Formula}

/-- The second formula occurs in the first. -/
def Below (s : Store) : Formula → Formula → Prop :=
  Relation.ReflTransGen fun f g => g ∈ (s.node f).children

/-- No values of the variables satisfy both. -/
def Exclusive (s : Store) (f g : Formula) : Prop :=
  ∀ value, ¬ (s.eval value f = true ∧ s.eval value g = true)

instance (s : Store) : Std.Symm s.Exclusive :=
  ⟨fun _ _ exclusive value both => exclusive value both.symm⟩

def Apart (s : Store) (f g : Formula) : Prop := ∀ v ∈ s.vars f, v ∉ s.vars g

instance (s : Store) : Std.Symm s.Apart :=
  ⟨fun _ _ apart v here there => apart v there here⟩

/-- At every disjunction below the formula, no values satisfy two different operands. -/
def Deterministic (s : Store) (f : Formula) : Prop :=
  ∀ g, s.Below f g → ∀ fs, s.node g = .or fs → ∀ a ∈ fs, ∀ b ∈ fs, a ≠ b → s.Exclusive a b

/-- At every conjunction below the formula, the operands have pairwise disjoint variables. -/
def Decomposable (s : Store) (f : Formula) : Prop :=
  ∀ g, s.Below f g → ∀ fs, s.node g = .and fs → fs.Pairwise s.Apart

/-! Properties of all nodes. -/

theorem below_iff : s.Below f g ↔ g = f ∨ ∃ c ∈ (s.node f).children, s.Below c g := by
  constructor
  · intro below
    rcases Relation.ReflTransGen.cases_head below with rfl | ⟨c, child, rest⟩
    · exact .inl rfl
    · exact .inr ⟨c, child, rest⟩
  · rintro (rfl | ⟨c, child, rest⟩)
    · exact .refl
    · exact .head child rest

theorem below_mem (known : f ∈ s) (below : s.Below f g) : g ∈ s := by
  induction below with
  | refl => exact known
  | tail _ child ih => exact child_mem ih child

theorem Extends.below_iff (later : Extends s s') (known : f ∈ s) : s'.Below f g ↔ s.Below f g := by
  constructor
  · intro below
    induction below with
    | refl => exact .refl
    | tail _ child ih =>
      rw [later.node_eq (below_mem known ih)] at child
      exact .tail ih child
  · intro below
    induction below with
    | refl => exact .refl
    | tail rest child ih =>
      rw [← later.node_eq (below_mem known rest)] at child
      exact .tail ih child

theorem deterministic_iff : s.Deterministic f ↔
    (∀ fs, s.node f = .or fs → ∀ a ∈ fs, ∀ b ∈ fs, a ≠ b → s.Exclusive a b) ∧
      ∀ c ∈ (s.node f).children, s.Deterministic c := by
  constructor
  · intro deterministic
    refine ⟨deterministic f .refl, fun c child g below => ?_⟩
    exact deterministic g (.head child below)
  · rintro ⟨here, rest⟩ g below
    rcases s.below_iff.mp below with rfl | ⟨c, child, below⟩
    · exact here
    · exact rest c child g below

theorem decomposable_iff : s.Decomposable f ↔
    (∀ fs, s.node f = .and fs → fs.Pairwise s.Apart) ∧
      ∀ c ∈ (s.node f).children, s.Decomposable c := by
  constructor
  · intro decomposable
    refine ⟨decomposable f .refl, fun c child g below => ?_⟩
    exact decomposable g (.head child below)
  · rintro ⟨here, rest⟩ g below
    rcases s.below_iff.mp below with rfl | ⟨c, child, below⟩
    · exact here
    · exact rest c child g below

theorem Extends.exclusive_iff (later : Extends s s') (hf : f ∈ s) (hg : g ∈ s) :
    s'.Exclusive f g ↔ s.Exclusive f g := by
  unfold Exclusive
  exact forall_congr' fun value => by rw [later.eval_eq hf, later.eval_eq hg]

theorem Extends.apart_iff (later : Extends s s') (hf : f ∈ s) (hg : g ∈ s) :
    s'.Apart f g ↔ s.Apart f g := by
  unfold Apart
  rw [later.vars_eq hf, later.vars_eq hg]

theorem Extends.deterministic_iff (later : Extends s s') (known : f ∈ s) :
    s'.Deterministic f ↔ s.Deterministic f := by
  have step {g : Formula} (below : s.Below f g) {fs : List Formula} (shape : s.node g = .or fs)
      {a b : Formula} (ha : a ∈ fs) (hb : b ∈ fs) : s'.Exclusive a b ↔ s.Exclusive a b :=
    have member := below_mem known below
    later.exclusive_iff (child_mem member (by rwa [shape])) (child_mem member (by rwa [shape]))
  constructor
  · intro deterministic g below fs shape a ha b hb ne
    have member := below_mem known below
    exact (step below shape ha hb).mp (deterministic g ((later.below_iff known).mpr below) fs
      (by rwa [later.node_eq member]) a ha b hb ne)
  · intro deterministic g below fs shape a ha b hb ne
    rw [later.below_iff known] at below
    rw [later.node_eq (below_mem known below)] at shape
    exact (step below shape ha hb).mpr (deterministic g below fs shape a ha b hb ne)

theorem Extends.decomposable_iff (later : Extends s s') (known : f ∈ s) :
    s'.Decomposable f ↔ s.Decomposable f := by
  have step {g : Formula} (below : s.Below f g) {fs : List Formula} (shape : s.node g = .and fs) :
      fs.Pairwise s'.Apart ↔ fs.Pairwise s.Apart := by
    have member := below_mem known below
    refine List.Pairwise.iff_of_mem fun ha hb => ?_
    exact later.apart_iff (child_mem member (by rwa [shape])) (child_mem member (by rwa [shape]))
  constructor
  · intro decomposable g below fs shape
    have member := below_mem known below
    exact (step below shape).mp (decomposable g ((later.below_iff known).mpr below) fs
      (by rwa [later.node_eq member]))
  · intro decomposable g below fs shape
    rw [later.below_iff known] at below
    rw [later.node_eq (below_mem known below)] at shape
    exact (step below shape).mpr (decomposable g below fs shape)

/-! Determinism through the constructors. -/

theorem WellFormed.deterministic_constant (wf : s.WellFormed) (constant : f.isConstant = true) :
    s.Deterministic f := by
  rw [s.deterministic_iff]
  rcases wf.node_constant constant with shape | shape <;> simp [shape, Node.children]

theorem deterministic_lit {l : Lit} (shape : s.node f = .lit l) : s.Deterministic f := by
  rw [s.deterministic_iff]
  simp [shape, Node.children]

theorem WellFormed.deterministic_conj_iff (wf : s.WellFormed) :
    s.Deterministic f ↔ ∀ o ∈ s.flatten .conj f, s.Deterministic o := by
  by_cases neutral : f = Connective.conj.neutral
  · simp [neutral, flatten_neutral,
      wf.deterministic_constant ((isConstant_iff .conj).mpr (.inl rfl))]
  · rcases s.flatten_cases .conj neutral with ⟨gs, shape, flat⟩ | ⟨_, flat⟩
    · rw [flat, s.deterministic_iff, shape]
      simp [Connective.node, Node.children]
    · simp [flat]

theorem WellFormed.deterministic_disj_iff (wf : s.WellFormed) :
    s.Deterministic f ↔ (∀ o ∈ s.flatten .disj f, s.Deterministic o) ∧
      ∀ a ∈ s.flatten .disj f, ∀ b ∈ s.flatten .disj f, a ≠ b → s.Exclusive a b := by
  by_cases neutral : f = Connective.disj.neutral
  · simp [neutral, flatten_neutral,
      wf.deterministic_constant ((isConstant_iff .disj).mpr (.inl rfl))]
  · rcases s.flatten_cases .disj neutral with ⟨gs, shape, flat⟩ | ⟨_, flat⟩
    · rw [flat, s.deterministic_iff, shape]
      simp only [Connective.node, Node.children, Node.or.injEq]
      constructor
      · rintro ⟨here, rest⟩
        exact ⟨rest, here gs rfl⟩
      · rintro ⟨rest, here⟩
        exact ⟨fun fs same => same ▸ here, rest⟩
    · simp +contextual [flat]

theorem Joined.deterministic_conj (joined : Joined s .conj fs g s') (wf : s.WellFormed)
    (known : ∀ f ∈ fs, f ∈ s) (each : ∀ f ∈ fs, s.Deterministic f) : s'.Deterministic g := by
  by_cases decided : s.Decided .conj fs
  · rw [joined.decided decided]
    exact joined.wellFormed.deterministic_constant ((isConstant_iff .conj).mpr (.inr rfl))
  · rw [joined.wellFormed.deterministic_conj_iff, joined.flatten_eq decided]
    intro o operand
    obtain ⟨f, hf, flat⟩ := mem_operandsOf.mp operand
    rw [joined.later.deterministic_iff (wf.flatten_proper (known f hf) flat).1]
    exact wf.deterministic_conj_iff.mp (each f hf) o flat

theorem WellFormed.eval_flatten (wf : s.WellFormed) {o : Formula} (operand : o ∈ s.flatten .disj f)
    {value : Var → Bool} (true_ : s.eval value o = true) : s.eval value f = true := by
  rw [← wf.holds_flatten .disj value f]
  exact List.any_eq_true.mpr ⟨o, operand, true_⟩

/-- Flattening keeps determinism: operands of different disjuncts exclude each other since the
disjuncts do, operands of the same one since it is deterministic. -/
theorem Joined.deterministic_disj (joined : Joined s .disj fs g s') (wf : s.WellFormed)
    (known : ∀ f ∈ fs, f ∈ s) (each : ∀ f ∈ fs, s.Deterministic f)
    (exclusive : ∀ f ∈ fs, ∀ f' ∈ fs, f ≠ f' → s.Exclusive f f') : s'.Deterministic g := by
  by_cases decided : s.Decided .disj fs
  · rw [joined.decided decided]
    exact joined.wellFormed.deterministic_constant ((isConstant_iff .disj).mpr (.inr rfl))
  · rw [joined.wellFormed.deterministic_disj_iff, joined.flatten_eq decided]
    constructor
    · intro o operand
      obtain ⟨f, hf, flat⟩ := mem_operandsOf.mp operand
      rw [joined.later.deterministic_iff (wf.flatten_proper (known f hf) flat).1]
      exact (wf.deterministic_disj_iff.mp (each f hf)).1 o flat
    · intro a ha b hb ne
      obtain ⟨f, hf, flatA⟩ := mem_operandsOf.mp ha
      obtain ⟨f', hf', flatB⟩ := mem_operandsOf.mp hb
      rw [joined.later.exclusive_iff (wf.flatten_proper (known f hf) flatA).1
        (wf.flatten_proper (known f' hf') flatB).1]
      by_cases same : f = f'
      · subst same
        exact (wf.deterministic_disj_iff.mp (each f hf)).2 a flatA b flatB ne
      · intro value both
        exact exclusive f hf f' hf' same value
          ⟨wf.eval_flatten flatA both.1, wf.eval_flatten flatB both.2⟩

/-! Decomposability through the constructors. -/

theorem WellFormed.decomposable_constant (wf : s.WellFormed) (constant : f.isConstant = true) :
    s.Decomposable f := by
  rw [s.decomposable_iff]
  rcases wf.node_constant constant with shape | shape <;> simp [shape, Node.children]

theorem decomposable_lit {l : Lit} (shape : s.node f = .lit l) : s.Decomposable f := by
  rw [s.decomposable_iff]
  simp [shape, Node.children]

theorem WellFormed.decomposable_disj_iff (wf : s.WellFormed) :
    s.Decomposable f ↔ ∀ o ∈ s.flatten .disj f, s.Decomposable o := by
  by_cases neutral : f = Connective.disj.neutral
  · simp [neutral, flatten_neutral,
      wf.decomposable_constant ((isConstant_iff .disj).mpr (.inl rfl))]
  · rcases s.flatten_cases .disj neutral with ⟨gs, shape, flat⟩ | ⟨_, flat⟩
    · rw [flat, s.decomposable_iff, shape]
      simp [Connective.node, Node.children]
    · simp [flat]

theorem WellFormed.decomposable_conj_iff (wf : s.WellFormed) :
    s.Decomposable f ↔ (∀ o ∈ s.flatten .conj f, s.Decomposable o) ∧
      (s.flatten .conj f).Pairwise s.Apart := by
  by_cases neutral : f = Connective.conj.neutral
  · simp [neutral, flatten_neutral,
      wf.decomposable_constant ((isConstant_iff .conj).mpr (.inl rfl))]
  · rcases s.flatten_cases .conj neutral with ⟨gs, shape, flat⟩ | ⟨_, flat⟩
    · rw [flat, s.decomposable_iff, shape]
      simp only [Connective.node, Node.children, Node.and.injEq]
      constructor
      · rintro ⟨here, rest⟩
        exact ⟨rest, here gs rfl⟩
      · rintro ⟨rest, here⟩
        exact ⟨fun fs same => same ▸ here, rest⟩
    · simp [flat]

theorem Joined.decomposable_disj (joined : Joined s .disj fs g s') (wf : s.WellFormed)
    (known : ∀ f ∈ fs, f ∈ s) (each : ∀ f ∈ fs, s.Decomposable f) : s'.Decomposable g := by
  by_cases decided : s.Decided .disj fs
  · rw [joined.decided decided]
    exact joined.wellFormed.decomposable_constant ((isConstant_iff .disj).mpr (.inr rfl))
  · rw [joined.wellFormed.decomposable_disj_iff, joined.flatten_eq decided]
    intro o operand
    obtain ⟨f, hf, flat⟩ := mem_operandsOf.mp operand
    rw [joined.later.decomposable_iff (wf.flatten_proper (known f hf) flat).1]
    exact wf.decomposable_disj_iff.mp (each f hf) o flat

/-- Flattening keeps decomposability: operands of different conjuncts share no variable since the
conjuncts do not, operands of the same one since it is decomposable. -/
theorem Joined.decomposable_conj (joined : Joined s .conj fs g s') (wf : s.WellFormed)
    (known : ∀ f ∈ fs, f ∈ s) (each : ∀ f ∈ fs, s.Decomposable f)
    (apart : ∀ f ∈ fs, ∀ f' ∈ fs, f ≠ f' → s.Apart f f') : s'.Decomposable g := by
  by_cases decided : s.Decided .conj fs
  · rw [joined.decided decided]
    exact joined.wellFormed.decomposable_constant ((isConstant_iff .conj).mpr (.inr rfl))
  rw [joined.wellFormed.decomposable_conj_iff, joined.flatten_eq decided]
  constructor
  · intro o operand
    obtain ⟨f, hf, flat⟩ := mem_operandsOf.mp operand
    rw [joined.later.decomposable_iff (wf.flatten_proper (known f hf) flat).1]
    exact (wf.decomposable_conj_iff.mp (each f hf)).1 o flat
  · have distinct : (s.operandsOf .conj fs).Nodup := nodup_firstOccurrences _ _
    apply distinct.imp_of_mem
    intro a b ha hb ne
    obtain ⟨f, hf, flatA⟩ := mem_operandsOf.mp ha
    obtain ⟨f', hf', flatB⟩ := mem_operandsOf.mp hb
    rw [joined.later.apart_iff (wf.flatten_proper (known f hf) flatA).1
      (wf.flatten_proper (known f' hf') flatB).1]
    by_cases same : f = f'
    · subst same
      have within := (wf.decomposable_conj_iff.mp (each f hf)).2
      exact within.forall flatA flatB ne
    · intro v here there
      apply apart f hf f' hf' same v
      · exact (wf.mem_vars_flatten (known f hf) .conj v).mpr ⟨a, flatA, here⟩
      · exact (wf.mem_vars_flatten (known f' hf') .conj v).mpr ⟨b, flatB, there⟩

structure DetNnf (scope : Var → Prop) (s : Store) (f : Formula) : Prop where
  mem : f ∈ s
  isNnf : s.isNnf f = true
  deterministic : s.Deterministic f
  vars_sub : ∀ v ∈ s.vars f, scope v

section DetNnf

variable {scope scope' : Var → Prop}

theorem DetNnf.later (circuit : DetNnf scope s f) (later : Extends s s') : DetNnf scope s' f := by
  refine ⟨later.mem circuit.mem, ?_, ?_, ?_⟩
  · rw [later.isNnf_eq circuit.mem]
    exact circuit.isNnf
  · rw [later.deterministic_iff circuit.mem]
    exact circuit.deterministic
  · rw [later.vars_eq circuit.mem]
    exact circuit.vars_sub

theorem DetNnf.mono (circuit : DetNnf scope s f) (wider : ∀ v, scope v → scope' v) :
    DetNnf scope' s f :=
  ⟨circuit.mem, circuit.isNnf, circuit.deterministic, fun v h => wider v (circuit.vars_sub v h)⟩

theorem WellFormed.constant_detNnf (wf : s.WellFormed) (constant : f.isConstant = true) :
    DetNnf scope s f := by
  refine ⟨?_, wf.isNnf_constant constant, wf.deterministic_constant constant, ?_⟩
  · rcases (isConstant_iff .conj).mp constant with rfl | rfl
    · exact wf.neutral_mem .conj
    · exact wf.absorbing_mem .conj
  · simp [wf.vars_constant constant]

theorem WellFormed.lit_detNnf (wf : s.WellFormed) (known : f ∈ s) {l : Lit}
    (shape : s.node f = .lit l) (inside : scope l.var) : DetNnf scope s f :=
  ⟨known, isNnf_atomic (by rw [shape]; rfl), deterministic_lit shape, fun v mentioned => by
    rw [(wf.lit_meaning known shape).2 v mentioned]
    exact inside⟩

theorem WellFormed.conj_detNnf (wf : s.WellFormed) (each : ∀ f ∈ fs, DetNnf scope s f) :
    DetNnf scope (s.conj fs).2 (s.conj fs).1 := by
  have known : ∀ f ∈ fs, f ∈ s := fun f hf => (each f hf).mem
  have joined : Joined s .conj fs (s.conj fs).1 (s.conj fs).2 := wf.junction_joined known
  refine ⟨joined.mem, joined.isNnf wf known fun f hf => (each f hf).isNnf,
    joined.deterministic_conj wf known fun f hf => (each f hf).deterministic, fun v mentioned => ?_⟩
  obtain ⟨f, hf, inside⟩ := joined.vars_subset wf known mentioned
  exact (each f hf).vars_sub v inside

theorem WellFormed.disj_detNnf (wf : s.WellFormed) (each : ∀ f ∈ fs, DetNnf scope s f)
    (exclusive : ∀ f ∈ fs, ∀ f' ∈ fs, f ≠ f' → s.Exclusive f f') :
    DetNnf scope (s.disj fs).2 (s.disj fs).1 := by
  have known : ∀ f ∈ fs, f ∈ s := fun f hf => (each f hf).mem
  have joined : Joined s .disj fs (s.disj fs).1 (s.disj fs).2 := wf.junction_joined known
  refine ⟨joined.mem, joined.isNnf wf known fun f hf => (each f hf).isNnf,
    joined.deterministic_disj wf known (fun f hf => (each f hf).deterministic) exclusive,
    fun v mentioned => ?_⟩
  obtain ⟨f, hf, inside⟩ := joined.vars_subset wf known mentioned
  exact (each f hf).vars_sub v inside

end DetNnf

end Store

end ModelCounting
