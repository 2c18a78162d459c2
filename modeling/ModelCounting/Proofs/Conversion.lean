import ModelCounting.Proofs.Shapes
import ModelCounting.Proofs.Sharing

/-!
Conversions of formulas. Whatever a store was asked for before, a formula is converted to negation
normal form and to a conjunction of clauses, each equivalent to it, and neither brings in a variable:
products of clauses collapse where they hold a literal beside its complement, and what is left keeps
the meaning. A formula that is in negation normal form already is converted to itself, since the store
finds each of its junctions again.
-/

namespace ModelCounting

namespace Store

variable {s : Store} {c : Connective} {f g : Formula} {fs : List Formula}

theorem WellFormed.equiv_interned (wf : s.WellFormed) (hf : f ∈ s) (hg : g ∈ s)
    (canonical : (Node.equiv f g).Canonical s.node) :
    Interned s (.equiv f g) (s.equiv f g).1 (s.equiv f g).2 := by
  obtain ⟨ne, left, right, apart⟩ := canonical
  have interned := intern_interned wf (n := .equiv f g) (by simp [Node.children, hf, hg])
    ⟨ne, left, right, apart⟩
  simp only [Formula.isConstant, Bool.or_eq_false_iff, beq_eq_false_iff_ne] at left right
  rcases s.equiv_cases f g with ⟨same, _⟩ | ⟨same, _⟩ | ⟨same, _⟩ | ⟨same, _⟩ | ⟨same, _⟩ |
    ⟨l, first, second, _⟩ | ⟨_, _, _, _, run⟩
  · exact absurd same ne
  · exact absurd same left.2
  · exact absurd same right.2
  · exact absurd same left.1
  · exact absurd same right.1
  · exact absurd (by rwa [Lit.neg_neg]) (apart _ first)
  · rw [run]
    exact interned

theorem WellFormed.implies_interned (wf : s.WellFormed) (hf : f ∈ s) (hg : g ∈ s)
    (canonical : (Node.implies f g).Canonical s.node) :
    Interned s (.implies f g) (s.implies f g).1 (s.implies f g).2 := by
  obtain ⟨ne, left, right⟩ := canonical
  rcases s.implies_cases f g with ⟨rfl | rfl | same, _⟩ | ⟨rfl, _⟩ | ⟨rfl, _⟩ | ⟨_, _, _, run⟩
  · cases left
  · cases right
  · exact absurd same ne
  · cases left
  · cases right
  · rw [run]
    exact intern_interned wf (by simp [Node.children, hf, hg]) ⟨ne, left, right⟩

/-- The conjunctive normal form of a formula is a conjunction of clauses, equivalent to the formula and
over its variables. -/
theorem cnf_equivalent (leads : Leads initial s) (known : f ∈ s) :
    (s.cnf f).1 ∈ (s.cnf f).2 ∧ (s.cnf f).2.isCnf (s.cnf f).1 = true ∧
      (∀ value, (s.cnf f).2.eval value (s.cnf f).1 = s.eval value f) ∧
        ∀ v ∈ (s.cnf f).2.vars (s.cnf f).1, v ∈ s.vars f := by
  have wf := leads.wellFormed
  obtain ⟨grows, _, means⟩ := wf.cnf_restates known
  have later := grows.later wf
  refine ⟨means.mem, wf.cnf_isCnf known, ?_, ?_⟩
  · intro value
    rw [means.eval_eq, id, later.eval_eq known]
  · intro v mentioned
    rw [← later.vars_eq known]
    exact (means.vars_sub v mentioned).1

/-- The equivalence of two variables, which is no conjunction of clauses. -/
theorem cnf_equivalent_equivalence : ∃ s f a b, Leads initial s ∧ f ∈ s ∧ s.node f = .equiv a b ∧
    s.isCnf f = false ∧ (s.cnf f).2.isCnf (s.cnf f).1 = true ∧
      ∀ value, (s.cnf f).2.eval value (s.cnf f).1 = (value ⟨0⟩ == value ⟨1⟩) := by
  have words : ∀ l ∈ [⟨0⟩, (⟨2⟩ : Lit)], l.code < Node.wordLimit := by decide
  obtain ⟨s, leads, made⟩ := initial_wellFormed.exists_literals words
  obtain ⟨a, knownA, shapeA⟩ := made ⟨0⟩ (by simp)
  obtain ⟨b, knownB, shapeB⟩ := made ⟨2⟩ (by simp)
  have wf := leads.wellFormed
  have canonical : (Node.equiv a b).Canonical s.node := by
    have proper {f : Formula} {l : Lit} (shape : s.node f = .lit l) : f.isConstant = false := by
      by_contra constant
      rcases wf.node_constant (by simpa using constant) with h | h <;> cases shape.symm.trans h
    refine ⟨?_, proper shapeA, proper shapeB, ?_⟩
    · rintro rfl
      cases shapeA.symm.trans shapeB
    · intro l shape shape'
      have here := Node.lit.inj (shapeA.symm.trans shape)
      have there := Node.lit.inj (shapeB.symm.trans shape')
      rw [← here] at there
      exact absurd there (by decide)
  have interned := wf.equiv_interned knownA knownB canonical
  have builds := wf.equiv_builds knownA knownB
  have leads : Leads initial (s.equiv a b).2 :=
    leads.tail (.equiv knownA knownB)
  obtain ⟨_, clauses, meaning, _⟩ := cnf_equivalent leads interned.mem
  refine ⟨_, _, a, b, leads, interned.mem, interned.node_eq, ?_, clauses, fun value => ?_⟩
  · simp [isCnf, isClause, interned.node_eq]
  · rw [meaning, builds.eval_eq, (wf.lit_meaning knownA shapeA).1,
      (wf.lit_meaning knownB shapeB).1]
    simp [Lit.holds, Lit.var, Lit.phase]

/-! Conversion of what is in negation normal form. -/

def Unchanged (k : Formula × Bool) (_ : Store) (g : Formula) : Prop := k.2 = true → g = k.1

section Unchanged

variable {M : Type} {good : M → Prop} {step : Formula → Store → M → Formula × Store × M} {memo : M}

theorem collect_unchanged
    (each : ∀ f ∈ fs, ∀ memo, good memo → ∃ memo', step f s memo = (f, s, memo') ∧ good memo')
    (start : good memo) (acc : List Formula) :
    ∃ memo', collect step fs (acc, s, memo) = (fs.reverse ++ acc, s, memo') ∧ good memo' := by
  induction fs generalizing memo acc with
  | nil => exact ⟨memo, rfl, start⟩
  | cons f fs ih =>
    obtain ⟨memo₁, first, good₁⟩ := each f List.mem_cons_self memo start
    obtain ⟨memo₂, rest, good₂⟩ :=
      ih (fun g member => each g (List.mem_cons_of_mem f member)) good₁ (f :: acc)
    refine ⟨memo₂, ?_, good₂⟩
    rw [List.reverse_cons, List.append_assoc, List.singleton_append, ← rest]
    simp only [collect, List.foldl_cons, first]

theorem junctionOf_unchanged (wf : s.WellFormed) (known : f ∈ s) (shape : s.node f = c.node fs)
    (each : ∀ g ∈ fs, ∀ memo, good memo → ∃ memo', step g s memo = (g, s, memo') ∧ good memo')
    (start : good memo) :
    ∃ memo', junctionOf c (collect step fs ([], s, memo)) = (f, s, memo') ∧ good memo' := by
  obtain ⟨memo', run, good'⟩ := collect_unchanged each start []
  refine ⟨memo', ?_, good'⟩
  rw [run, List.append_nil, junctionOf, List.reverse_reverse, wf.junction_known known shape]

end Unchanged

theorem nnfNode_unchanged (wf : s.WellFormed) (known : f ∈ s) (normal : s.isNnf f = true)
    {memo : PolarityMemo} (good : Remembers Unchanged s memo)
    (below : ∀ g ∈ (s.node f).children, ∀ memo, Remembers Unchanged s memo →
      ∃ memo', nnfFrom g true s memo = (g, s, memo') ∧ Remembers Unchanged s memo') :
    ∃ memo', nnfNode f true s memo (s.node f) = (f, s, memo') ∧ Remembers Unchanged s memo' := by
  rw [isNnf_node] at normal
  cases shape : s.node f with
  | falsum | verum | lit => exact ⟨memo, rfl, good⟩
  | not | implies | equiv =>
    rw [shape] at normal
    cases normal
  | and fs =>
    rw [shape] at below
    exact junctionOf_unchanged (c := .conj) wf known shape below good
  | or fs =>
    rw [shape] at below
    exact junctionOf_unchanged (c := .disj) wf known shape below good

theorem nnfFrom_unchanged (wf : s.WellFormed) (known : f ∈ s) (normal : s.isNnf f = true)
    {memo : PolarityMemo} (good : Remembers Unchanged s memo) :
    ∃ memo', nnfFrom f true s memo = (f, s, memo') ∧ Remembers Unchanged s memo' := by
  induction size : f.id using Nat.strongRecOn generalizing f memo with
  | ind k ih =>
    cases fresh : memo[(f, true)]? with
    | some g =>
      obtain rfl := good (f, true) g fresh rfl
      refine ⟨memo, ?_, good⟩
      rw [nnfFrom]
      simp only [fresh]
    | none =>
      obtain ⟨memo', run, good'⟩ := nnfNode_unchanged wf known normal good fun g child memo good =>
        ih g.id (size ▸ s.child_lt child) (child_mem known child) (isNnf_child normal child) good rfl
      refine ⟨memo'.insert (f, true) f, ?_, good'.insert fun _ => rfl⟩
      rw [nnfFrom_fresh fresh, run]

/-- A formula in negation normal form is its own, and nothing is added for it. -/
theorem WellFormed.nnf_of_isNnf (wf : s.WellFormed) (known : f ∈ s) (normal : s.isNnf f = true) :
    s.nnf f = (f, s) := by
  have nothing : Remembers Unchanged s ∅ := by simp [Remembers]
  obtain ⟨memo', run, _⟩ := nnfFrom_unchanged wf known normal nothing
  rw [nnf, run]

/-- The negation normal form of a formula has that shape, is equivalent to the formula and over its
variables. Converted again, at once or after any requests, it is the same formula. -/
theorem nnf_normalizes (leads : Leads initial s) (known : f ∈ s) :
    (s.nnf f).1 ∈ (s.nnf f).2 ∧ (s.nnf f).2.isNnf (s.nnf f).1 = true ∧
      (∀ value, (s.nnf f).2.eval value (s.nnf f).1 = s.eval value f) ∧
        (∀ v ∈ (s.nnf f).2.vars (s.nnf f).1, v ∈ s.vars f) ∧
          ∀ t, Leads (s.nnf f).2 t → t.nnf (s.nnf f).1 = ((s.nnf f).1, t) := by
  have wf := leads.wellFormed
  obtain ⟨grows, normal⟩ := wf.nnf_normal known
  have wf' := grows.wellFormed wf
  have later := grows.later wf
  refine ⟨normal.mem, normal.isNnf, ?_, ?_, ?_⟩
  · intro value
    rw [normal.eval_eq, later.eval_eq known, beq_true]
  · intro v mentioned
    rw [← later.vars_eq known]
    exact normal.vars_sub v mentioned
  · intro t more
    have grows' := more.grows wf'
    have later' := grows'.later wf'
    apply (grows'.wellFormed wf').nnf_of_isNnf (later'.mem normal.mem)
    rw [later'.isNnf_eq normal.mem]
    exact normal.isNnf

/-- The implication of two variables, which is not in normal form. -/
theorem nnf_normalizes_implication : ∃ s f a b, Leads initial s ∧ f ∈ s ∧ s.node f = .implies a b ∧
    s.isNnf f = false ∧ (s.nnf f).2.isNnf (s.nnf f).1 = true ∧
      (∀ value, (s.nnf f).2.eval value (s.nnf f).1 = (!value ⟨0⟩ || value ⟨1⟩)) ∧
        (s.nnf f).2.nnf (s.nnf f).1 = s.nnf f := by
  have words : ∀ l ∈ [⟨0⟩, (⟨2⟩ : Lit)], l.code < Node.wordLimit := by decide
  obtain ⟨s, leads, made⟩ := initial_wellFormed.exists_literals words
  obtain ⟨a, knownA, shapeA⟩ := made ⟨0⟩ (by simp)
  obtain ⟨b, knownB, shapeB⟩ := made ⟨2⟩ (by simp)
  have wf := leads.wellFormed
  have apart : a ≠ b := by
    rintro rfl
    cases shapeA.symm.trans shapeB
  have interned := wf.implies_interned knownA knownB
    ⟨apart, wf.not_constant (by simp [shapeA]) (by simp [shapeA]),
      wf.not_constant (by simp [shapeB]) (by simp [shapeB])⟩
  have builds := wf.implies_builds knownA knownB
  have leads : Leads initial (s.implies a b).2 :=
    leads.tail (.implies knownA knownB)
  obtain ⟨_, normal, meaning, _, again⟩ := nnf_normalizes leads interned.mem
  refine ⟨_, _, a, b, leads, interned.mem, interned.node_eq, ?_, normal, fun value => ?_,
    again _ .refl⟩
  · rw [isNnf_node, interned.node_eq]
    rfl
  · rw [meaning, builds.eval_eq, (wf.lit_meaning knownA shapeA).1,
      (wf.lit_meaning knownB shapeB).1]
    simp [Lit.holds, Lit.var, Lit.phase]

end Store

end ModelCounting
