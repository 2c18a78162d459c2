import ModelCounting.Proofs.Sharing

/-!
Construction of formulas. However a constructor simplifies, what it builds has the value that the plain
connective gives its operands: flattening, dropping neutral operands and repetitions, and stopping at an
absorbing operand or at a literal beside its complement all agree with the truth function. Nothing that
was built before changes, and the variables that a store keeps of a formula are those that gathering
them anew gives. A clause that has nothing to simplify is stored as it is written.
-/

namespace ModelCounting

/-- The variables of a node, given those of its operands. -/
def Node.gather (sub : Formula → List Var) : Node → List Var
  | .lit l => [l.var]
  | n => n.children.foldl (fun vs c => mergeVars vs (sub c)) []

namespace Store

variable {s s' : Store} {f g : Formula} {fs : List Formula}

/-! Kept variables. -/

/-- The variables below a formula, gathered anew. -/
def gather (s : Store) (f : Formula) : List Var := s.fold Node.gather f

theorem gather_local : Local Node.gather := by
  intro n sub sub' agree
  have union : n.children.foldl (fun vs c => mergeVars vs (sub c)) [] =
      n.children.foldl (fun vs c => mergeVars vs (sub' c)) [] :=
    List.foldl_ext _ _ [] fun vs c child => by rw [agree c child]
  cases n with
  | lit l => rfl
  | falsum | verum | not | and | or | implies | equiv => exact union

theorem WellFormed.vars_gathered (wf : s.WellFormed) (known : f ∈ s) : s.vars f = s.gather f := by
  induction size : f.id using Nat.strongRecOn generalizing f with
  | ind k ih =>
    have below (c : Formula) (child : c ∈ (s.node f).children) : s.gather c = s.vars c :=
      (ih c.id (size ▸ s.child_lt child) (child_mem known child) rfl).symm
    have kept : s.varsOf (s.node f) = (s.node f).gather s.vars := by
      cases s.node f <;> rfl
    have whole : s.gather f = (s.node f).gather s.gather := fold_node gather_local s f
    rw [wf.vars_eq f known, kept, whole, gather_local _ _ _ below]

/-! Meaning. -/

/-- Every formula of the earlier store is in the later one, with the same value and the same variables.
The variables that the later store keeps are those that gathering them anew gives. -/
structure Preserves (s s' : Store) : Prop where
  mem : ∀ f ∈ s, f ∈ s'
  eval_eq : ∀ f ∈ s, ∀ value, s'.eval value f = s.eval value f
  vars_eq : ∀ f ∈ s, s'.vars f = s.vars f
  gathered : ∀ f ∈ s', s'.vars f = s'.gather f

theorem Grows.preserves (grows : Grows s s') (wf : s.WellFormed) : Preserves s s' := by
  have later := grows.later wf
  constructor
  case mem => exact fun f known => later.mem known
  case eval_eq => exact fun f known => later.eval_eq known
  case vars_eq => exact fun f known => later.vars_eq known
  case gathered => exact fun f known => (grows.wellFormed wf).vars_gathered known

/-- A construction of a formula with the given value, which leaves everything else as it is. -/
structure Constructs (s : Store) (r : Formula × Store) (meaning : (Var → Bool) → Bool) : Prop where
  mem : r.1 ∈ r.2
  eval_eq : ∀ value, r.2.eval value r.1 = meaning value
  preserves : Preserves s r.2

theorem Builds.constructs {r : Formula × Store} {meaning : (Var → Bool) → Bool} {scope : Var → Prop}
    (builds : Builds s r meaning scope) (wf : s.WellFormed) : Constructs s r meaning :=
  ⟨builds.mem, builds.eval_eq, builds.grows.preserves wf⟩

/-- In every store that a history of requests leads to, each constructor builds the truth function of
its operands, whatever the values of the variables, and nothing that the store is asked for changes the
value or the variables of a formula that is there. -/
theorem constructors_mean (leads : Leads initial s) :
    (∀ fs, (∀ f ∈ fs, f ∈ s) →
      Constructs s (s.conj fs) (fun value => fs.all (s.eval value)) ∧
        Constructs s (s.disj fs) fun value => fs.any (s.eval value)) ∧
    (∀ f ∈ s, Constructs s (s.neg f) fun value => !s.eval value f) ∧
    (∀ f ∈ s, ∀ g ∈ s,
      Constructs s (s.implies f g) (fun value => !s.eval value f || s.eval value g) ∧
        Constructs s (s.equiv f g) fun value => s.eval value f == s.eval value g) ∧
    (∀ ls, (∀ l ∈ ls, l.code < Node.wordLimit) →
      Constructs s (s.clause ls) (fun value => ls.any (·.holds value)) ∧
        Constructs s (s.cube ls) fun value => ls.all (·.holds value)) ∧
    ∀ s', Leads s s' → Preserves s s' := by
  have wf := leads.wellFormed
  refine ⟨fun fs known => ?_, fun f known => ?_, fun f hf g hg => ?_, fun ls words => ?_,
    fun s' more => ?_⟩
  · exact ⟨(wf.junction_builds (c := .conj) known).constructs wf,
      (wf.junction_builds (c := .disj) known).constructs wf⟩
  · exact (wf.neg_builds known).constructs wf
  · exact ⟨(wf.implies_builds hf hg).constructs wf, (wf.equiv_builds hf hg).constructs wf⟩
  · exact ⟨(wf.junction_literals_builds (c := .disj) words).constructs wf,
      (wf.junction_literals_builds (c := .conj) words).constructs wf⟩
  · exact (more.grows wf).preserves wf

/-- A conjunction of two variables, conjoined with the complement of the first one: the result is never
true, and the conjunction is what it was. -/
theorem constructors_mean_clash : ∃ s f g, Leads initial s ∧ f ∈ s ∧ g ∈ s ∧
    (∀ value, s.eval value f = (value ⟨0⟩ && value ⟨1⟩)) ∧ (∀ value, s.eval value g = !value ⟨0⟩) ∧
      (∀ value, (s.conj [f, g]).2.eval value (s.conj [f, g]).1 = false) ∧
        ∀ value, (s.conj [f, g]).2.eval value f = (value ⟨0⟩ && value ⟨1⟩) := by
  have words : ∀ l ∈ [⟨0⟩, ⟨2⟩, (⟨1⟩ : Lit)], l.code < Node.wordLimit := by decide
  obtain ⟨s₁, leads₁, made⟩ := initial_wellFormed.exists_literals words
  obtain ⟨a, knownA, shapeA⟩ := made ⟨0⟩ (by simp)
  obtain ⟨b, knownB, shapeB⟩ := made ⟨2⟩ (by simp)
  obtain ⟨g, known, shape⟩ := made ⟨1⟩ (by simp)
  have wf₁ := leads₁.wellFormed
  have lits : ∀ h ∈ [a, b], h ∈ s₁ := by simp [knownA, knownB]
  obtain ⟨s, f, leads₂, joined⟩ := wf₁.exists_junction .conj lits
  have leads := leads₁.trans leads₂
  have parts : ∀ h ∈ [f, g], h ∈ s := by simp [joined.mem, joined.later.mem known]
  have both (value : Var → Bool) : s.eval value f = (value ⟨0⟩ && value ⟨1⟩) := by
    rw [joined.eval_eq wf₁ lits]
    simp [Connective.holds, (wf₁.lit_meaning knownA shapeA).1, (wf₁.lit_meaning knownB shapeB).1,
      Lit.holds, Lit.var, Lit.phase]
  have other (value : Var → Bool) : s.eval value g = !value ⟨0⟩ := by
    rw [joined.later.eval_eq known, (wf₁.lit_meaning known shape).1]
    simp [Lit.holds, Lit.var, Lit.phase]
  obtain ⟨⟨built, _⟩, _⟩ := (constructors_mean leads).imp_left (· [f, g] parts)
  refine ⟨s, f, g, leads, joined.mem, joined.later.mem known, both, other, fun value => ?_,
    fun value => ?_⟩
  · rw [built.eval_eq, List.all_cons, List.all_cons, both, other]
    cases value ⟨0⟩ <;> simp
  · rw [built.preserves.eval_eq f joined.mem, both]

/-! Clauses that are stored as they are written. -/

theorem isClause_of_clauseLits {ls : List Lit} (run : s.clauseLits f = .ok ls) :
    s.isClause f = true := by
  unfold clauseLits at run
  unfold isClause
  split at run
  · rfl
  · rfl
  · rename_i gs shape
    rw [List.all_eq_true]
    intro g member
    obtain ⟨l, _, shape⟩ := forall₂_mem_left (operandLits run) g member
    rw [asLit_eq.mpr shape]
    rfl
  · exact absurd run notAClause_error

structure Proper (ls : List Lit) : Prop where
  many : 2 ≤ ls.length
  distinct : ls.Nodup
  consistent : ∀ l ∈ ls, -l ∉ ls
  words : ∀ l ∈ ls, l.code < Node.wordLimit

instance (ls : List Lit) : Decidable (Proper ls) :=
  decidable_of_iff
    (2 ≤ ls.length ∧ ls.Nodup ∧ (∀ l ∈ ls, -l ∉ ls) ∧ ∀ l ∈ ls, l.code < Node.wordLimit)
    ⟨fun all => ⟨all.1, all.2.1, all.2.2.1, all.2.2.2⟩,
      fun proper => ⟨proper.many, proper.distinct, proper.consistent, proper.words⟩⟩

/-- The formulas of such literals are the operands of a disjunction. -/
theorem Proper.operands {ls : List Lit} (proper : Proper ls) (wf : s.WellFormed)
    (made : List.Forall₂ (fun l f => f ∈ s ∧ s.node f = .lit l) ls fs) : Operands s.node .disj fs := by
  have each := forall₂_mem_right made
  constructor
  case many => exact made.length_eq ▸ proper.many
  case distinct =>
    apply nodup_of_forall₂ made _ proper.distinct
    rintro l l' f ⟨_, shape⟩ ⟨_, shape'⟩
    exact Node.lit.inj (shape.symm.trans shape')
  case proper =>
    intro f member
    obtain ⟨l, _, _, shape⟩ := each f member
    constructor
    · exact wf.not_constant (by simp [shape]) (by simp [shape])
    · intro gs other
      cases shape.symm.trans other
  case compatible =>
    intro f hf g hg l left right
    obtain ⟨l₁, member₁, _, shape₁⟩ := each f hf
    obtain ⟨l₂, member₂, _, shape₂⟩ := each g hg
    obtain rfl := Node.lit.inj (shape₁.symm.trans left)
    obtain rfl := Node.lit.inj (shape₂.symm.trans right)
    exact proper.consistent l₁ member₁ member₂

theorem WellFormed.clause_proper (wf : s.WellFormed) {ls : List Lit} (proper : Proper ls) :
    (s.clause ls).1 ∈ (s.clause ls).2 ∧ (∃ fs, (s.clause ls).2.node (s.clause ls).1 = .or fs) ∧
      (s.clause ls).2.clauseLits (s.clause ls).1 = .ok ls := by
  obtain ⟨grows, made⟩ := wf.literals_build proper.words
  have wf' := grows.wellFormed wf
  have operands := proper.operands wf' made
  have present (f : Formula) (member : f ∈ (s.literals ls).1) : f ∈ (s.literals ls).2 := by
    obtain ⟨_, _, known, _⟩ := forall₂_mem_right made f member
    exact known
  have interned := intern_interned wf' (n := .or (s.literals ls).1) present operands
  have run : s.clause ls = (s.literals ls).2.intern (.or (s.literals ls).1) := junction_operands operands
  rw [run]
  refine ⟨interned.mem, ⟨_, interned.node_eq⟩, ?_⟩
  rw [clauseLits, interned.node_eq]
  apply mapM_of_forall₂
  apply made.flip.imp
  rintro f l ⟨known, shape⟩
  rw [asLit_eq.mpr ((interned.later.node_eq known).trans shape)]

def ReadsAs (s : Store) (c : List Lit) (g : Formula) : Prop :=
  g ∈ s ∧ (∃ fs, s.node g = .or fs) ∧ s.clauseLits g = .ok c

theorem WellFormed.exists_clauses (wf : s.WellFormed) {cs : List (List Lit)}
    (proper : ∀ c ∈ cs, Proper c) : ∃ s' gs, Leads s s' ∧
      List.Forall₂ (ReadsAs s') cs gs := by
  induction cs generalizing s with
  | nil => exact ⟨s, [], .refl, .nil⟩
  | cons c cs ih =>
    have request : Request s (s.clause c).2 := .clause (proper c List.mem_cons_self).words
    obtain ⟨known, ⟨fs, shape⟩, read⟩ := wf.clause_proper (proper c List.mem_cons_self)
    have wf' := (request.grows wf).wellFormed wf
    obtain ⟨s', gs, leads, others⟩ := ih wf' fun d member => proper d (List.mem_cons_of_mem c member)
    have later := (leads.grows wf').later wf'
    refine ⟨s', _, .head request leads, .cons ⟨later.mem known, ⟨fs, ?_⟩, ?_⟩ others⟩
    · rw [later.node_eq known, shape]
    · exact later.clauseLits_again known read

/-- Different clauses are the operands of a conjunction. -/
theorem operands_of_clauses (wf : s.WellFormed) {cs : List (List Lit)} (many : 2 ≤ cs.length)
    (distinct : cs.Nodup) (made : List.Forall₂ (ReadsAs s) cs fs) : Operands s.node .conj fs := by
  have each := forall₂_mem_right made
  constructor
  case many => exact made.length_eq ▸ many
  case distinct =>
    apply nodup_of_forall₂ made _ distinct
    rintro c c' g ⟨_, _, read⟩ ⟨_, _, read'⟩
    exact Except.ok.inj (read.symm.trans read')
  case proper =>
    intro g member
    obtain ⟨_, _, _, ⟨gs, shape⟩, _⟩ := each g member
    constructor
    · exact wf.not_constant (by simp [shape]) (by simp [shape])
    · intro hs other
      cases shape.symm.trans other
  case compatible =>
    intro g member h _ l literal
    obtain ⟨_, _, _, ⟨gs, shape⟩, _⟩ := each g member
    cases shape.symm.trans literal

/-- A conjunction of clauses that is asked for. -/
theorem WellFormed.exists_cnf (wf : s.WellFormed) {cs : List (List Lit)} (many : 2 ≤ cs.length)
    (distinct : cs.Nodup) (proper : ∀ c ∈ cs, Proper c) :
    ∃ s' f, Leads s s' ∧ f ∈ s' ∧ s'.isCnf f = true ∧ s'.clauses f = .ok cs := by
  obtain ⟨s₁, gs, leads, made⟩ := wf.exists_clauses proper
  have wf₁ := (leads.grows wf).wellFormed wf
  have operands := operands_of_clauses wf₁ many distinct made
  have each := forall₂_mem_right made
  have present (g : Formula) (member : g ∈ gs) : g ∈ s₁ := by
    obtain ⟨_, _, known, _⟩ := each g member
    exact known
  have interned := intern_interned wf₁ (n := .and gs) present operands
  have run : s₁.conj gs = s₁.intern (.and gs) := junction_operands operands
  have request : Request s₁ (s₁.conj gs).2 := .conj present
  rw [run] at request
  refine ⟨_, _, leads.tail request, interned.mem, ?_, ?_⟩
  · rw [isCnf, interned.node_eq, List.all_eq_true]
    intro g member
    obtain ⟨c, _, known, _, read⟩ := each g member
    rw [interned.later.isClause_eq known]
    exact isClause_of_clauseLits read
  · rw [clauses, interned.node_eq]
    apply mapM_of_forall₂
    apply made.flip.imp
    rintro g c ⟨known, _, read⟩
    exact interned.later.clauseLits_again known read

end Store

end ModelCounting
