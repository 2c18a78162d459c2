import ModelCounting.Proofs.Repetition

/-!
Simplification of clauses for compilation. Their backbone is found exactly. The clauses beside it do
not mention its variables, and neither subsumption nor the constructors bring these back. So every
literal that stands as a clause is in the backbone: it is true in all models of the clauses. And every
backbone literal stands as a clause: without one a model would stay one when the literal is made false.
What is left has only clauses with several literals, none of the backbone variables, and entails no
literal at all.
-/

namespace ModelCounting

def Lit.falsify (l : Lit) (value : Var → Bool) : Var → Bool := Function.update value l.var (!l.phase)

theorem Lit.holds_falsify (l : Lit) (value : Var → Bool) : l.holds (l.falsify value) = false := by
  simp [Lit.holds, Lit.falsify]

namespace Store

variable {s s' : Store} {f g o : Formula} {l : Lit} {ls : List Lit} {value : Var → Bool}

theorem WellFormed.eval_falsify (wf : s.WellFormed) (known : f ∈ s) (other : l.var ∉ s.vars f) :
    s.eval (l.falsify value) f = s.eval value f := by
  apply wf.eval_congr known
  intro v mentioned
  apply Function.update_of_ne
  rintro rfl
  exact other mentioned

/-! The backbone. -/

theorem WellFormed.backbone_ascending (wf : s.WellFormed) (known : f ∈ s)
    (run : s.backbone f = .ok (some ls)) : ls.Pairwise fun l m => l.code < m.code := by
  obtain ⟨phase, found, sub, rfl⟩ := backbone_candidates run
  have var {i : Nat} (small : i < (s.vars f).length) :
      (Backbone.unplace (s.vars f).toArray (Lit.of ⟨i⟩ (phase i))).var = (s.vars f)[i] := by
    simp [Backbone.unplace, small]
  rw [List.pairwise_map]
  apply List.Pairwise.sublist sub
  rw [List.pairwise_map]
  apply List.pairwise_lt_range.imp_of_mem
  intro i j hi hj below
  have first := List.mem_range.mp hi
  have second := List.mem_range.mp hj
  have rises := List.pairwise_iff_getElem.mp (wf.ascending_vars known) i j first second below
  rw [← var first, ← var second] at rises
  simp only [Lit.var] at rises
  omega

/-- The backbone of a variable beside a choice between two others is the variable: the models that differ
in the choice rule out every other literal. -/
theorem WellFormed.isBackbone_guarded (wf : s.WellFormed) (known : f ∈ s)
    (meaning : ∀ value, s.eval value f = (value ⟨0⟩ && (value ⟨1⟩ || value ⟨2⟩)))
    (vars : s.vars f ⊆ [⟨0⟩, ⟨1⟩, ⟨2⟩]) : s.IsBackbone f (some [⟨0⟩]) := by
  constructor
  · exact ⟨fun _ => true, by simp [meaning]⟩
  intro l
  rw [List.mem_singleton]
  constructor
  · rintro rfl
    constructor
    · have differ : s.eval (fun _ => true) f ≠ s.eval (· ≠ ⟨0⟩) f := by simp [meaning]
      exact wf.mem_vars_of_depends known (by simp [Lit.var]) differ
    · simp +contextual [meaning, Lit.holds, Lit.var, Lit.phase]
  · rintro ⟨mentioned, implied⟩
    have first := implied (· ≠ ⟨2⟩) (by simp [meaning])
    have second := implied (· ≠ ⟨1⟩) (by simp [meaning])
    have var := vars mentioned
    simp only [List.mem_cons, List.not_mem_nil, or_false] at var
    rcases var with var | var | var <;> rw [Lit.holds, var] at first second
    · apply Lit.ext_var_phase var
      exact (beq_iff_eq.mp first).symm
    · cases phase : l.phase <;> simp [phase] at first second
    · cases phase : l.phase <;> simp [phase] at first second

/-- Clauses that stand for a variable beside a choice between two others. -/
theorem exists_guarded : ∃ s f, Leads initial s ∧ f ∈ s ∧ s.isCnf f = true ∧
    (∀ value, s.eval value f = (value ⟨0⟩ && (value ⟨1⟩ || value ⟨2⟩))) ∧
      s.vars f ⊆ [⟨0⟩, ⟨1⟩, ⟨2⟩] := by
  have words : ∀ l ∈ [⟨0⟩, ⟨2⟩, (⟨4⟩ : Lit)], l.code < Node.wordLimit := by decide
  obtain ⟨s₁, leads₁, made⟩ := initial_wellFormed.exists_literals words
  obtain ⟨a, knownA, shapeA⟩ := made ⟨0⟩ (by simp)
  obtain ⟨b, knownB, shapeB⟩ := made ⟨2⟩ (by simp)
  obtain ⟨c, knownC, shapeC⟩ := made ⟨4⟩ (by simp)
  have wf₁ := leads₁.wellFormed
  obtain ⟨valueA, onlyA⟩ := wf₁.lit_meaning knownA shapeA
  obtain ⟨valueB, onlyB⟩ := wf₁.lit_meaning knownB shapeB
  obtain ⟨valueC, onlyC⟩ := wf₁.lit_meaning knownC shapeC
  have lits : ∀ g ∈ [b, c], g ∈ s₁ := by simp [knownB, knownC]
  obtain ⟨s₂, d, leads₂, either⟩ := wf₁.exists_junction .disj lits
  have wf₂ := either.wellFormed
  have parts : ∀ g ∈ [a, d], g ∈ s₂ := by simp [either.later.mem knownA, either.mem]
  obtain ⟨s₃, f, leads₃, both⟩ := wf₂.exists_junction .conj parts
  refine ⟨s₃, f, (leads₁.trans leads₂).trans leads₃, both.mem, ?_, ?_, ?_⟩
  · have clause {g : Formula} {l : Lit} (shape : s₁.node g = .lit l) : s₁.isClause g = true := by
      rw [isClause, shape]
    have choice : Clausal s₂ d :=
      either.clausal wf₁ lits (by simp [Clausal, clause shapeB, clause shapeC])
    apply both.isCnf wf₂ parts
    simp [either.later.isCnf_eq knownA, isCnf_of_isClause (clause shapeA), choice.isCnf wf₂]
  · intro value
    rw [both.eval_eq wf₂ parts]
    simp [Connective.holds, either.later.eval_eq knownA, either.eval_eq wf₁ lits, valueA, valueB,
      valueC, Lit.holds, Lit.var, Lit.phase]
  · intro v mentioned
    obtain ⟨g, part, here⟩ := both.vars_subset wf₂ parts mentioned
    rcases List.mem_pair.mp part with rfl | rfl
    · rw [either.later.vars_eq knownA] at here
      simp [onlyA v here, Lit.var]
    · obtain ⟨h, part, here⟩ := either.vars_subset wf₁ lits here
      rcases List.mem_pair.mp part with rfl | rfl
      · simp [onlyB v here, Lit.var]
      · simp [onlyC v here, Lit.var]

theorem WellFormed.length_vars_le (wf : s.WellFormed) (known : f ∈ s) {vs : List Var}
    (within : s.vars f ⊆ vs) : (s.vars f).length ≤ vs.length :=
  (List.subperm_of_subset (wf.nodup_vars known) within).length_le

/-- A conjunction of clauses has no backbone just if it has no model. Otherwise its backbone is listed
in ascending order, and consists of the literals over its variables that are true in all models. -/
theorem backbone_exact (leads : Leads initial s) (known : f ∈ s) (cnf : s.isCnf f = true) :
    Strives (64 ≤ (s.vars f).length) (s.backbone f) fun found =>
      (found = none ↔ ∀ value, s.eval value f = false) ∧
        ∀ ls, found = some ls → ls.Pairwise (fun l m => l.code < m.code) ∧
          ∀ l, l ∈ ls ↔ l.var ∈ s.vars f ∧ ∀ value, s.eval value f = true → l.holds value = true := by
  have wf := leads.wellFormed
  rcases wf.backbone_strives known cnf with ⟨found, run, right⟩ | exhausted
  · refine .inl ⟨found, run, ?_⟩
    cases found with
    | none => exact ⟨⟨fun _ => right, fun _ => rfl⟩, nofun⟩
    | some ls =>
      obtain ⟨⟨value, true_⟩, members⟩ := right
      constructor
      · constructor
        · nofun
        · intro never
          cases true_.symm.trans (never value)
      · rintro _ ⟨⟩
        exact ⟨wf.backbone_ascending known run, members⟩
  · exact .inr exhausted

/-- The variable is found. -/
theorem backbone_exact_guarded : ∃ s f, Leads initial s ∧ f ∈ s ∧ s.isCnf f = true ∧
    (∀ value, s.eval value f = (value ⟨0⟩ && (value ⟨1⟩ || value ⟨2⟩))) ∧
      s.backbone f = .ok (some [⟨0⟩]) := by
  obtain ⟨s, f, leads, known, cnf, meaning, vars⟩ := exists_guarded
  have few : (s.vars f).length ≤ 3 := leads.wellFormed.length_vars_le known vars
  obtain ⟨⟨value, true_⟩, members⟩ := leads.wellFormed.isBackbone_guarded known meaning vars
  obtain ⟨found, run, never, exact_⟩ :=
    (backbone_exact leads known cnf).resolve_right (by omega)
  refine ⟨s, f, leads, known, cnf, meaning, ?_⟩
  cases found with
  | none => cases true_.symm.trans (never.mp rfl value)
  | some ls =>
    obtain ⟨ascending, members'⟩ := exact_ ls rfl
    have distinct : ls.Nodup := ascending.imp fun below same => by simp [same] at below
    have same : ls.Perm [⟨0⟩] := by
      rw [List.perm_ext_iff_of_nodup distinct (List.nodup_singleton _)]
      exact fun l => (members' l).trans (members l).symm
    rw [run, List.perm_singleton.mp same]

theorem WellFormed.exists_falsifying (wf : s'.WellFormed) (known : g ∈ s')
    (backbone : s.IsBackbone f (some ls))
    (follows : ∀ value, s.eval value f = true → s'.eval value g = true)
    (outside : ∀ v ∈ s'.vars g, v ∈ s.vars f ∧ Untouched ls v) (l : Lit) :
    ∃ value, s'.eval value g = true ∧ l.holds value = false := by
  obtain ⟨⟨value, true_⟩, members⟩ := backbone
  by_cases mentioned : l.var ∈ s'.vars g
  · obtain ⟨inside, untouched⟩ := outside l.var mentioned
    have open_ : ¬ ∀ value, s.eval value f = true → l.holds value = true := fun implied =>
      untouched l ((members l).mpr ⟨inside, implied⟩) rfl
    simp only [not_forall] at open_
    obtain ⟨value', true_', false_⟩ := open_
    exact ⟨value', follows value' true_', by simpa using false_⟩
  · refine ⟨l.falsify value, ?_, l.holds_falsify value⟩
    rw [wf.eval_falsify known mentioned]
    exact follows value true_

/-! Conjuncts beside the backbone. -/

def Detached (ls : List Lit) (s : Store) (o : Formula) : Prop :=
  (∃ l ∈ ls, s.node o = .lit l) ∨ ∀ v ∈ s.vars o, Untouched ls v

theorem Detached.later (detached : Detached ls s o) (later : Extends s s') (known : o ∈ s) :
    Detached ls s' o := by
  unfold Detached
  rwa [later.node_eq known, later.vars_eq known]

theorem Detached.conjunct (detached : Detached ls s f) (wf : s.WellFormed) (known : f ∈ s)
    (conjunct : o ∈ s.flatten .conj f) : Detached ls s o := by
  rcases detached with ⟨l, member, shape⟩ | untouched
  · have proper : f ≠ Connective.conj.neutral := by
      rintro rfl
      simp [Connective.neutral, wf.node_verum] at shape
    rw [flatten_self proper (by simp [shape, Connective.node]), List.mem_singleton] at conjunct
    rw [conjunct]
    exact .inl ⟨l, member, shape⟩
  · right
    intro v mentioned
    exact untouched v ((wf.mem_vars_flatten known .conj v).mpr ⟨o, conjunct, mentioned⟩)

theorem WellFormed.fixBackbone_detached (wf : s.WellFormed) (known : f ∈ s)
    (cnf : s.isCnf f = true) (backbone : s.backbone f = .ok (some ls)) {r : Formula × Store}
    (run : s.fixBackbone f = .ok r) (true_ : s.eval value f = true)
    (conjunct : o ∈ r.2.flatten .conj r.1) : Detached ls r.2 o := by
  have meaning := wf.fixBackbone_eval known cnf run value
  have beside := wf.backboneParts_beside known backbone
  have wf' := beside.grows.wellFormed wf
  have present := fun g member => (beside.each g member).1
  have joined : Joined _ .conj _ _ _ := wf'.junction_joined present
  cases (fixBackbone_some backbone).symm.trans run
  have all := (joined.eval_eq wf' present value).symm.trans (meaning.trans true_)
  obtain ⟨g, member, inside⟩ :=
    (joined.mem_conjuncts wf' (List.all_eq_true.mp all)).mp conjunct
  have detached : Detached ls (s.backboneParts f ls).2 g := by
    rcases (beside.each g member).2 with literal | rfl
    · exact .inl literal
    · exact .inr fun v mentioned => (beside.rest.2.vars_sub v mentioned).2
  have proper := (wf'.flatten_proper (present g member) inside).1
  exact (detached.conjunct wf' (present g member) inside).later joined.later proper

theorem WellFormed.subsumption_conjuncts (wf : s.WellFormed) (known : f ∈ s) {r : Formula × Store}
    (run : s.subsumption f = .ok r) (true_ : s.eval value f = true)
    (conjunct : o ∈ r.2.flatten .conj r.1) : o ∈ s.flatten .conj f := by
  obtain ⟨_, rfl | ⟨fs, gs, shape, kept, rfl⟩⟩ := subsumption_cases run
  · exact conjunct
  have flat : s.flatten .conj f = fs := wf.flatten_node shape
  rw [← wf.holds_flatten .conj, flat] at true_
  have present : ∀ g ∈ gs, g ∈ s := fun g member =>
    child_mem known (by rw [shape]; exact kept.subset member)
  have joined : Joined _ .conj _ _ _ := wf.junction_joined present
  obtain ⟨g, member, inside⟩ := (joined.mem_conjuncts wf fun g member =>
    List.all_eq_true.mp true_ g (kept.subset member)).mp conjunct
  have here : g ∈ s.flatten .conj f := by
    rw [flat]
    exact kept.subset member
  rw [wf.flatten_operand known here, List.mem_singleton] at inside
  rwa [inside]

/-- Clauses that are equivalent to others with a model, stand beside the backbone of those, and mention
their variables only. -/
structure Separated (s₀ : Store) (f : Formula) (ls : List Lit) (s : Store) (g : Formula) : Prop where
  wellFormed : s.WellFormed
  mem : g ∈ s
  backbone : s₀.IsBackbone f (some ls)
  eval_eq : ∀ value, s.eval value g = s₀.eval value f
  vars_sub : ∀ v ∈ s.vars g, v ∈ s₀.vars f
  detached : ∀ o ∈ s.flatten .conj g, Detached ls s o

namespace Separated

variable {s₀ : Store} (separated : Separated s₀ f ls s g)

include separated

theorem exists_model : ∃ value, s.eval value g = true := by
  obtain ⟨⟨value, true_⟩, _⟩ := separated.backbone
  exact ⟨value, (separated.eval_eq value).trans true_⟩

theorem conjunct_true (true_ : s.eval value g = true) (conjunct : o ∈ s.flatten .conj g) :
    s.eval value o = true := by
  rw [← separated.wellFormed.holds_flatten .conj] at true_
  exact List.all_eq_true.mp true_ o conjunct

theorem mem_of_literal (conjunct : o ∈ s.flatten .conj g) (shape : s.node o = .lit l) : l ∈ ls := by
  have wf := separated.wellFormed
  have known := (wf.flatten_proper separated.mem conjunct).1
  apply (separated.backbone.2 l).mpr
  constructor
  · apply separated.vars_sub
    apply (wf.mem_vars_flatten separated.mem .conj l.var).mpr
    exact ⟨o, conjunct, (wf.mem_vars known _).mpr (.inl ⟨l, shape, rfl⟩)⟩
  · intro value true_
    rw [← separated.eval_eq] at true_
    rw [← (wf.lit_meaning known shape).1]
    exact separated.conjunct_true true_ conjunct

/-- A backbone literal stands as a clause: when it is made false in a model, a conjunct becomes false,
which must be the literal, since the other backbone literals and the other conjuncts do not change. -/
theorem exists_literal (member : l ∈ ls) : ∃ o ∈ s.flatten .conj g, s.node o = .lit l := by
  have wf := separated.wellFormed
  obtain ⟨⟨value, true_⟩, members⟩ := separated.backbone
  have false_ : s.eval (l.falsify value) g = false := by
    rw [separated.eval_eq]
    by_contra still
    have holds := ((members l).mp member).2 _ (by simpa using still)
    cases holds.symm.trans (l.holds_falsify value)
  rw [← wf.holds_flatten .conj] at false_
  obtain ⟨o, conjunct, fails⟩ := Connective.holds_eq_deciding.mp false_
  have known := (wf.flatten_proper separated.mem conjunct).1
  have before := separated.conjunct_true ((separated.eval_eq value).trans true_) conjunct
  have same : l.var ∉ s.vars o → False := by
    intro other
    rw [wf.eval_falsify known other, before] at fails
    cases fails
  rcases separated.detached o conjunct with ⟨m, other, shape⟩ | untouched
  · refine ⟨o, conjunct, ?_⟩
    have var : l.var = m.var := by
      by_contra apart
      exact same fun here => apart ((wf.lit_meaning known shape).2 _ here)
    have first := ((members l).mp member).2 value true_
    have second := ((members m).mp other).2 value true_
    simp only [Lit.holds, beq_iff_eq] at first second
    rw [shape, Lit.ext_var_phase var (by rw [← first, ← second, var])]
  · exact (same fun here => untouched _ here l member rfl).elim

theorem untouched (conjunct : o ∈ s.flatten .conj g) (compound : s.isAtomic o = false) :
    ∀ v ∈ s.vars o, Untouched ls v := by
  rcases separated.detached o conjunct with ⟨l, _, shape⟩ | untouched
  · simp [isAtomic, shape, Node.isAtomic] at compound
  · exact untouched

theorem literal_of_atomic (conjunct : o ∈ s.flatten .conj g) (atomic : s.isAtomic o = true) :
    ∃ l ∈ ls, s.node o = .lit l := by
  have wf := separated.wellFormed
  obtain ⟨known, proper, _⟩ := wf.flatten_proper separated.mem conjunct
  obtain ⟨value, true_⟩ := separated.exists_model
  have holds := separated.conjunct_true true_ conjunct
  cases shape : s.node o with
  | falsum =>
    rw [wf.eq_falsum known shape, wf.eval_falsum] at holds
    cases holds
  | verum => exact absurd (wf.eq_verum known shape) proper
  | lit l => exact ⟨l, separated.mem_of_literal conjunct shape, rfl⟩
  | not | and | or | implies | equiv => simp [isAtomic, shape, Node.isAtomic] at atomic

end Separated

end Store

namespace Compiler

open Store

variable {s s' s₂ s₃ : Store} {f o : Formula} {m : Compiler} {ls : List Lit}

/-- What clauses are prepared to: equivalent clauses, the falsum if there is no model, in two parts
without a common variable. The first part is the falsum or has the backbone literals for clauses. The
clauses of the second have at least two literals, and it entails no literal. -/
structure Splits (s : Store) (f : Formula) (m : Compiler) (s' : Store) : Prop where
  mem : m.cnf ∈ s' ∧ m.units ∈ s' ∧ m.nonUnits ∈ s'
  isCnf : s'.isCnf m.cnf = true
  eval_eq : ∀ value, s'.eval value m.cnf = s.eval value f
  falsum_iff : m.cnf = .falsum ↔ ∀ value, s.eval value f = false
  parts : ∀ value, s'.eval value m.cnf = (s'.eval value m.units && s'.eval value m.nonUnits)
  units : (s.IsBackbone f none ∧ m.units = .falsum) ∨
    ∃ ls cs, s.IsBackbone f (some ls) ∧ s'.clauses m.units = .ok cs ∧
      ∀ c, c ∈ cs ↔ ∃ l ∈ ls, c = [l]
  apart : s'.Apart m.units m.nonUnits
  wide : ∃ cs, s'.clauses m.nonUnits = .ok cs ∧ ∀ c ∈ cs, c.Nodup ∧ 2 ≤ c.length
  /-- Every literal is false in some model. -/
  free : ∀ l : Lit, ∃ value, s'.eval value m.nonUnits = true ∧ l.holds value = false

namespace Simplified

variable (simplified : m.Simplified s₂ s₃ s')

include simplified

theorem parts_eval (value : Var → Bool) :
    s₂.eval value m.cnf = (s'.eval value m.units && s'.eval value m.nonUnits) := by
  have known : ∀ u ∈ (s₂.split m.cnf).2, u ∈ s₂ := fun u member =>
    (split_nonUnits simplified.wellFormed simplified.mem simplified.cnf member).2.2.1
  have units : s'.eval value m.units = (s₂.split m.cnf).1.all (s₂.eval value) := by
    rw [simplified.joined.later.eval_eq simplified.units_joined.mem]
    exact simplified.units_builds.eval_eq value
  have nonUnits : s'.eval value m.nonUnits = (s₂.split m.cnf).2.all (s₂.eval value) := by
    rw [simplified.joined.eval_eq simplified.units_wellFormed
      fun u member => simplified.later.mem (known u member)]
    apply Connective.holds_congr (c := .conj)
    intro u member
    exact simplified.later.eval_eq (known u member) value
  rw [units, nonUnits]
  exact split_eval s₂ m.cnf value

variable (separated : Separated s f ls s₂ m.cnf)

include separated

theorem units_conjunct_iff :
    o ∈ s'.flatten .conj m.units ↔ o ∈ s₂ ∧ ∃ l ∈ ls, s₂.node o = .lit l := by
  have wf := simplified.wellFormed
  obtain ⟨value, true_⟩ := separated.exists_model
  rw [simplified.joined.later.flatten_eq simplified.units_joined.mem, (simplified.conjuncts true_).1]
  constructor
  · rintro ⟨conjunct, atomic⟩
    exact ⟨(wf.flatten_proper simplified.mem conjunct).1, separated.literal_of_atomic conjunct atomic⟩
  · rintro ⟨known, l, member, shape⟩
    obtain ⟨o', conjunct, shape'⟩ := separated.exists_literal member
    have known' := (wf.flatten_proper simplified.mem conjunct).1
    obtain rfl := wf.node_inj known known' (shape.trans shape'.symm)
    exact ⟨conjunct, by simp [isAtomic, shape, Node.isAtomic]⟩

theorem nonUnits_conjunct (conjunct : o ∈ s'.flatten .conj m.nonUnits) :
    (∃ gs, s'.node o = .or gs) ∧ ∀ v ∈ s'.vars o, Untouched ls v := by
  have wf := simplified.wellFormed
  have later := simplified.later.trans simplified.joined.later
  obtain ⟨value, true_⟩ := separated.exists_model
  obtain ⟨conjunct, compound⟩ := (simplified.conjuncts true_).2.mp conjunct
  have known := (wf.flatten_proper simplified.mem conjunct).1
  have clause := (wf.isCnf_iff simplified.mem).mp simplified.cnf o conjunct
  rw [later.node_eq known, later.vars_eq known]
  constructor
  · unfold isClause at clause
    unfold isAtomic at compound
    cases shape : s₂.node o <;> simp_all [Node.isAtomic]
  · exact separated.untouched conjunct compound

theorem nonUnits_untouched {v : Var} (mentioned : v ∈ s'.vars m.nonUnits) : Untouched ls v := by
  have wf' := simplified.joined.wellFormed
  obtain ⟨o, conjunct, inside⟩ :=
    (wf'.mem_vars_flatten simplified.joined.mem .conj v).mp mentioned
  exact (simplified.nonUnits_conjunct separated conjunct).2 v inside

theorem units_apart : s'.Apart m.units m.nonUnits := by
  intro v mentioned again
  have wf := simplified.wellFormed
  have later := simplified.later.trans simplified.joined.later
  have known := simplified.joined.later.mem simplified.units_joined.mem
  obtain ⟨o, conjunct, inside⟩ :=
    (simplified.joined.wellFormed.mem_vars_flatten known .conj v).mp mentioned
  obtain ⟨here, l, member, shape⟩ := (simplified.units_conjunct_iff separated).mp conjunct
  rw [later.vars_eq here] at inside
  have var := (wf.lit_meaning here shape).2 v inside
  exact simplified.nonUnits_untouched separated again l member var.symm

theorem units_clauses : ∃ cs, s'.clauses m.units = .ok cs ∧ ∀ c, c ∈ cs ↔ ∃ l ∈ ls, c = [l] := by
  have wf := simplified.wellFormed
  have wf' := simplified.joined.wellFormed
  have later := simplified.later.trans simplified.joined.later
  have known := simplified.joined.later.mem simplified.units_joined.mem
  have read {o : Formula} {l : Lit} (here : o ∈ s₂) (shape : s₂.node o = .lit l) :
      s'.clauseLits o = .ok [l] := by
    rw [clauseLits, later.node_eq here, shape]
  have cnf : s'.isCnf m.units = true := by
    rw [wf'.isCnf_iff known]
    intro o conjunct
    obtain ⟨here, l, _, shape⟩ := (simplified.units_conjunct_iff separated).mp conjunct
    rw [isClause, later.node_eq here, shape]
  obtain ⟨cs, run, _⟩ := clauses_delivers cnf
  refine ⟨cs, run, fun c => ?_⟩
  rw [wf'.mem_clauses known run]
  constructor
  · rintro ⟨o, conjunct, found⟩
    obtain ⟨here, l, member, shape⟩ := (simplified.units_conjunct_iff separated).mp conjunct
    exact ⟨l, member, (Except.ok.inj ((read here shape).symm.trans found)).symm⟩
  · rintro ⟨l, member, rfl⟩
    obtain ⟨o, conjunct, shape⟩ := separated.exists_literal member
    have here := (wf.flatten_proper simplified.mem conjunct).1
    exact ⟨o, (simplified.units_conjunct_iff separated).mpr ⟨here, l, member, shape⟩, read here shape⟩

/-- Clauses with a model are split. -/
theorem splits : m.Splits s f s' := by
  have wf' := simplified.joined.wellFormed
  have later := simplified.later.trans simplified.joined.later
  obtain ⟨value, true_⟩ := separated.exists_model
  refine ⟨⟨later.mem simplified.mem, simplified.joined.later.mem simplified.units_joined.mem,
    simplified.joined.mem⟩, ?_, ?_, ?_, ?_, ?_, simplified.units_apart separated, ?_, ?_⟩
  · rw [later.isCnf_eq simplified.mem]
    exact simplified.cnf
  · intro value
    rw [later.eval_eq simplified.mem, separated.eval_eq]
  · constructor
    · intro falsum value
      rw [← separated.eval_eq, falsum, simplified.wellFormed.eval_falsum]
    · intro never
      cases true_.symm.trans ((separated.eval_eq value).trans (never value))
  · intro value
    rw [later.eval_eq simplified.mem, simplified.parts_eval]
  · obtain ⟨cs, run, members⟩ := simplified.units_clauses separated
    exact .inr ⟨ls, cs, separated.backbone, run, members⟩
  · obtain ⟨cs, run, _⟩ := clauses_delivers simplified.isCnf
    refine ⟨cs, run, fun c member => ?_⟩
    obtain ⟨o, conjunct, read⟩ := (wf'.mem_clauses simplified.joined.mem run).mp member
    obtain ⟨gs, shape⟩ := (simplified.nonUnits_conjunct separated conjunct).1
    exact wf'.clauseLits_many (wf'.flatten_proper simplified.joined.mem conjunct).1 shape read
  · apply wf'.exists_falsifying simplified.joined.mem separated.backbone
    · intro value true_
      rw [← separated.eval_eq, simplified.parts_eval, Bool.and_eq_true] at true_
      exact true_.2
    · intro v mentioned
      exact ⟨separated.vars_sub v (simplified.vars_sub mentioned),
        simplified.nonUnits_untouched separated mentioned⟩

end Simplified

theorem prepare_refuted {settings : Settings} (wf : s.WellFormed)
    (refuted : s.backbone f = .ok none) (run : prepare s f settings = .ok (m, s')) :
    s' = s ∧ m.cnf = .falsum ∧ m.units = .falsum ∧ m.nonUnits = .verum := by
  obtain ⟨_, r, s₂, fixed, subsumed, _, units, nonUnits, rfl⟩ := prepare_ok run
  have cnf : s.isCnf .falsum = true := isCnf_of_isClause (by rw [isClause, wf.node_falsum])
  simp only [fixBackbone, refuted] at fixed
  cases fixed
  simp only [subsumption, cnf, wf.node_falsum] at subsumed
  obtain ⟨same, rfl⟩ := Prod.mk.inj (Except.ok.inj subsumed)
  have split : s.split .falsum = ([.falsum], []) := by simp [split, wf.node_falsum]
  rw [← same, split] at units nonUnits ⊢
  exact ⟨rfl, rfl, units, nonUnits⟩

theorem splits_refuted (wf : s.WellFormed) (refuted : s.IsBackbone f none) (falsum : m.cnf = .falsum)
    (units : m.units = .falsum) (nonUnits : m.nonUnits = .verum) : m.Splits s f s where
  mem := by
    rw [falsum, units, nonUnits]
    exact ⟨wf.falsum_mem, wf.falsum_mem, wf.verum_mem⟩
  isCnf := by
    rw [falsum]
    exact isCnf_of_isClause (by rw [isClause, wf.node_falsum])
  eval_eq value := by rw [falsum, wf.eval_falsum, refuted value]
  falsum_iff := ⟨fun _ => refuted, fun _ => falsum⟩
  parts value := by rw [falsum, units, wf.eval_falsum, Bool.false_and]
  units := .inl ⟨refuted, units⟩
  apart := by
    intro v mentioned
    rw [units, wf.vars_constant rfl] at mentioned
    cases mentioned
  wide := by
    refine ⟨[], ?_, List.forall_mem_nil _⟩
    rw [nonUnits, clauses, wf.node_verum]
  free l := by
    refine ⟨l.falsify fun _ => false, ?_, l.holds_falsify _⟩
    rw [nonUnits, wf.eval_verum]

theorem prepare_separated {settings : Settings} (wf : s.WellFormed) (known : f ∈ s)
    (cnf : s.isCnf f = true) (search : s.backbone f = .ok (some ls))
    (run : prepare s f settings = .ok (m, s')) :
    ∃ s₂ s₃, m.Simplified s₂ s₃ s' ∧ Separated s f ls s₂ m.cnf := by
  have backbone := (wf.backbone_strives known cnf).answer search
  obtain ⟨value, true_⟩ := backbone.1
  obtain ⟨r, s₂, s₃, fixed, subsumed, _, simplified, sub, _⟩ := prepare_stages wf known run
  obtain ⟨grows, mem, _⟩ := fixBackbone_within wf known fixed
  have wf₁ := grows.wellFormed wf
  have builds := wf₁.subsumption_builds mem subsumed
  have meaning := wf.fixBackbone_eval known cnf fixed
  refine ⟨s₂, s₃, simplified, simplified.wellFormed, simplified.mem, backbone, ?_, sub, ?_⟩
  · intro value
    exact (builds.eval_eq value).trans (meaning value)
  · intro o conjunct
    have before := wf₁.subsumption_conjuncts mem subsumed ((meaning value).trans true_) conjunct
    have detached := wf.fixBackbone_detached known cnf search fixed true_ before
    exact detached.later (builds.later wf₁) (wf₁.flatten_proper mem before).1

/-- Preparation splits clauses, unless they have at least 64 variables and the search for their
backbone runs out of restarts. -/
theorem prepare_splits (leads : Leads initial s) (known : f ∈ s) (cnf : s.isCnf f = true)
    (settings : Settings) :
    Strives (64 ≤ (s.vars f).length) (prepare s f settings) fun x => x.1.Splits s f x.2 := by
  have wf := leads.wellFormed
  have strives : Strives _ (prepare s f settings) _ := prepare_strives wf known cnf
  rcases strives with ⟨⟨m, s'⟩, run, _⟩ | exhausted
  · refine .inl ⟨(m, s'), run, ?_⟩
    obtain ⟨_, r, _, fixed, _⟩ := prepare_ok run
    obtain ⟨found, search, _⟩ := bind_ok.mp fixed
    cases found with
    | none =>
      have refuted := (wf.backbone_strives known cnf).answer search
      obtain ⟨rfl, falsum, units, nonUnits⟩ := prepare_refuted wf search run
      exact splits_refuted wf refuted falsum units nonUnits
    | some ls =>
      obtain ⟨s₂, s₃, simplified, separated⟩ := prepare_separated wf known cnf search run
      exact simplified.splits separated
  · exact .inr exhausted

/-- The variable is the only literal among the clauses. -/
theorem prepare_splits_guarded : ∃ s f m s' cs, Leads initial s ∧ f ∈ s ∧ s.isCnf f = true ∧
    (∀ value, s.eval value f = (value ⟨0⟩ && (value ⟨1⟩ || value ⟨2⟩))) ∧
      prepare s f {} = .ok (m, s') ∧ m.Splits s f s' ∧ s'.clauses m.units = .ok cs ∧
        ∀ c, c ∈ cs ↔ c = [⟨0⟩] := by
  obtain ⟨s, f, leads, known, cnf, meaning, vars⟩ := exists_guarded
  have few : (s.vars f).length ≤ 3 := leads.wellFormed.length_vars_le known vars
  obtain ⟨⟨value, true_⟩, members⟩ := leads.wellFormed.isBackbone_guarded known meaning vars
  obtain ⟨⟨m, s'⟩, run, splits⟩ :=
    (prepare_splits leads known cnf {}).resolve_right (by omega)
  obtain ⟨never, _⟩ | ⟨ls, cs, ⟨_, members'⟩, clauses, each⟩ := splits.units
  · cases true_.symm.trans (never value)
  · refine ⟨s, f, m, s', cs, leads, known, cnf, meaning, run, splits, clauses, fun c => ?_⟩
    have same (l : Lit) : l ∈ ls ↔ l ∈ [⟨0⟩] := (members' l).trans (members l).symm
    simp [each, same]

end Compiler

end ModelCounting
