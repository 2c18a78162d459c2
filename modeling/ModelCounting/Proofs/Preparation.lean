import ModelCounting.Compilation.Compiler
import ModelCounting.Proofs.Circuit
import ModelCounting.Proofs.Clausal
import ModelCounting.Proofs.Numbering

/-!
Preparation of clauses for compilation: the backbone literals beside the clauses restricted by them,
without the subsumed ones, split into literals and the rest. Nothing but the variables of the formula
is ever mentioned.
-/

namespace ModelCounting

namespace Backbone

theorem confirm_sublist {candidates found : List Lit} {solver : Solver}
    (run : confirm candidates solver = .ok found) : found.Sublist candidates := by
  induction size : candidates.length using Nat.strongRecOn generalizing candidates found solver with
  | ind n ih =>
    cases candidates with
    | nil =>
      rw [confirm] at run
      cases run
      exact .slnil
    | cons l ls =>
      rw [confirm] at run
      split at run
      · simp at run
      · rename_i solver' _
        have fewer := List.length_filter_le (agrees (solver'.model.getD #[])) ls
        have rest := ih _ (by rw [← size, List.length_cons]; omega) run rfl
        exact (rest.trans List.filter_sublist).cons l
      · split at run
        · simp at run
        · split at run
          · simp at run
          · rename_i found' rest
            cases run
            exact (ih _ (by rw [← size, List.length_cons]; omega) rest rfl).cons_cons l

end Backbone

namespace Store

open Backbone

variable {s s' : Store} {f g : Formula}

theorem backbone_candidates {ls : List Lit} (run : s.backbone f = .ok (some ls)) :
    ∃ (phase : Nat → Bool) (found : List Lit),
      found.Sublist ((List.range (s.vars f).length).map fun i => Lit.of ⟨i⟩ (phase i)) ∧
      ls = found.map (unplace (s.vars f).toArray) := by
  simp only [backbone, bind_ok, Prod.exists] at run
  obtain ⟨cs, _, _, _, _, _, _, solver, _, rest⟩ := run
  split at rest
  · simp at rest
  · rename_i model _
    simp only [bind_ok, pure_ok, Option.some.injEq] at rest
    obtain ⟨found, confirmed, rfl⟩ := rest
    exact ⟨fun i => model.getD i false, found, confirm_sublist confirmed, rfl⟩

theorem unplace_var {vars : List Var} {l : Lit} (inside : l.var.id < vars.length) :
    vars[l.var.id]? = some (unplace vars.toArray l).var := by
  simp [unplace, inside]

theorem WellFormed.backbone_literals (wf : s.WellFormed) (known : f ∈ s) {ls : List Lit}
    (run : s.backbone f = .ok (some ls)) : (∀ l ∈ ls, l.var ∈ s.vars f) ∧ Consistent ls := by
  obtain ⟨phase, found, sub, rfl⟩ := backbone_candidates run
  have shape {l : Lit} (member : l ∈ found) :
      l.var.id < (s.vars f).length ∧ l.phase = phase l.var.id := by
    obtain ⟨i, small, rfl⟩ := List.mem_map.mp (sub.subset member)
    simpa using List.mem_range.mp small
  have distinct := wf.nodup_vars known
  constructor
  · intro l member
    obtain ⟨m, hm, rfl⟩ := List.mem_map.mp member
    exact List.mem_of_getElem? (unplace_var (shape hm).1)
  · intro l member opposite
    obtain ⟨m, hm, same⟩ := List.mem_map.mp member
    obtain ⟨m', hm', same'⟩ := List.mem_map.mp opposite
    -- both come from the same place, so they have the same phase
    have place : (s.vars f)[m.var.id]? = (s.vars f)[m'.var.id]? := by
      rw [unplace_var (shape hm).1, unplace_var (shape hm').1, same, same', Lit.var_neg]
    have index : m.var.id = m'.var.id :=
      (List.getElem?_inj (shape hm).1 distinct).mp place
    have phases : l.phase = (-l).phase := by
      rw [← same', ← same]
      simp only [unplace, Lit.phase_of]
      rw [(shape hm).2, (shape hm').2, index]
    simp at phases

theorem WellFormed.backbone_words (wf : s.WellFormed) (known : f ∈ s) {ls : List Lit}
    (run : s.backbone f = .ok (some ls)) : ∀ l ∈ ls, l.code < Node.wordLimit := by
  intro l member
  have := wf.var_lt known ((wf.backbone_literals known run).1 l member)
  simp only [Lit.var, Node.wordLimit] at *
  omega

def backboneParts (s : Store) (f : Formula) (ls : List Lit) : List Formula × Store :=
  let (rest, s) := s.restrict f ls
  let (fs, s) := s.literals ls
  (fs ++ [rest], s)

theorem fixBackbone_some {ls : List Lit} (backbone : s.backbone f = .ok (some ls)) :
    s.fixBackbone f = .ok ((s.backboneParts f ls).2.conj (s.backboneParts f ls).1) := by
  rw [fixBackbone, backbone]
  rfl

/-- Literals beside a formula that is restricted by them. -/
structure Beside (s : Store) (f : Formula) (ls : List Lit) (parts : List Formula × Store) : Prop where
  grows : Grows s parts.2
  later : Extends (s.restrict f ls).2 parts.2
  rest : Restricts ls f parts.2 (s.restrict f ls).1
  rest_mem : (s.restrict f ls).1 ∈ parts.1
  each : ∀ g ∈ parts.1, g ∈ parts.2 ∧ ((∃ l ∈ ls, parts.2.node g = .lit l) ∨ g = (s.restrict f ls).1)
  literal : ∀ l ∈ ls, ∃ g ∈ parts.1, parts.2.node g = .lit l

theorem WellFormed.backboneParts_beside (wf : s.WellFormed) (known : f ∈ s) {ls : List Lit}
    (backbone : s.backbone f = .ok (some ls)) : Beside s f ls (s.backboneParts f ls) := by
  obtain ⟨grows, restricts⟩ :=
    wf.restrict_restricts known (wf.backbone_literals known backbone).2
  have wf₁ := grows.wellFormed wf
  have words := wf.backbone_words known backbone
  have literals := (wf₁.literals_build words).1
  obtain ⟨backward, forward⟩ := wf₁.literals_meaning words
  have rest := Rewrites.later restricts (literals.later wf₁)
  refine ⟨grows.trans literals, literals.later wf₁, rest, ?_, ?_, ?_⟩
  · exact List.mem_append_right _ (List.mem_singleton_self _)
  · intro g member
    rcases List.mem_append.mp member with member | member
    · obtain ⟨l, listed, here, shape⟩ := backward g member
      exact ⟨here, .inl ⟨l, listed, shape⟩⟩
    · obtain rfl := List.mem_singleton.mp member
      exact ⟨rest.2.mem, .inr rfl⟩
  · intro l listed
    obtain ⟨g, member, shape⟩ := forward l listed
    exact ⟨g, List.mem_append_left _ member, shape⟩

/-- All parts are true just if the literals and the formula are. -/
theorem Beside.all_eval {ls : List Lit} {parts : List Formula × Store} (beside : Beside s f ls parts)
    (wf : s.WellFormed) (known : f ∈ s) (value : Var → Bool) :
    parts.1.all (parts.2.eval value) = (ls.all (·.holds value) && s.eval value f) := by
  have lit_eval {g : Formula} {l : Lit} (shape : parts.2.node g = .lit l) :
      parts.2.eval value g = l.holds value := by
    rw [eval_node, shape]
    rfl
  have rest (hold : ∀ l ∈ ls, l.holds value = true) :
      parts.2.eval value (s.restrict f ls).1 = s.eval value f := by
    rw [beside.rest.2.eval_eq, override_self hold, (beside.grows.later wf).eval_eq known]
  rw [Bool.eq_iff_iff, Bool.and_eq_true, List.all_eq_true, List.all_eq_true]
  constructor
  · intro all
    have hold : ∀ l ∈ ls, l.holds value = true := by
      intro l listed
      obtain ⟨g, member, shape⟩ := beside.literal l listed
      rw [← lit_eval shape]
      exact all g member
    exact ⟨hold, (rest hold).symm.trans (all _ beside.rest_mem)⟩
  · rintro ⟨hold, true_⟩ g member
    rcases (beside.each g member).2 with ⟨l, listed, shape⟩ | rfl
    · rw [lit_eval shape]
      exact hold l listed
    · rw [rest hold]
      exact true_

/-- A formula is replaced by the falsum, or by itself beside its backbone literals. -/
theorem WellFormed.fixBackbone_cases (wf : s.WellFormed) (known : f ∈ s) {r : Formula × Store}
    (run : s.fixBackbone f = .ok r) :
    (s.backbone f = .ok none ∧ r = (.falsum, s)) ∨
      ∃ ls, s.backbone f = .ok (some ls) ∧
        Builds s r (fun value => ls.all (·.holds value) && s.eval value f) (· ∈ s.vars f) := by
  obtain ⟨found, backbone, rest⟩ := bind_ok.mp run
  cases found with
  | none =>
    cases rest
    exact .inl ⟨backbone, rfl⟩
  | some ls =>
    refine .inr ⟨ls, backbone, ?_⟩
    have beside := wf.backboneParts_beside known backbone
    have wf' := beside.grows.wellFormed wf
    have present := fun g member => (beside.each g member).1
    cases (fixBackbone_some backbone).symm.trans run
    refine ((wf'.junction_builds present).after beside.grows).mono (beside.all_eval wf known) ?_
    rintro v ⟨g, member, mentioned⟩
    rcases (beside.each g member).2 with ⟨l, listed, shape⟩ | rfl
    · rw [(wf'.lit_meaning (present g member) shape).2 v mentioned]
      exact (wf.backbone_literals known backbone).1 l listed
    · have inside := (beside.rest.2.vars_sub v mentioned).1
      rwa [(beside.grows.later wf).vars_eq known] at inside

/-! Shapes. -/

theorem WellFormed.isCnf_iff (wf : s.WellFormed) (known : f ∈ s) :
    s.isCnf f = true ↔ ∀ o ∈ s.flatten .conj f, s.isClause o = true := by
  by_cases neutral : f = Connective.conj.neutral
  · rw [neutral, flatten_neutral]
    simp [isCnf, Connective.neutral, wf.node_verum]
  · rcases s.flatten_cases .conj neutral with ⟨gs, shape, flat⟩ | ⟨other, flat⟩
    · rw [flat, isCnf, shape]
      simp [Connective.node]
    · rw [flat, isCnf]
      split
      · rename_i shape
        exact absurd (wf.eq_verum known shape) neutral
      · rename_i fs shape
        exact absurd shape (other fs)
      · simp

theorem Extends.isClause_eq (later : Extends s s') (known : f ∈ s) :
    s'.isClause f = s.isClause f := by
  unfold isClause
  rw [later.node_eq known]
  cases shape : s.node f with
  | or fs =>
    show (fs.all fun g => (s'.asLit? g).isSome) = fs.all fun g => (s.asLit? g).isSome
    rw [Bool.eq_iff_iff, List.all_eq_true, List.all_eq_true]
    refine forall₂_congr fun g hg => ?_
    rw [asLit?, asLit?, later.node_eq (child_mem known (by rwa [shape]))]
  | falsum | verum | lit | not | and | implies | equiv => rfl

theorem Extends.isCnf_eq (later : Extends s s') (known : f ∈ s) : s'.isCnf f = s.isCnf f := by
  unfold isCnf
  rw [later.node_eq known, later.isClause_eq known]
  cases shape : s.node f with
  | and fs =>
    show fs.all s'.isClause = fs.all s.isClause
    rw [Bool.eq_iff_iff, List.all_eq_true, List.all_eq_true]
    exact forall₂_congr fun g member => by rw [later.isClause_eq (child_mem known (by rwa [shape]))]
  | falsum | verum | lit | not | or | implies | equiv => rfl

theorem Joined.isCnf {fs : List Formula} (joined : Joined s .conj fs g s') (wf : s.WellFormed)
    (known : ∀ f ∈ fs, f ∈ s) (each : ∀ f ∈ fs, s.isCnf f = true) : s'.isCnf g = true := by
  rw [joined.wellFormed.isCnf_iff joined.mem]
  by_cases decided : s.Decided .conj fs
  · rw [joined.decided decided]
    have flat : s'.flatten .conj .falsum = [.falsum] :=
      flatten_self (by decide) (by simp [joined.wellFormed.node_falsum, Connective.node])
    simp [Connective.absorbing, flat, isClause, joined.wellFormed.node_falsum]
  · rw [joined.flatten_eq decided]
    intro o operand
    obtain ⟨f, hf, flat⟩ := mem_operandsOf.mp operand
    rw [joined.later.isClause_eq (wf.flatten_proper (known f hf) flat).1]
    exact (wf.isCnf_iff (known f hf)).mp (each f hf) o flat

theorem isCnf_of_isClause (clause : s.isClause f = true) : s.isCnf f = true := by
  unfold isCnf
  split
  · rfl
  · rename_i shape
    simp [isClause, shape] at clause
  · exact clause

theorem WellFormed.subsumption_isCnf (wf : s.WellFormed) (known : f ∈ s) {r : Formula × Store}
    (run : s.subsumption f = .ok r) : r.2.isCnf r.1 = true := by
  obtain ⟨cnf, rfl | ⟨fs, gs, shape, kept, rfl⟩⟩ := subsumption_cases run
  · exact cnf
  · have present : ∀ g ∈ gs, g ∈ s := fun g member =>
      child_mem known (by rw [shape]; exact kept.subset member)
    refine (wf.junction_joined present).isCnf wf present fun g member => ?_
    simp only [isCnf, shape, List.all_eq_true] at cnf
    exact isCnf_of_isClause (cnf g (kept.subset member))

/-! Splitting. -/

def split (s : Store) (cnf : Formula) : List Formula × List Formula :=
  match s.node cnf with
  | .and fs => fs.partition s.isAtomic
  | .or _ => ([], [cnf])
  | _ => ([cnf], [])

theorem split_units {u : Formula} (wf : s.WellFormed) (known : f ∈ s) (cnf : s.isCnf f = true)
    (member : u ∈ (s.split f).1) : s.isAtomic u = true ∧ u ∈ s ∧ ∀ v ∈ s.vars u, v ∈ s.vars f := by
  unfold split at member
  split at member
  · rename_i fs shape
    rw [List.partition_eq_filter_filter] at member
    obtain ⟨inside, atomic⟩ := List.mem_filter.mp member
    have child : u ∈ (s.node f).children := by rwa [shape]
    exact ⟨atomic, child_mem known child, fun v => wf.vars_child known child⟩
  · simp at member
  · rename_i notAnd notOr
    obtain rfl := List.mem_singleton.mp member
    refine ⟨?_, known, fun v h => h⟩
    unfold isCnf isClause at cnf
    unfold isAtomic
    cases shape : s.node u <;> simp_all [Node.isAtomic]

theorem split_nonUnits {u : Formula} (wf : s.WellFormed) (known : f ∈ s) (cnf : s.isCnf f = true)
    (member : u ∈ (s.split f).2) : (∃ gs, s.node u = .or gs) ∧ s.isClause u = true ∧ u ∈ s ∧
      ∀ v ∈ s.vars u, v ∈ s.vars f := by
  unfold split at member
  split at member
  · rename_i fs shape
    rw [List.partition_eq_filter_filter] at member
    obtain ⟨inside, compound⟩ := List.mem_filter.mp member
    have child : u ∈ (s.node f).children := by rwa [shape]
    have clause : s.isClause u = true := by
      simp only [isCnf, shape, List.all_eq_true] at cnf
      exact cnf u inside
    refine ⟨?_, clause, child_mem known child, fun v => wf.vars_child known child⟩
    unfold isClause at clause
    unfold isAtomic at compound
    cases shape : s.node u <;> simp_all [Node.isAtomic]
  · rename_i gs shape
    obtain rfl := List.mem_singleton.mp member
    refine ⟨⟨gs, shape⟩, ?_, known, fun v h => h⟩
    unfold isCnf at cnf
    rw [shape] at cnf
    exact cnf
  · simp at member

theorem split_eval (s : Store) (f : Formula) (value : Var → Bool) :
    s.eval value f = ((s.split f).1.all (s.eval value) && (s.split f).2.all (s.eval value)) := by
  unfold split
  split
  · rename_i fs shape
    rw [eval_node, shape, Node.eval, List.partition_eq_filter_filter, Bool.eq_iff_iff,
      Bool.and_eq_true, List.all_eq_true, List.all_eq_true, List.all_eq_true]
    simp only [List.mem_filter, Function.comp_apply, Bool.not_eq_true']
    constructor
    · intro all
      exact ⟨fun g h => all g h.1, fun g h => all g h.1⟩
    · rintro ⟨first, second⟩ g member
      cases atomic : s.isAtomic g
      · exact second g ⟨member, atomic⟩
      · exact first g ⟨member, atomic⟩
  · simp
  · simp

/-- A part of the clauses has the conjuncts of the whole that belong to it. -/
theorem split_conjuncts (wf : s.WellFormed) (known : f ∈ s) (cnf : s.isCnf f = true)
    {o : Formula} :
    ((∃ u ∈ (s.split f).1, o ∈ s.flatten .conj u) ↔
      o ∈ s.flatten .conj f ∧ s.isAtomic o = true) ∧
    ((∃ u ∈ (s.split f).2, o ∈ s.flatten .conj u) ↔
      o ∈ s.flatten .conj f ∧ s.isAtomic o = false) := by
  unfold split
  split
  · rename_i fs shape
    have flat : s.flatten .conj f = fs := wf.flatten_node shape
    have part (keep : Formula → Bool) :
        (∃ u ∈ fs.filter keep, o ∈ s.flatten .conj u) ↔ o ∈ fs ∧ keep o = true := by
      constructor
      · rintro ⟨u, member, inside⟩
        obtain ⟨here, kept⟩ := List.mem_filter.mp member
        rw [wf.flatten_operand known (flat ▸ here), List.mem_singleton] at inside
        rw [inside]
        exact ⟨here, kept⟩
      · rintro ⟨here, kept⟩
        refine ⟨o, List.mem_filter.mpr ⟨here, kept⟩, ?_⟩
        rw [wf.flatten_operand known (flat ▸ here)]
        exact List.mem_singleton_self o
    rw [List.partition_eq_filter_filter, part, part, flat]
    simp
  · rename_i fs shape
    have proper : f ≠ .verum := by
      rintro rfl
      simp [wf.node_verum] at shape
    have flat : s.flatten .conj f = [f] := flatten_self proper (by simp [shape, Connective.node])
    have compound : s.isAtomic f = false := by simp [isAtomic, shape, Node.isAtomic]
    rw [flat]
    simp +contextual [flat, compound]
  · rename_i notAnd notOr
    have atomic : s.isAtomic f = true :=
      (split_units wf known cnf (by unfold split; split <;> simp_all)).1
    have single (inside : o ∈ s.flatten .conj f) : s.isAtomic o = true := by
      by_cases neutral : f = Connective.conj.neutral
      · simp [neutral, flatten_neutral] at inside
      · rw [flatten_self neutral notAnd, List.mem_singleton] at inside
        rwa [inside]
    simp +contextual [single]

/-- A conjunction of disjunctions is atomic only if there is none. -/
theorem Joined.nil_of_atomic {fs : List Formula} (joined : Joined s .conj fs g s')
    (wf : s.WellFormed) (known : ∀ f ∈ fs, f ∈ s) (compound : ∀ f ∈ fs, ∃ gs, s.node f = .or gs)
    (atomic : s'.isAtomic g = true) : fs = [] := by
  have flat {f : Formula} (hf : f ∈ fs) : s.flatten .conj f = [f] := by
    obtain ⟨gs, shape⟩ := compound f hf
    refine flatten_self ?_ (by simp [shape, Connective.node])
    rintro rfl
    simp [Connective.neutral, wf.node_verum] at shape
  have only {o : Formula} (operand : o ∈ s.operandsOf .conj fs) : o ∈ fs := by
    obtain ⟨f, hf, inside⟩ := mem_operandsOf.mp operand
    rw [flat hf, List.mem_singleton] at inside
    exact inside ▸ hf
  have undecided : ¬ s.Decided .conj fs := by
    rintro (falsum | clash)
    · obtain ⟨gs, shape⟩ := compound _ falsum
      simp [Connective.absorbing, wf.node_falsum] at shape
    · obtain ⟨f, hf, _, _, l, shape, _⟩ := (s.clashing_iff _).mp clash
      obtain ⟨gs, shape'⟩ := compound f (only hf)
      simp [shape'] at shape
  rw [List.eq_nil_iff_forall_not_mem]
  intro f hf
  have operand : f ∈ s'.flatten .conj g := by
    rw [joined.flatten_eq undecided]
    exact mem_operandsOf.mpr ⟨f, hf, by simp [flat hf]⟩
  obtain ⟨gs, shape⟩ := compound f hf
  by_cases neutral : g = Connective.conj.neutral
  · simp [neutral, flatten_neutral] at operand
  · rcases s'.flatten_cases .conj neutral with ⟨hs, junction, _⟩ | ⟨_, single⟩
    · simp [isAtomic, junction, Connective.node, Node.isAtomic] at atomic
    · rw [single, List.mem_singleton] at operand
      subst operand
      simp [isAtomic, joined.later.node_eq (known f hf), shape, Node.isAtomic] at atomic

theorem fixBackbone_within (wf : s.WellFormed) (known : f ∈ s) {r : Formula × Store}
    (run : s.fixBackbone f = .ok r) :
    Grows s r.2 ∧ r.1 ∈ r.2 ∧ ∀ v ∈ r.2.vars r.1, v ∈ s.vars f := by
  rcases wf.fixBackbone_cases known run with ⟨_, rfl⟩ | ⟨_, _, builds⟩
  · exact ⟨Grows.refl s, wf.falsum_mem, by simp [wf.vars_constant (f := .falsum) rfl]⟩
  · exact ⟨builds.grows, builds.mem, builds.vars_sub⟩

end Store

namespace Compiler

open Store

variable {s s' : Store} {f : Formula} {settings : Settings} {m : Compiler}

theorem prepare_ok (run : prepare s f settings = .ok (m, s')) :
    s.isCnf f = true ∧ ∃ r s₂, s.fixBackbone f = .ok r ∧ r.2.subsumption r.1 = .ok (m.cnf, s₂) ∧
      Stepper.add { core := { settings } } s₂ m.cnf = .ok m.solver ∧
      m.units = (s₂.conj (s₂.split m.cnf).1).1 ∧
      m.nonUnits = ((s₂.conj (s₂.split m.cnf).1).2.conj (s₂.split m.cnf).2).1 ∧
      s' = ((s₂.conj (s₂.split m.cnf).1).2.conj (s₂.split m.cnf).2).2 := by
  unfold prepare at run
  split at run
  · simp at run
  rename_i cnf
  simp only [bind_ok, Prod.exists] at run
  obtain ⟨g, s₁, fixed, cnf', s₂, subsumed, solver, added, rest⟩ := run
  cases rest
  exact ⟨by simpa using cnf, (g, s₁), s₂, fixed, subsumed, added, rfl, rfl, rfl⟩

/-- Clauses made ready for compilation, over the variables of the formula. -/
structure Prepared (scope : Var → Prop) (m : Compiler) (s : Store) : Prop where
  cnf_mem : m.cnf ∈ s
  units : DetNnf scope s m.units
  nonUnits_mem : m.nonUnits ∈ s
  nonUnits_sub : ∀ v ∈ s.vars m.nonUnits, scope v
  names : m.solver.NamesIn fun v => scope v ∧ 2 * v.id + 1 < Node.wordLimit
  /-- If nothing but literals is left, the clauses are a circuit already. -/
  atomic : s.isAtomic m.nonUnits = true → DetNnf scope s m.cnf

theorem detNnf_of_atomic {scope : Var → Prop} (known : f ∈ s)
    (atomic : s.isAtomic f = true) (inside : ∀ v ∈ s.vars f, scope v) : DetNnf scope s f := by
  refine ⟨known, isNnf_atomic atomic, ?_, inside⟩
  rw [s.deterministic_iff]
  unfold isAtomic at atomic
  cases shape : s.node f <;> simp_all [Node.isAtomic, Node.children]

theorem detNnf_of_split {scope : Var → Prop} (wf : s.WellFormed) (known : f ∈ s)
    (none : (s.split f).2 = []) (each : ∀ u ∈ (s.split f).1, DetNnf scope s u) :
    DetNnf scope s f := by
  unfold Store.split at none each
  split at none
  · rename_i fs shape
    simp only [shape, List.partition_eq_filter_filter] at none each
    have all : ∀ u ∈ fs, DetNnf scope s u := by
      intro u member
      refine each u (List.mem_filter.mpr ⟨member, ?_⟩)
      simpa using List.filter_eq_nil_iff.mp none u member
    have flat : s.flatten .conj f = fs := wf.flatten_node shape
    refine ⟨known, ?_, ?_, fun v mentioned => ?_⟩
    · rw [wf.isNnf_flatten .conj, flat]
      exact fun u member => (all u member).isNnf
    · rw [wf.deterministic_conj_iff, flat]
      exact fun u member => (all u member).deterministic
    · obtain ⟨u, member, inside⟩ := (wf.mem_vars_flatten known .conj v).mp mentioned
      exact (all u (flat ▸ member)).vars_sub v inside
  · simp at none
  · rename_i notAnd notOr
    refine each f ?_
    cases shape : s.node f <;> simp_all

/-- The simplified clauses, in the store in which they are split, and then the literals among them and
the others put together again. -/
structure Simplified (m : Compiler) (s₂ s₃ s' : Store) : Prop where
  wellFormed : s₂.WellFormed
  mem : m.cnf ∈ s₂
  cnf : s₂.isCnf m.cnf = true
  units : s₂.conj (s₂.split m.cnf).1 = (m.units, s₃)
  nonUnits : s₃.conj (s₂.split m.cnf).2 = (m.nonUnits, s')

theorem prepare_stages (wf : s.WellFormed) (known : f ∈ s)
    (run : prepare s f settings = .ok (m, s')) :
    ∃ r s₂ s₃, s.fixBackbone f = .ok r ∧ r.2.subsumption r.1 = .ok (m.cnf, s₂) ∧ Grows s s₂ ∧
      m.Simplified s₂ s₃ s' ∧ (∀ v ∈ s₂.vars m.cnf, v ∈ s.vars f) ∧
        Stepper.add { core := { settings } } s₂ m.cnf = .ok m.solver := by
  obtain ⟨_, r, s₂, fixed, subsumed, added, units, nonUnits, rfl⟩ := prepare_ok run
  obtain ⟨grows₁, mem₁, sub₁⟩ := fixBackbone_within wf known fixed
  have wf₁ := grows₁.wellFormed wf
  have builds := wf₁.subsumption_builds mem₁ subsumed
  exact ⟨r, s₂, _, fixed, subsumed, grows₁.trans builds.grows, ⟨builds.wellFormed wf₁, builds.mem,
    wf₁.subsumption_isCnf mem₁ subsumed, by rw [units], by rw [nonUnits]⟩,
    fun v h => sub₁ v (builds.vars_sub v h), added⟩

theorem prepare_simplified (wf : s.WellFormed) (known : f ∈ s)
    (run : prepare s f settings = .ok (m, s')) :
    ∃ s₂ s₃, Grows s s₂ ∧ m.Simplified s₂ s₃ s' ∧ (∀ v ∈ s₂.vars m.cnf, v ∈ s.vars f) ∧
      Stepper.add { core := { settings } } s₂ m.cnf = .ok m.solver ∧
        ∃ r, s.fixBackbone f = .ok r ∧ ∀ value, s₂.eval value m.cnf = r.2.eval value r.1 := by
  obtain ⟨r, s₂, s₃, fixed, subsumed, grows, simplified, sub, added⟩ := prepare_stages wf known run
  obtain ⟨grows₁, mem₁, _⟩ := fixBackbone_within wf known fixed
  have builds := (grows₁.wellFormed wf).subsumption_builds mem₁ subsumed
  exact ⟨s₂, s₃, grows, simplified, sub, added, r, fixed, builds.eval_eq⟩

namespace Simplified

variable {s₂ s₃ : Store} (simplified : m.Simplified s₂ s₃ s')

include simplified

theorem units_builds : Builds s₂ (m.units, s₃) (fun value =>
    Connective.conj.holds (s₂.eval value) (s₂.split m.cnf).1)
      (fun v => ∃ u ∈ (s₂.split m.cnf).1, v ∈ s₂.vars u) := by
  rw [← simplified.units]
  exact simplified.wellFormed.junction_builds fun u member =>
    (split_units simplified.wellFormed simplified.mem simplified.cnf member).2.1

theorem later : Extends s₂ s₃ := simplified.units_builds.later simplified.wellFormed

theorem clause {u : Formula} (member : u ∈ (s₂.split m.cnf).2) :
    (∃ gs, s₃.node u = .or gs) ∧ s₃.isClause u = true ∧ u ∈ s₃ ∧
      ∀ v ∈ s₃.vars u, v ∈ s₂.vars m.cnf := by
  obtain ⟨⟨gs, shape⟩, clause, here, sub⟩ :=
    split_nonUnits simplified.wellFormed simplified.mem simplified.cnf member
  have later := simplified.later
  refine ⟨⟨gs, ?_⟩, ?_, later.mem here, fun v inside => sub v ?_⟩
  · rw [later.node_eq here, shape]
  · rw [later.isClause_eq here, clause]
  · rwa [later.vars_eq here] at inside

theorem units_wellFormed : s₃.WellFormed := simplified.units_builds.wellFormed simplified.wellFormed

theorem joined : Joined s₃ .conj (s₂.split m.cnf).2 m.nonUnits s' := by
  have joined : Joined s₃ .conj _ (s₃.conj (s₂.split m.cnf).2).1 (s₃.conj (s₂.split m.cnf).2).2 :=
    simplified.units_wellFormed.junction_joined fun u member => (simplified.clause member).2.2.1
  rwa [simplified.nonUnits] at joined

theorem isCnf : s'.isCnf m.nonUnits = true :=
  simplified.joined.isCnf simplified.units_wellFormed
    (fun _ member => (simplified.clause member).2.2.1)
    fun _ member => isCnf_of_isClause (simplified.clause member).2.1

theorem vars_sub {v : Var} (mentioned : v ∈ s'.vars m.nonUnits) : v ∈ s₂.vars m.cnf := by
  obtain ⟨u, member, inside⟩ := simplified.joined.vars_subset simplified.units_wellFormed
    (fun u member => (simplified.clause member).2.2.1) mentioned
  exact (simplified.clause member).2.2.2 v inside

theorem grows : Grows s₂ s' := by
  refine simplified.units_builds.grows.trans ?_
  have step := Step.junction s₃ .conj fun u member => (simplified.clause (u := u) member).2.2.1
  have grows : Grows s₃ (s₃.conj (s₂.split m.cnf).2).2 := step.grows
  rwa [simplified.nonUnits] at grows

theorem units_joined : Joined s₂ .conj (s₂.split m.cnf).1 m.units s₃ := by
  have joined : Joined s₂ .conj _ (s₂.conj (s₂.split m.cnf).1).1 (s₂.conj (s₂.split m.cnf).1).2 :=
    simplified.wellFormed.junction_joined fun u member =>
      (split_units simplified.wellFormed simplified.mem simplified.cnf member).2.1
  rwa [simplified.units] at joined

/-- If the clauses have a model, their conjuncts are shared out between the two parts. -/
theorem conjuncts {value : Var → Bool} (true_ : s₂.eval value m.cnf = true) {o : Formula} :
    (o ∈ s₃.flatten .conj m.units ↔ o ∈ s₂.flatten .conj m.cnf ∧ s₂.isAtomic o = true) ∧
      (o ∈ s'.flatten .conj m.nonUnits ↔ o ∈ s₂.flatten .conj m.cnf ∧ s₂.isAtomic o = false) := by
  have wf := simplified.wellFormed
  rw [split_eval, Bool.and_eq_true, List.all_eq_true, List.all_eq_true] at true_
  have known : ∀ u ∈ (s₂.split m.cnf).2, u ∈ s₂ := fun u member =>
    (split_nonUnits wf simplified.mem simplified.cnf member).2.2.1
  obtain ⟨units, nonUnits⟩ := split_conjuncts wf simplified.mem simplified.cnf (o := o)
  constructor
  · rw [simplified.units_joined.mem_conjuncts wf true_.1, units]
  · have still : ∀ u ∈ (s₂.split m.cnf).2, s₃.eval value u = true := by
      intro u member
      rw [simplified.later.eval_eq (known u member)]
      exact true_.2 u member
    rw [simplified.joined.mem_conjuncts simplified.units_wellFormed still, ← nonUnits]
    apply exists_congr
    intro u
    apply and_congr_right
    intro member
    rw [simplified.later.flatten_eq (known u member)]

theorem nonUnits_nil (atomic : s'.isAtomic m.nonUnits = true) : (s₂.split m.cnf).2 = [] :=
  simplified.joined.nil_of_atomic simplified.units_wellFormed
    (fun _ member => (simplified.clause member).2.2.1)
    (fun _ member => (simplified.clause member).1) atomic

end Simplified

theorem prepare_prepared (wf : s.WellFormed) (known : f ∈ s)
    (run : prepare s f settings = .ok (m, s')) :
    Grows s s' ∧ m.Prepared (· ∈ s.vars f) s' := by
  obtain ⟨s₂, s₃, grows, simplified, sub, added, _⟩ := prepare_simplified wf known run
  have wf₂ := simplified.wellFormed
  have joined := simplified.joined
  have later := simplified.later.trans joined.later
  have unit_circuit : ∀ u ∈ (s₂.split m.cnf).1, DetNnf (· ∈ s.vars f) s₂ u := by
    intro u member
    obtain ⟨atomic, here, inside⟩ := split_units wf₂ simplified.mem simplified.cnf member
    exact detNnf_of_atomic here atomic fun v h => sub v (inside v h)
  refine ⟨grows.trans simplified.grows, later.mem simplified.mem, ?_, joined.mem,
    fun v mentioned => sub v (simplified.vars_sub mentioned), ?_, fun atomic => ?_⟩
  · have circuit := wf₂.conj_detNnf unit_circuit
    rw [simplified.units] at circuit
    exact circuit.later joined.later
  · refine Stepper.add_in (fun v member => ?_) wf₂ simplified.mem (fun w inside => ?_) added
    · simp at member
    · exact ⟨sub w inside, wf.var_lt known (sub w inside)⟩
  · -- all clauses are literals or constants
    have none := simplified.nonUnits_nil atomic
    exact (detNnf_of_split wf₂ simplified.mem none unit_circuit).later later

end Compiler

end ModelCounting
