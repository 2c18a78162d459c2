import ModelCounting.Proofs.Simplification

/-!
Restriction of formulas. Whatever literals a formula is restricted by, their variables are gone from it.
If no literal stands beside its complement, the restricted formula has under an assignment the value
that the formula has once the literals are added to the assignment.
-/

namespace ModelCounting

/-! Assignments. -/

namespace Assignment

theorem mem_insertSorted {l m : Lit} {ls : List Lit} : m ∈ insertSorted l ls ↔ m = l ∨ m ∈ ls := by
  induction ls with
  | nil => simp [insertSorted]
  | cons k ks ih =>
    rw [insertSorted]
    split
    · rw [List.mem_cons]
    · split
      · rename_i same
        rw [same, List.mem_cons]
        simp
      · rw [List.mem_cons, List.mem_cons, ih, or_left_comm]

/-- Adding a literal gives its variable the value that makes it true. -/
theorem holds_add (a : Assignment) (l : Lit) (v : Var) :
    (a.add l).holds v = if l.var = v then l.phase else a.holds v := by
  have present : (a.add l).holds v = true ↔
      Lit.of v true = l ∨ Lit.of v true ∈ a.literals ∧ Lit.of v true ≠ -l := by
    simp [holds, add, mem_insertSorted]
  rw [Bool.eq_iff_iff, present]
  by_cases same : l.var = v
  · subst same
    rw [if_pos rfl]
    constructor
    · rintro (here | ⟨_, other⟩)
      · rw [← here, Lit.phase_of]
      · by_contra negative
        exact other (Lit.ext_var_phase (by simp) (by simpa using negative))
    · intro positive
      exact .inl (Lit.ext_var_phase (by simp) (by simp [positive]))
  · have apart (m : Lit) (var : m.var = l.var) : Lit.of v true ≠ m := by
      rintro rfl
      exact same (by simpa using var.symm)
    rw [if_neg same]
    simp [holds, apart l rfl, apart (-l) (by simp)]

/-- Literals without a complement among them are all true once they are added. -/
theorem holds_addAll {ls : List Lit} (consistent : Store.Consistent ls) (a : Assignment) :
    (ls.foldl add a).holds = Store.override ls a.holds := by
  induction ls generalizing a with
  | nil => rfl
  | cons l ls ih =>
    have rest : Store.Consistent ls := fun m member opposite =>
      consistent m (List.mem_cons_of_mem l member) (List.mem_cons_of_mem l opposite)
    rw [List.foldl_cons, ih rest]
    funext v
    simp only [Store.override, holds_add, List.contains_iff_mem, List.mem_cons]
    by_cases same : l.var = v
    · subst same
      have whole := Lit.of_var_phase l
      have opposite : Lit.of l.var (!l.phase) ∉ ls := fun member =>
        consistent l List.mem_cons_self (List.mem_cons_of_mem l (by
          rwa [show -l = Lit.of l.var (!l.phase) from Lit.ext_var_phase (by simp) (by simp)]))
      have other : Lit.of l.var (!l.phase) ≠ l := by
        intro here
        simpa using congrArg Lit.phase here
      cases phase : l.phase <;> simp_all
    · have apart (phase : Bool) : Lit.of v phase ≠ l := by
        rintro rfl
        exact same (Lit.var_of v phase)
      simp [apart, same]

end Assignment

/-! Restriction by any literals. -/

namespace Store

variable {s s' : Store} {c : Connective} {f g h : Formula} {fs : List Formula} {ls : List Lit}
  {memo : Memo}

/-- A formula over variables of another one that none of the literals has. -/
structure Spares (ls : List Lit) (f : Formula) (s : Store) (g : Formula) : Prop where
  known : f ∈ s
  mem : g ∈ s
  vars_sub : ∀ v ∈ s.vars g, v ∈ s.vars f ∧ Untouched ls v

namespace Spares

theorem later (spares : Spares ls f s g) (later : Extends s s') : Spares ls f s' g := by
  refine ⟨later.mem spares.known, later.mem spares.mem, ?_⟩
  rw [later.vars_eq spares.mem, later.vars_eq spares.known]
  exact spares.vars_sub

theorem constant (wf : s.WellFormed) (known : f ∈ s) (mem : g ∈ s) (constant : g.isConstant = true) :
    Spares ls f s g := by
  refine ⟨known, mem, fun v mentioned => ?_⟩
  rw [wf.vars_constant constant] at mentioned
  cases mentioned

theorem operand (spares : Spares ls g s h) (wf : s.WellFormed) (known : f ∈ s)
    (child : g ∈ (s.node f).children) {v : Var} (mentioned : v ∈ s.vars h) :
    v ∈ s.vars f ∧ Untouched ls v := by
  obtain ⟨inside, untouched⟩ := spares.vars_sub v mentioned
  exact ⟨wf.vars_child known child inside, untouched⟩

end Spares

theorem Builds.spares {r : Formula × Store} {meaning : (Var → Bool) → Bool} {scope : Var → Prop}
    (builds : Builds s r meaning scope) (wf : s.WellFormed) (known : f ∈ s)
    (narrow : ∀ v, scope v → v ∈ s.vars f ∧ Untouched ls v) : Spares ls f r.2 r.1 := by
  have later := builds.later wf
  refine ⟨later.mem known, builds.mem, fun v mentioned => ?_⟩
  rw [later.vars_eq known]
  exact narrow v (builds.vars_sub v mentioned)

section Restriction

variable (wf : s.WellFormed) (known : f ∈ s) (good : Remembers (Spares ls) s memo)

include wf known good

theorem restrict_operands_spares (shape : s.node f = c.node fs)
    (below : ∀ g ∈ fs, ∀ s' memo', Grows s s' → Remembers (Spares ls) s' memo' →
      Converts (Spares ls g) (Remembers (Spares ls)) s' (restrictFrom ls g s' memo')) :
    Converts (Spares ls f) (Remembers (Spares ls)) s
      (junctionOf c (collect (restrictFrom ls) fs ([], s, memo))) := by
  apply operands_shaped wf known shape good below (fun _ _ _ _ later spares => spares.later later)
    fun _ _ _ spares => spares.mem
  intro s' hs g s'' wf' later each joined
  have present : ∀ h ∈ hs, h ∈ s' := fun h member => (each h member).elim fun _ made => made.2.mem
  have known' := later.mem known
  refine ⟨joined.later.mem known', joined.mem, fun v mentioned => ?_⟩
  obtain ⟨h, member, inside⟩ := joined.vars_subset wf' present mentioned
  obtain ⟨o, operand, spares⟩ := each h member
  rw [joined.later.vars_eq known']
  exact spares.operand wf' known' (by rwa [later.node_eq known, shape, c.node_children]) inside

theorem restrict_pair_spares {a b : Formula} (children : (s.node f).children = [a, b])
    (below : ∀ g ∈ [a, b], ∀ s' memo', Grows s s' → Remembers (Spares ls) s' memo' →
      Converts (Spares ls g) (Remembers (Spares ls)) s' (restrictFrom ls g s' memo'))
    (build : Store → Formula → Formula → Formula × Store) (op : Bool → Bool → Bool)
    (builds : ∀ s' x y, s'.WellFormed → x ∈ s' → y ∈ s' → Builds s' (build s' x y)
      (fun value => op (s'.eval value x) (s'.eval value y)) (fun v => v ∈ s'.vars x ∨ v ∈ s'.vars y)) :
    let x := restrictFrom ls a s memo
    let y := restrictFrom ls b x.2.1 x.2.2
    Converts (Spares ls f) (Remembers (Spares ls)) s
      ((build y.2.1 x.1 y.1).1, (build y.2.1 x.1 y.1).2, y.2.2) := by
  apply pair_converts wf good below fun _ _ _ _ later spares => spares.later later
  intro s' x y wf' later left right
  have known' := later.mem known
  rw [← later.node_eq known] at children
  have built := builds s' x y wf' left.mem right.mem
  refine ⟨built.grows, built.spares wf' known' ?_⟩
  rintro v (mentioned | mentioned)
  · exact left.operand wf' known' (by simp [children]) mentioned
  · exact right.operand wf' known' (by simp [children]) mentioned

theorem restrictNode_spares
    (below : ∀ g ∈ (s.node f).children, ∀ s' memo', Grows s s' → Remembers (Spares ls) s' memo' →
      Converts (Spares ls g) (Remembers (Spares ls)) s' (restrictFrom ls g s' memo')) :
    Converts (Spares ls f) (Remembers (Spares ls)) s (restrictNode ls f s memo (s.node f)) := by
  cases shape : s.node f with
  | falsum =>
    obtain rfl := wf.eq_falsum known shape
    exact ⟨Grows.refl s, good, .constant wf known known rfl⟩
  | verum =>
    obtain rfl := wf.eq_verum known shape
    exact ⟨Grows.refl s, good, .constant wf known known rfl⟩
  | lit l =>
    rw [restrictNode]
    split
    · exact ⟨Grows.refl s, good, .constant wf known wf.verum_mem rfl⟩
    · split
      · exact ⟨Grows.refl s, good, .constant wf known wf.falsum_mem rfl⟩
      · refine ⟨Grows.refl s, good, known, known, fun v mentioned => ⟨mentioned, ?_⟩⟩
        rw [(wf.lit_meaning known shape).2 v mentioned]
        exact untouched_var ‹_› ‹_›
  | not g =>
    have child : g ∈ (s.node f).children := by simp [shape, Node.children]
    have run := below g child s memo (Grows.refl s) good
    have wf' := run.grows.wellFormed wf
    have later := run.grows.later wf
    have known' := later.mem known
    rw [← later.node_eq known] at child
    have built := wf'.neg_builds run.right.mem
    refine ⟨run.grows.trans built.grows, run.good.mono fun _ _ spares => ?_, built.spares wf' known' ?_⟩
    · exact spares.later (built.later wf')
    · intro v mentioned
      exact run.right.operand wf' known' child mentioned
  | and fs =>
    exact restrict_operands_spares (c := .conj) wf known good shape fun g member =>
      below g (by rwa [shape])
  | or fs =>
    exact restrict_operands_spares (c := .disj) wf known good shape fun g member =>
      below g (by rwa [shape])
  | implies a b =>
    exact restrict_pair_spares wf known good (by rw [shape]; rfl) (fun g member =>
      below g (by rwa [shape])) implies (fun p q => !p || q) fun _ _ _ wf' => wf'.implies_builds
  | equiv a b =>
    exact restrict_pair_spares wf known good (by rw [shape]; rfl) (fun g member =>
      below g (by rwa [shape])) equiv (fun p q => p == q) fun _ _ _ wf' => wf'.equiv_builds

theorem restrictFrom_spares :
    Converts (Spares ls f) (Remembers (Spares ls)) s (restrictFrom ls f s memo) := by
  induction size : f.id using Nat.strongRecOn generalizing f s memo with
  | ind k ih =>
    cases fresh : memo[f]? with
    | some g =>
      rw [restrictFrom]
      simp only [fresh]
      exact ⟨Grows.refl s, good, good f g fresh⟩
    | none =>
      have node := restrictNode_spares wf known good fun g child s' memo' grows good' =>
        ih g.id (size ▸ s.child_lt child) (grows.wellFormed wf)
          ((grows.later wf).mem (child_mem known child)) good' rfl
      rw [restrictFrom_fresh fresh]
      exact ⟨node.grows, node.good.insert node.right, node.right⟩

end Restriction

/-- A restricted formula mentions only variables of the formula, and none that a literal has. If no
literal stands beside its complement, it has the value of the formula with the literals made true; under
an assignment, that is its value once the literals are added. -/
theorem restrict_overrides (leads : Leads initial s) (known : f ∈ s) (ls : List Lit) :
    (s.restrict f ls).1 ∈ (s.restrict f ls).2 ∧
      (∀ v ∈ (s.restrict f ls).2.vars (s.restrict f ls).1, v ∈ s.vars f ∧ ∀ l ∈ ls, l.var ≠ v) ∧
        ((∀ l ∈ ls, -l ∉ ls) →
          (∀ value, (s.restrict f ls).2.eval value (s.restrict f ls).1 = s.eval (override ls value) f) ∧
            ∀ a : Assignment, (s.restrict f ls).2.evaluate (s.restrict f ls).1 a =
              s.evaluate f (ls.foldl .add a)) := by
  have wf := leads.wellFormed
  have nothing : Remembers (Spares ls) s ∅ := by simp [Remembers]
  have run : Converts _ _ s (restrictFrom ls f s ∅) := restrictFrom_spares wf known nothing
  have later := run.grows.later wf
  refine ⟨run.right.mem, fun v mentioned => ?_, fun consistent => ?_⟩
  · rw [← later.vars_eq known]
    exact run.right.vars_sub v mentioned
  · obtain ⟨_, _, means⟩ := wf.restrict_restricts known consistent
    have eval_eq (value : Var → Bool) :
        (s.restrict f ls).2.eval value (s.restrict f ls).1 = s.eval (override ls value) f := by
      rw [means.eval_eq]
      exact later.eval_eq known _
    refine ⟨eval_eq, fun a => ?_⟩
    rw [evaluate, evaluate, eval_eq, Assignment.holds_addAll consistent]

/-- Where the second variable is false, the first one and one of the two others are the first and the
third. -/
theorem restrict_overrides_guarded : ∃ s f, Leads initial s ∧ f ∈ s ∧
    (∀ value, s.eval value f = (value ⟨0⟩ && (value ⟨1⟩ || value ⟨2⟩))) ∧
      ⟨1⟩ ∉ (s.restrict f [⟨3⟩]).2.vars (s.restrict f [⟨3⟩]).1 ∧
        ∀ value, (s.restrict f [⟨3⟩]).2.eval value (s.restrict f [⟨3⟩]).1 = (value ⟨0⟩ && value ⟨2⟩) := by
  obtain ⟨s, f, leads, known, _, meaning, _⟩ := exists_guarded
  obtain ⟨_, spared, overridden⟩ := restrict_overrides leads known [⟨3⟩]
  have consistent : ∀ l ∈ [(⟨3⟩ : Lit)], -l ∉ [(⟨3⟩ : Lit)] := by decide
  have changed (value : Var → Bool) : override [⟨3⟩] value ⟨0⟩ = value ⟨0⟩ ∧
      override [⟨3⟩] value ⟨1⟩ = false ∧ override [⟨3⟩] value ⟨2⟩ = value ⟨2⟩ := ⟨rfl, rfl, rfl⟩
  refine ⟨s, f, leads, known, meaning, fun mentioned => ?_, fun value => ?_⟩
  · exact (spared _ mentioned).2 ⟨3⟩ List.mem_cons_self rfl
  · obtain ⟨first, second, third⟩ := changed value
    rw [(overridden consistent).1, meaning, first, second, third, Bool.false_or]

end Store

end ModelCounting
