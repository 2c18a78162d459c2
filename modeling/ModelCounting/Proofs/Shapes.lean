import ModelCounting.Proofs.Preparation

/-!
Shapes of clauses. Conversion to conjunctive normal form ends with a conjunction of clauses, and a
conjunction of clauses that is restricted by literals is one again: a clause becomes a clause, or the
verum.
-/

namespace ModelCounting

namespace Store

variable {s s' : Store} {c : Connective} {f g h : Formula} {fs gs : List Formula} {memo : Memo}

/-! Clauses. -/

def Clausal (s : Store) (f : Formula) : Prop := s.isClause f = true ∨ f = .verum

theorem Extends.asLit_eq (later : Extends s s') (known : f ∈ s) : s'.asLit? f = s.asLit? f := by
  rw [asLit?, asLit?, later.node_eq known]

theorem WellFormed.isClause_iff (wf : s.WellFormed) (known : f ∈ s) :
    s.isClause f = true ↔ ∀ o ∈ s.flatten .disj f, (s.asLit? o).isSome = true := by
  by_cases neutral : f = Connective.disj.neutral
  · rw [neutral, flatten_neutral]
    simp [isClause, Connective.neutral, wf.node_falsum]
  · rcases s.flatten_cases .disj neutral with ⟨gs, shape, flat⟩ | ⟨other, flat⟩
    · rw [flat, isClause, shape]
      simp [Connective.node]
    · rw [flat, isClause]
      cases shape : s.node f with
      | falsum => exact absurd (wf.eq_falsum known shape) neutral
      | or fs => exact absurd shape (other fs)
      | verum | lit | not | and | implies | equiv => simp [asLit?, shape, Node.asLit?]

theorem Clausal.isCnf (clausal : Clausal s f) (wf : s.WellFormed) : s.isCnf f = true := by
  rcases clausal with clause | rfl
  · exact isCnf_of_isClause clause
  · unfold Store.isCnf
    rw [wf.node_verum]

theorem Clausal.later (clausal : Clausal s f) (later : Extends s s') (known : f ∈ s) :
    Clausal s' f := by
  unfold Clausal
  rwa [later.isClause_eq known]

theorem Joined.clausal (joined : Joined s .disj fs g s') (wf : s.WellFormed)
    (known : ∀ f ∈ fs, f ∈ s) (each : ∀ f ∈ fs, Clausal s f) : Clausal s' g := by
  by_cases decided : s.Decided .disj fs
  · exact .inr (joined.decided decided)
  refine .inl ((joined.wellFormed.isClause_iff joined.mem).mpr ?_)
  rw [joined.flatten_eq decided]
  intro o operand
  obtain ⟨f, member, flat⟩ := mem_operandsOf.mp operand
  rw [joined.later.asLit_eq (wf.flatten_proper (known f member) flat).1]
  rcases each f member with clause | rfl
  · exact (wf.isClause_iff (known f member)).mp clause o flat
  · exact absurd (.inl member) decided

/-- The operands of a junction are converted, and then joined again. -/
theorem operands_shaped {right : Formula → Store → Formula → Prop}
    {step : Formula → Store → Memo → Formula × Store × Memo} (wf : s.WellFormed) (known : f ∈ s)
    (shape : s.node f = c.node fs) (good : Remembers right s memo)
    (below : ∀ g ∈ fs, ∀ s' memo', Grows s s' → Remembers right s' memo' →
      Converts (right g) (Remembers right) s' (step g s' memo'))
    (stable : ∀ g s s' h, Extends s s' → right g s h → right g s' h)
    (mem : ∀ g s h, right g s h → h ∈ s)
    (finish : ∀ s' hs g s'', s'.WellFormed → Extends s s' → (∀ h ∈ hs, ∃ g ∈ fs, right g s' h) →
      Joined s' c hs g s'' → right f s'' g) :
    Converts (right f) (Remembers right) s (junctionOf c (collect step fs ([], s, memo))) := by
  obtain ⟨hs, results, grows, good', parts⟩ := collect_converts right
    (fun g s s' h later _ => stable g s s' h later) wf
    (fun g member => child_mem known (by rwa [shape, c.node_children])) below (Grows.refl s) good []
  generalize collect step fs ([], s, memo) = r at *
  have wf' := grows.wellFormed wf
  have each := forall₂_mem_right parts
  have inside : ∀ h ∈ hs, h ∈ r.2.1 := fun h member =>
    (each h member).elim fun g ⟨_, made⟩ => mem g _ h made
  have joined := wf'.junction_joined (c := c) inside
  simp only [List.append_nil] at results
  unfold junctionOf
  rw [results, List.reverse_reverse]
  exact ⟨grows.trans (Step.junction _ c inside).grows,
    good'.mono fun k g made => stable k _ _ g joined.later made,
    finish _ hs _ _ wf' (grows.later wf) each joined⟩

/-! Conversion. -/

def IsClauses (_ : Formula) (s : Store) (g : Formula) : Prop := g ∈ s ∧ s.isCnf g = true

theorem IsClauses.later (clauses : IsClauses f s g) (later : Extends s s') : IsClauses f s' g :=
  ⟨later.mem clauses.1, by rw [later.isCnf_eq clauses.1]; exact clauses.2⟩

theorem IsClauses.conj (wf : s.WellFormed) (each : ∀ g ∈ fs, g ∈ s ∧ Clausal s g) :
    Grows s (s.conj fs).2 ∧ IsClauses f (s.conj fs).2 (s.conj fs).1 := by
  have known : ∀ g ∈ fs, g ∈ s := fun g member => (each g member).1
  have joined := wf.junction_joined (c := .conj) known
  exact ⟨(Step.junction s .conj known).grows, joined.mem,
    joined.isCnf wf known fun g member => (each g member).2.isCnf wf⟩

theorem WellFormed.conjuncts_clausal (wf : s.WellFormed) (known : f ∈ s) (cnf : s.isCnf f = true) :
    ∀ g ∈ s.conjuncts f, g ∈ s ∧ Clausal s g := by
  intro g member
  unfold conjuncts at member
  unfold isCnf at cnf
  split at cnf
  · rename_i shape
    rw [shape, List.mem_singleton] at member
    exact ⟨member ▸ known, .inr (member.trans (wf.eq_verum known shape))⟩
  · rename_i fs shape
    rw [shape] at member
    exact ⟨child_mem known (by rwa [shape]), .inl (List.all_eq_true.mp cnf g member)⟩
  · rename_i _ other
    cases shape : s.node f with
    | and fs => exact absurd shape (other fs)
    | falsum | verum | lit | not | or | implies | equiv =>
      rw [shape, List.mem_singleton] at member
      exact member ▸ ⟨known, .inl cnf⟩

theorem disjEach_clausal (wf : s.WellFormed) (first : f ∈ s ∧ Clausal s f)
    (rest : ∀ g ∈ gs, g ∈ s ∧ Clausal s g) :
    Grows s (s.disjEach f gs).2 ∧
      ∀ h ∈ (s.disjEach f gs).1, h ∈ (s.disjEach f gs).2 ∧ Clausal (s.disjEach f gs).2 h := by
  induction gs generalizing s with
  | nil => exact ⟨Grows.refl s, by simp [disjEach]⟩
  | cons g gs ih =>
    have both : ∀ h ∈ [f, g], h ∈ s ∧ Clausal s h := by
      intro h member
      rcases List.mem_cons.mp member with rfl | member
      · exact first
      · exact List.mem_singleton.mp member ▸ rest g List.mem_cons_self
    have known : ∀ h ∈ [f, g], h ∈ s := fun h member => (both h member).1
    have grows : Grows s (s.disj [f, g]).2 := (Step.junction s .disj known).grows
    have joined : Joined s .disj [f, g] (s.disj [f, g]).1 (s.disj [f, g]).2 :=
      wf.junction_joined known
    have later := grows.later wf
    have keep {h : Formula} (here : h ∈ s ∧ Clausal s h) :
        h ∈ (s.disj [f, g]).2 ∧ Clausal (s.disj [f, g]).2 h :=
      ⟨later.mem here.1, here.2.later later here.1⟩
    obtain ⟨grows', others⟩ := ih (grows.wellFormed wf) (keep first)
      fun h member => keep (rest h (List.mem_cons_of_mem g member))
    have later' := grows'.later (grows.wellFormed wf)
    refine ⟨grows.trans grows', fun h member => ?_⟩
    rcases List.mem_cons.mp member with rfl | member
    · exact ⟨later'.mem joined.mem,
        (joined.clausal wf known fun h member => (both h member).2).later later' joined.mem⟩
    · exact others h member

theorem disjPairs_clausal (wf : s.WellFormed) (first : ∀ f ∈ fs, f ∈ s ∧ Clausal s f)
    (second : ∀ g ∈ gs, g ∈ s ∧ Clausal s g) :
    Grows s (s.disjPairs gs fs).2 ∧
      ∀ h ∈ (s.disjPairs gs fs).1, h ∈ (s.disjPairs gs fs).2 ∧ Clausal (s.disjPairs gs fs).2 h := by
  induction fs generalizing s with
  | nil => exact ⟨Grows.refl s, by simp [disjPairs]⟩
  | cons f fs ih =>
    obtain ⟨grows, row⟩ := disjEach_clausal wf (first f List.mem_cons_self) second
    have later := grows.later wf
    have keep {h : Formula} (here : h ∈ s ∧ Clausal s h) :
        h ∈ (s.disjEach f gs).2 ∧ Clausal (s.disjEach f gs).2 h :=
      ⟨later.mem here.1, here.2.later later here.1⟩
    obtain ⟨grows', others⟩ := ih (grows.wellFormed wf)
      (fun h member => keep (first h (List.mem_cons_of_mem f member)))
      fun h member => keep (second h member)
    have later' := grows'.later (grows.wellFormed wf)
    refine ⟨grows.trans grows', fun h member => ?_⟩
    rcases List.mem_append.mp member with member | member
    · obtain ⟨known, clausal⟩ := row h member
      exact ⟨later'.mem known, clausal.later later' known⟩
    · exact others h member

theorem distribute_isClauses (wf : s.WellFormed) (first : IsClauses h s f) (second : IsClauses h s g) :
    Grows s (s.distribute f g).2 ∧ IsClauses h (s.distribute f g).2 (s.distribute f g).1 := by
  obtain ⟨grows, pairs⟩ := disjPairs_clausal wf (wf.conjuncts_clausal first.1 first.2)
    (wf.conjuncts_clausal second.1 second.2)
  obtain ⟨grows', clauses⟩ := IsClauses.conj (f := h) (grows.wellFormed wf) pairs
  exact ⟨grows.trans grows', clauses⟩

theorem cnfSum_isClauses {s₀ : Store} (wf : s₀.WellFormed)
    (below : ∀ g ∈ fs, ∀ s' memo', Grows s₀ s' → Remembers IsClauses s' memo' →
      Converts (IsClauses g) (Remembers IsClauses) s' (cnfFrom g s' memo'))
    (before : Grows s₀ s) (good : Remembers IsClauses s memo) (sum : IsClauses h s f) :
    Converts (IsClauses h) (Remembers IsClauses) s (cnfSum fs (f, s, memo)) := by
  induction fs generalizing s f memo with
  | nil => exact ⟨Grows.refl s, good, sum⟩
  | cons g gs ih =>
    have run := below g List.mem_cons_self s memo before good
    have wf' := before.wellFormed wf
    have wf₁ := run.grows.wellFormed wf'
    have next := distribute_isClauses wf₁ (sum.later (run.grows.later wf')) run.right
    have rest := ih (fun h member => below h (List.mem_cons_of_mem g member))
      ((before.trans run.grows).trans next.1)
      (run.good.mono fun _ _ clauses => clauses.later (next.1.later wf₁)) next.2
    exact ⟨(run.grows.trans next.1).trans rest.grows, rest.good, rest.right⟩

theorem isNnf_child (normal : s.isNnf f = true) (child : g ∈ (s.node f).children) :
    s.isNnf g = true := by
  rw [isNnf_node] at normal
  cases shape : s.node f with
  | falsum | verum | lit =>
    rw [shape] at child
    cases child
  | not | implies | equiv =>
    rw [shape] at normal
    cases normal
  | and fs | or fs =>
    rw [shape] at normal child
    exact List.all_eq_true.mp normal g child

/-- A node is converted to clauses if its operands are. -/
theorem cnfNode_isClauses (wf : s.WellFormed) (known : f ∈ s) (normal : s.isNnf f = true)
    (good : Remembers IsClauses s memo)
    (below : ∀ g ∈ (s.node f).children, ∀ s' memo', Grows s s' → Remembers IsClauses s' memo' →
      Converts (IsClauses g) (Remembers IsClauses) s' (cnfFrom g s' memo')) :
    Converts (IsClauses f) (Remembers IsClauses) s (cnfNode f s memo (s.node f)) := by
  cases shape : s.node f with
  | falsum | lit =>
    have clause : s.isClause f = true := by rw [isClause, shape]
    exact ⟨Grows.refl s, good, known, isCnf_of_isClause clause⟩
  | verum =>
    have cnf : s.isCnf f = true := by rw [isCnf, shape]
    exact ⟨Grows.refl s, good, known, cnf⟩
  | not | implies | equiv =>
    rw [s.isNnf_node, shape] at normal
    cases normal
  | and fs =>
    rw [shape] at below
    refine operands_shaped (c := .conj) wf known shape good below
      (fun _ _ _ _ later clauses => clauses.later later) (fun _ _ _ clauses => clauses.1)
      fun s' hs g s'' wf' later each joined => ?_
    refine ⟨joined.mem, joined.isCnf wf' (fun h member => ?_) fun h member => ?_⟩
    · obtain ⟨_, _, clauses⟩ := each h member
      exact clauses.1
    · obtain ⟨_, _, clauses⟩ := each h member
      exact clauses.2
  | or fs =>
    rw [shape] at below
    have nothing : IsClauses f s .falsum :=
      ⟨wf.falsum_mem, isCnf_of_isClause (by rw [isClause, wf.node_falsum])⟩
    exact cnfSum_isClauses wf below (Grows.refl s) good nothing

theorem cnfFrom_isClauses (wf : s.WellFormed) (known : f ∈ s) (normal : s.isNnf f = true)
    (good : Remembers IsClauses s memo) :
    Converts (IsClauses f) (Remembers IsClauses) s (cnfFrom f s memo) := by
  induction size : f.id using Nat.strongRecOn generalizing f s memo with
  | ind k ih =>
    cases fresh : memo[f]? with
    | some g =>
      rw [cnfFrom]
      simp only [fresh]
      exact ⟨Grows.refl s, good, good f g fresh⟩
    | none =>
      have node := cnfNode_isClauses wf known normal good fun g child s' memo' grows good' => by
        have here := child_mem known child
        have later := grows.later wf
        refine ih g.id (size ▸ s.child_lt child) (grows.wellFormed wf) (later.mem here) ?_ good' rfl
        rw [later.isNnf_eq here]
        exact isNnf_child normal child
      rw [cnfFrom_fresh fresh]
      exact ⟨node.grows, node.good.insert node.right, node.right⟩

theorem WellFormed.cnf_isCnf (wf : s.WellFormed) (known : f ∈ s) :
    (s.cnf f).2.isCnf (s.cnf f).1 = true := by
  unfold cnf
  split
  · assumption
  · obtain ⟨grows, normal⟩ := wf.nnf_normal known
    have nothing : Remembers IsClauses (s.nnf f).2 ∅ := by simp [Remembers]
    have run := cnfFrom_isClauses (grows.wellFormed wf) normal.mem normal.isNnf nothing
    exact run.right.2

/-! Restriction. -/

structure ClausesFor (f : Formula) (s : Store) (g : Formula) : Prop where
  known : f ∈ s
  mem : g ∈ s
  isCnf : s.isCnf g = true
  clausal : s.isClause f = true → Clausal s g

theorem ClausesFor.later (clauses : ClausesFor f s g) (later : Extends s s') : ClausesFor f s' g := by
  obtain ⟨known, mem, cnf, clausal⟩ := clauses
  refine ⟨later.mem known, later.mem mem, ?_, fun clause => ?_⟩
  · rwa [later.isCnf_eq mem]
  · rw [later.isClause_eq known] at clause
    exact (clausal clause).later later mem

theorem ClausesFor.of_clausal (wf : s.WellFormed) (known : f ∈ s) (mem : g ∈ s)
    (clausal : Clausal s g) : ClausesFor f s g :=
  ⟨known, mem, clausal.isCnf wf, fun _ => clausal⟩

section Restriction

variable {ls : List Lit}

theorem restrictNode_literal (wf : s.WellFormed) (known : f ∈ s) {l : Lit}
    (shape : s.node f = .lit l) (good : Remembers ClausesFor s memo) :
    Converts (ClausesFor f) (Remembers ClausesFor) s (restrictNode ls f s memo (.lit l)) := by
  have falsum : s.isClause .falsum = true := by rw [isClause, wf.node_falsum]
  have self : s.isClause f = true := by rw [isClause, shape]
  simp only [restrictNode]
  split
  · exact ⟨Grows.refl s, good, .of_clausal wf known wf.verum_mem (.inr rfl)⟩
  · split
    · exact ⟨Grows.refl s, good, .of_clausal wf known wf.falsum_mem (.inl falsum)⟩
    · exact ⟨Grows.refl s, good, .of_clausal wf known known (.inl self)⟩

theorem operands_clauses (cnf : s.isCnf f = true) :
    ∀ g ∈ (s.node f).children, s.isClause g = true := by
  intro g member
  cases shape : s.node f with
  | falsum | verum | lit =>
    rw [shape] at member
    cases member
  | not | implies | equiv => simp [isCnf, isClause, shape] at cnf
  | and fs =>
    rw [isCnf, shape] at cnf
    rw [shape] at member
    exact List.all_eq_true.mp cnf g member
  | or fs =>
    have clause : s.isClause f = true := by rwa [isCnf, shape] at cnf
    rw [isClause, shape] at clause
    rw [shape] at member
    obtain ⟨l, here⟩ := Option.isSome_iff_exists.mp (List.all_eq_true.mp clause g member)
    rw [isClause, asLit_eq.mp here]

/-- A node is restricted rightly if its operands are. -/
theorem restrictNode_clauses (wf : s.WellFormed) (known : f ∈ s) (cnf : s.isCnf f = true)
    (good : Remembers ClausesFor s memo)
    (below : ∀ g ∈ (s.node f).children, ∀ s' memo', Grows s s' → Remembers ClausesFor s' memo' →
      Converts (ClausesFor g) (Remembers ClausesFor) s' (restrictFrom ls g s' memo')) :
    Converts (ClausesFor f) (Remembers ClausesFor) s (restrictNode ls f s memo (s.node f)) := by
  have operands := operands_clauses cnf
  cases shape : s.node f with
  | falsum =>
    have clause : s.isClause f = true := by rw [isClause, shape]
    exact ⟨Grows.refl s, good, .of_clausal wf known known (.inl clause)⟩
  | verum => exact ⟨Grows.refl s, good, .of_clausal wf known known (.inr (wf.eq_verum known shape))⟩
  | lit l => exact restrictNode_literal wf known shape good
  | not | implies | equiv => simp [isCnf, isClause, shape] at cnf
  | and fs =>
    rw [shape] at below
    refine operands_shaped (c := .conj) wf known shape good below
      (fun _ _ _ _ later clauses => clauses.later later) (fun _ _ _ clauses => clauses.mem)
      fun s' hs g s'' wf' later each joined => ?_
    have later' := later.trans joined.later
    refine ⟨later'.mem known, joined.mem, joined.isCnf wf' (fun h member => ?_) (fun h member => ?_),
      fun clause => ?_⟩
    · obtain ⟨_, _, clauses⟩ := each h member
      exact clauses.mem
    · obtain ⟨_, _, clauses⟩ := each h member
      exact clauses.isCnf
    · rw [isClause, later'.node_eq known, shape] at clause
      cases clause
  | or fs =>
    rw [shape] at below operands
    refine operands_shaped (c := .disj) wf known shape good below
      (fun _ _ _ _ later clauses => clauses.later later) (fun _ _ _ clauses => clauses.mem)
      fun s' hs g s'' wf' later each joined => ?_
    refine .of_clausal joined.wellFormed ((later.trans joined.later).mem known) joined.mem
      (joined.clausal wf' (fun h member => ?_) fun h member => ?_)
    · obtain ⟨_, _, clauses⟩ := each h member
      exact clauses.mem
    · obtain ⟨g, inner, clauses⟩ := each h member
      refine clauses.clausal ?_
      rw [later.isClause_eq (child_mem known (by rwa [shape]))]
      exact operands g inner

theorem restrictFrom_clauses (wf : s.WellFormed) (known : f ∈ s) (cnf : s.isCnf f = true)
    (good : Remembers ClausesFor s memo) :
    Converts (ClausesFor f) (Remembers ClausesFor) s (restrictFrom ls f s memo) := by
  induction size : f.id using Nat.strongRecOn generalizing f s memo with
  | ind k ih =>
    cases fresh : memo[f]? with
    | some g =>
      rw [restrictFrom]
      simp only [fresh]
      exact ⟨Grows.refl s, good, good f g fresh⟩
    | none =>
      have node := restrictNode_clauses wf known cnf good fun g child s' memo' grows good' => by
        have here := child_mem known child
        have later := grows.later wf
        refine ih g.id (size ▸ s.child_lt child) (grows.wellFormed wf) (later.mem here) ?_ good' rfl
        rw [later.isCnf_eq here]
        exact isCnf_of_isClause (operands_clauses cnf g child)
      rw [restrictFrom_fresh fresh]
      exact ⟨node.grows, node.good.insert node.right, node.right⟩

theorem WellFormed.restrict_clauses (wf : s.WellFormed) (known : f ∈ s) (cnf : s.isCnf f = true)
    (ls : List Lit) :
    Grows s (s.restrict f ls).2 ∧ ClausesFor f (s.restrict f ls).2 (s.restrict f ls).1 :=
  have nothing : Remembers ClausesFor s ∅ := by simp [Remembers]
  have run := restrictFrom_clauses wf known cnf nothing
  ⟨run.grows, run.right⟩

end Restriction

end Store

end ModelCounting
