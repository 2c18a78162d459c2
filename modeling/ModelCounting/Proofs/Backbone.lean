import ModelCounting.Proofs.Placement
import ModelCounting.Proofs.Search.Requests
import ModelCounting.Proofs.Shapes

/-!
The backbone of a conjunction of clauses is found. Its solver has a variable for each one of the
formula, and every clause and candidate mentions these only, so that each request is answered, unless
the restarts are exhausted. A candidate is confirmed just if the clauses imply it, so what is found are
the literals that all models share, and beside them the clauses mean what they meant before.
-/

namespace ModelCounting

namespace Backbone

variable {Γ : List (List Lit)} {solver : Solver} {candidates : List Lit} {vars : List Var} {l : Lit}

theorem place_inside (member : l.var ∈ vars) : (place vars l).var.id < vars.length := by
  rw [place, Lit.var_of]
  exact List.idxOf_lt_length_of_mem member

theorem solve_strives {as : List Lit} (available : solver.Available Γ) (default : solver.settings = {})
    (named : ∀ l ∈ as, l.var.id < solver.varCount) :
    Strives (64 ≤ solver.varCount) (solver.solve as) fun x =>
      x.2.Available Γ ∧ x.2.Answers Γ as x.1 ∧ x.2.varCount = solver.varCount ∧
        x.2.settings = {} ∧ (x.1 = false → x.2.model = none) := by
  refine (available.solve named).mono (fun hard => ?_)
    fun x ⟨available', answers, count, settings, forgets⟩ =>
      ⟨available', answers, count, settings.trans default, forgets⟩
  rw [default] at hard
  exact hard.many

theorem entails_of_refuted (refuted : solver.Answers Γ [-l] false) : Entails Γ [l] := by
  intro value models
  refine ⟨l, List.mem_singleton_self l, ?_⟩
  by_contra false_
  refine refuted value models fun m member => ?_
  rw [List.mem_singleton.mp member, Store.holds_neg]
  simpa using false_

/-- A model strikes out the candidate that is false in it, and no candidate that is implied. -/
theorem struck_iff {model : Array Bool} {m : Lit} (satisfied : ∀ c ∈ Γ, ∃ l ∈ c, Solver.Satisfies model l)
    (against : Solver.Satisfies model (-l)) :
    m ∈ candidates.filter (agrees model) ∧ Entails Γ [m] ↔ m ∈ l :: candidates ∧ Entails Γ [m] := by
  have models : Models (fun v => model.getD v.id false) Γ := by
    intro c member
    obtain ⟨m, inner, satisfies⟩ := satisfied c member
    exact ⟨m, inner, satisfies.holds⟩
  have false_ : l.holds (fun v => model.getD v.id false) = false := by
    have := against.holds
    rwa [Store.holds_neg, Bool.not_eq_true'] at this
  rw [List.mem_filter, List.mem_cons]
  constructor
  · rintro ⟨⟨member, _⟩, entails⟩
    exact ⟨.inr member, entails⟩
  · rintro ⟨member, entails⟩
    obtain ⟨k, same, true_⟩ := entails _ models
    rw [List.mem_singleton.mp same] at true_
    refine ⟨⟨member.resolve_left fun same => ?_, true_⟩, entails⟩
    rw [same, false_] at true_
    cases true_

theorem entails_cons_iff {m : Lit} (entailed : Entails Γ [l]) :
    Entails ([l] :: Γ) [m] ↔ Entails Γ [m] := by
  refine ⟨fun entails value models => entails value fun c member => ?_, .cons⟩
  rcases List.mem_cons.mp member with rfl | old
  · exact entailed value models
  · exact models c old

/-- The candidates that the clauses imply are confirmed, and no others. -/
theorem confirm_strives (available : solver.Available Γ) (default : solver.settings = {})
    (inside : ∀ l ∈ candidates, l.var.id < solver.varCount) :
    Strives (64 ≤ solver.varCount) (confirm candidates solver) fun found =>
      ∀ l, l ∈ found ↔ l ∈ candidates ∧ Entails Γ [l] := by
  induction size : candidates.length using Nat.strongRecOn generalizing candidates Γ solver with
  | ind n ih =>
    cases candidates with
    | nil =>
      rw [confirm]
      exact .inl (.ok (by simp))
    | cons l ls =>
      have first := inside l List.mem_cons_self
      have others (m : Lit) (member : m ∈ ls) := inside m (List.mem_cons_of_mem l member)
      have named : ∀ m ∈ [-l], m.var.id < solver.varCount := by
        intro m member
        rwa [List.mem_singleton.mp member, Lit.var_neg]
      rw [List.length_cons] at size
      rw [confirm]
      rcases solve_strives available default named with
        ⟨⟨answer, solver₁⟩, run, available₁, answers, count, default₁, _⟩ | ⟨hard, run⟩
      · rw [run]
        cases answer with
        | true =>
          obtain ⟨model, found, _, satisfied, against⟩ := answers
          have struck : agrees (solver₁.model.getD #[]) = agrees model :=
            congrArg (fun m => agrees (Option.getD m #[])) found
          have shorter := List.length_filter_le (agrees model) ls
          simp only [struck]
          refine (ih _ (by omega) available₁ default₁ (fun m member => ?_) rfl).mono
            (fun hard => count ▸ hard) fun found' confirmed m => ?_
          · exact Nat.lt_of_lt_of_eq (others m (List.mem_filter.mp member).1) count.symm
          · rw [confirmed]
            exact struck_iff satisfied (against _ (List.mem_singleton_self _))
        | false =>
          have entailed := entails_of_refuted answers
          have known : ∀ m ∈ [l], m.var.id < solver₁.varCount := by
            intro m member
            rw [List.mem_singleton.mp member]
            exact Nat.lt_of_lt_of_eq first count.symm
          obtain ⟨⟨answer, solver₂⟩, added, available₂, count₂, default₂⟩ := available₁.addClause known
          simp only [added]
          have rest := ih _ (by omega) available₂ (default₂.trans default₁)
            (fun m member => Nat.lt_of_lt_of_eq (others m member) (count₂.trans count).symm) rfl
          rcases rest with ⟨found, ran, confirmed⟩ | ⟨hard, ran⟩
          · simp only [ran]
            refine .inl (.ok fun m => ?_)
            rw [List.mem_cons, List.mem_cons, confirmed, entails_cons_iff entailed]
            constructor
            · rintro (rfl | ⟨member, entails⟩)
              · exact ⟨.inl rfl, entailed⟩
              · exact ⟨.inr member, entails⟩
            · rintro ⟨rfl | member, entails⟩
              · exact .inl rfl
              · exact .inr ⟨member, entails⟩
          · simp only [ran]
            exact .inr ⟨Nat.le_trans hard (Nat.le_of_eq (count₂.trans count)), rfl⟩
      · rw [run]
        exact .inr ⟨hard, rfl⟩

/-! Literals by position. -/

theorem place_holds (vars : List Var) (l : Lit) (value : Var → Bool) :
    (place vars l).holds value = l.holds fun v => value ⟨vars.idxOf v⟩ := by
  simp [place, Lit.holds]

theorem unplace_holds (vars : List Var) (l : Lit) (value : Var → Bool) :
    (unplace vars.toArray l).holds value = l.holds fun i => value (vars.getD i.id default) := by
  simp [unplace, Lit.holds]

theorem getD_idxOf {v : Var} (member : v ∈ vars) : vars.getD (vars.idxOf v) default = v := by
  have inside := List.idxOf_lt_length_of_mem member
  simp [List.getD_eq_getElem?_getD, inside]

theorem unplace_place (member : l.var ∈ vars) : unplace vars.toArray (place vars l) = l := by
  apply Lit.ext_var_phase
  · simpa [unplace, place] using getD_idxOf member
  · simp [unplace, place]

def placed (vars : List Var) (cs : List (List Lit)) : List (List Lit) :=
  cs.map fun c => c.map (place vars)

variable {cs : List (List Lit)} {value : Var → Bool}

theorem models_placed :
    Models value (placed vars cs) ↔ Models (fun v => value ⟨vars.idxOf v⟩) cs := by
  simp [Models, Holds, placed, place_holds]

theorem models_unplaced (named : ∀ c ∈ cs, ∀ l ∈ c, l.var ∈ vars) (models : Models value cs) :
    Models (fun i => value (vars.getD i.id default)) (placed vars cs) := by
  rw [models_placed]
  intro c listed
  obtain ⟨l, member, true_⟩ := models c listed
  refine ⟨l, member, ?_⟩
  rw [← true_, Lit.holds, Lit.holds, getD_idxOf (named c listed l member)]

end Backbone

namespace Store

open Backbone

variable {s : Store} {f : Formula} {Γ : List (List Lit)} {solver : Solver} {cs : List (List Lit)}

structure Posed (vars : List Var) (cs : List (List Lit)) (solver : Solver) : Prop where
  available : solver.Available (placed vars cs)
  count : solver.varCount = vars.length
  default : solver.settings = {}

theorem Posed.addClause {vars : List Var} {c : List Lit} (posed : Posed vars cs solver)
    (inside : ∀ l ∈ c, l.var ∈ vars) :
    Delivers (do
        let (_, solver) ← solver.addClause (c.map (place vars))
        return solver) (Posed vars (c :: cs)) := by
  have named : ∀ l ∈ c.map (place vars), l.var.id < solver.varCount := by
    intro l inner
    obtain ⟨m, here, rfl⟩ := List.mem_map.mp inner
    exact Nat.lt_of_lt_of_eq (place_inside (inside m here)) posed.count.symm
  apply (posed.available.addClause named).bind
  rintro ⟨answer, solver'⟩ - ⟨available, count, settings⟩
  exact .pure ⟨available, count.trans posed.count, settings.trans posed.default⟩

/-- The backbone of a formula: none for a contradiction, otherwise the literals over its variables
that are true in all models. -/
def IsBackbone (s : Store) (f : Formula) : Option (List Lit) → Prop
  | none => ∀ value, s.eval value f = false
  | some ls => (∃ value, s.eval value f = true) ∧ ∀ l, l ∈ ls ↔
      l.var ∈ s.vars f ∧ ∀ value, s.eval value f = true → l.holds value = true

theorem IsBackbone.none (reads : ∀ value, s.eval value f = true ↔ Models value cs)
    (named : ∀ c ∈ cs, ∀ l ∈ c, l.var ∈ s.vars f) (refuted : Refuted (placed (s.vars f) cs)) :
    s.IsBackbone f none := by
  intro value
  by_contra some
  exact refuted _ (models_unplaced named ((reads value).mp (by simpa using some)))

/-- The implied ones among the literals of a model by position are the backbone. -/
theorem IsBackbone.some {model : Array Bool} {found : List Lit}
    (reads : ∀ value, s.eval value f = true ↔ Models value cs)
    (named : ∀ c ∈ cs, ∀ l ∈ c, l.var ∈ s.vars f)
    (models : Models (fun i => model.getD i.id false) (placed (s.vars f) cs))
    (confirmed : ∀ l, l ∈ found ↔
      l ∈ (List.range (s.vars f).length).map (fun i => Lit.of ⟨i⟩ (model.getD i false)) ∧
        Entails (placed (s.vars f) cs) [l]) :
    s.IsBackbone f (some (found.map (unplace (s.vars f).toArray))) := by
  refine ⟨⟨_, (reads _).mpr (models_placed.mp models)⟩, fun l => ?_⟩
  rw [List.mem_map]
  constructor
  · rintro ⟨m, member, rfl⟩
    obtain ⟨candidate, entails⟩ := (confirmed m).mp member
    obtain ⟨i, small, rfl⟩ := List.mem_map.mp candidate
    constructor
    · exact List.mem_of_getElem? (unplace_var (by simpa using small))
    · intro value true_
      obtain ⟨k, same, holds⟩ := entails _ (models_unplaced named ((reads value).mp true_))
      rw [unplace_holds, ← List.mem_singleton.mp same]
      exact holds
  · rintro ⟨mentioned, implied⟩
    refine ⟨place (s.vars f) l, (confirmed _).mpr ⟨?_, ?_⟩, unplace_place mentioned⟩
    · -- The model has the value that all models have.
      have here := implied _ ((reads _).mpr (models_placed.mp models))
      refine List.mem_map.mpr ⟨_, List.mem_range.mpr (List.idxOf_lt_length_of_mem mentioned), ?_⟩
      simp only [Lit.holds, beq_iff_eq] at here
      rw [place, here]
    · intro value models'
      refine ⟨_, List.mem_singleton_self _, ?_⟩
      rw [place_holds]
      exact implied _ ((reads _).mpr (models_placed.mp models'))

/-- The backbone of a conjunction of clauses is found. -/
theorem WellFormed.backbone_strives (wf : s.WellFormed) (known : f ∈ s) (cnf : s.isCnf f = true) :
    Strives (64 ≤ (s.vars f).length) (s.backbone f) (s.IsBackbone f) := by
  unfold backbone
  obtain ⟨cs, read, _⟩ := clauses_delivers cnf
  obtain ⟨reads, mentioned⟩ := wf.clauses_ok known read
  have named : ∀ c ∈ cs.reverse, ∀ l ∈ c, l.var ∈ s.vars f := fun c member l inner =>
    (mentioned _).mpr ⟨c, List.mem_reverse.mp member, l, inner, rfl⟩
  have reads (value : Var → Bool) : s.eval value f = true ↔ Models value cs.reverse := by
    rw [reads]
    simp [Models]
  refine Strives.bind (.inl ⟨cs, read, rfl⟩) fun cs' _ same => ?_
  subst same
  apply (Solver.Available.fresh {}).addVars.strives.bind
  rintro solver - ⟨available, count, default⟩
  have start : Posed (s.vars f) [] solver := ⟨available, count.trans (Nat.zero_add _), default⟩
  have given := Delivers.foldlM_seen (Posed (s.vars f)) (fun _ _ before c member =>
    before.addClause (named c (List.mem_reverse.mpr member))) start
  rw [List.append_nil] at given
  apply given.strives.bind
  rintro solver₁ - ⟨available₁, count₁, default₁⟩
  apply ((solve_strives available₁ default₁ (List.forall_mem_nil _)).mono (count₁ ▸ id) fun x h => h).bind
  rintro ⟨answer, solver₂⟩ - ⟨available₂, answers, count₂, default₂, forgets⟩
  simp only at available₂ answers count₂ default₂ forgets ⊢
  split
  · rename_i without
    refine .inl (.pure (.none reads named fun value models => ?_))
    cases answer with
    | true =>
      obtain ⟨model, has, _⟩ := answers
      cases has.symm.trans without
    | false => exact answers value models (List.forall_mem_nil _)
  · rename_i model has
    have same := count₂.trans count₁
    refine ((confirm_strives available₂ default₂ fun l member => ?_).mono (same ▸ id) fun x h => h).bind
      fun found _ confirmed => .inl (.pure (.some reads named ?_ confirmed))
    · obtain ⟨i, small, rfl⟩ := List.mem_map.mp member
      rw [Lit.var_of]
      exact Nat.lt_of_lt_of_eq (List.mem_range.mp small) same.symm
    · cases answer with
      | false => cases has.symm.trans (forgets rfl)
      | true =>
        obtain ⟨model', has', _, satisfied, _⟩ := answers
        cases has'.symm.trans has
        intro c listed
        obtain ⟨l, member, satisfies⟩ := satisfied c listed
        exact ⟨l, member, satisfies.holds⟩

theorem WellFormed.fixBackbone_strives (wf : s.WellFormed) (known : f ∈ s) (cnf : s.isCnf f = true) :
    Strives (64 ≤ (s.vars f).length) (s.fixBackbone f) fun r => r.2.isCnf r.1 = true := by
  unfold fixBackbone
  refine (wf.backbone_strives known cnf).bind fun found run _ => ?_
  cases found with
  | none => exact .inl (.pure (isCnf_of_isClause (by rw [isClause, wf.node_falsum])))
  | some ls =>
    have beside := wf.backboneParts_beside known run
    have wf' := beside.grows.wellFormed wf
    have rest := (wf.restrict_clauses known cnf ls).2.later beside.later
    have present := fun g member => (beside.each g member).1
    refine .inl (.pure ((wf'.junction_joined present).isCnf wf' present fun g member => ?_))
    rcases (beside.each g member).2 with ⟨l, _, shape⟩ | rfl
    · exact isCnf_of_isClause (by rw [isClause, shape])
    · exact rest.isCnf

/-- The backbone literals beside the restricted clauses mean what the clauses mean. -/
theorem WellFormed.fixBackbone_eval (wf : s.WellFormed) (known : f ∈ s) (cnf : s.isCnf f = true)
    {r : Formula × Store} (run : s.fixBackbone f = .ok r) (value : Var → Bool) :
    r.2.eval value r.1 = s.eval value f := by
  rcases wf.fixBackbone_cases known run with ⟨backbone, rfl⟩ | ⟨ls, backbone, builds⟩
  · have refuted := (wf.backbone_strives known cnf).answer backbone
    rw [wf.eval_falsum, refuted]
  · obtain ⟨_, members⟩ := (wf.backbone_strives known cnf).answer backbone
    rw [builds.eval_eq]
    cases true_ : s.eval value f with
    | false => rw [Bool.and_false]
    | true =>
      rw [Bool.and_true, List.all_eq_true]
      exact fun l member => ((members l).mp member).2 value true_

end Store

end ModelCounting
