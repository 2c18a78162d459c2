import ModelCounting.Proofs.NormalForm

/-!
Conjunctive normal form by distribution, and restriction by literals. Both rebuild a formula
through the constructors, so what they mean follows from what the constructors mean.
-/

namespace ModelCounting

namespace Store

variable {s s' : Store} {c : Connective} {f g : Formula} {fs gs : List Formula}

/-! Lists of formulas read as conjunctions. -/

structure AllMean (meaning : (Var → Bool) → Bool) (scope : Var → Prop) (s : Store)
    (gs : List Formula) : Prop where
  each : ∀ g ∈ gs, g ∈ s ∧ ∀ v ∈ s.vars g, scope v
  eval_eq : ∀ value, gs.all (s.eval value) = meaning value

section AllMean

variable {meaning meaning' : (Var → Bool) → Bool} {scope scope' : Var → Prop}

theorem AllMean.later (all : AllMean meaning scope s gs) (later : Extends s s') :
    AllMean meaning scope s' gs := by
  refine ⟨fun g hg => ?_, fun value => ?_⟩
  · obtain ⟨member, sub⟩ := all.each g hg
    rw [later.vars_eq member]
    exact ⟨later.mem member, sub⟩
  · rw [← all.eval_eq value, Bool.eq_iff_iff, List.all_eq_true, List.all_eq_true]
    exact forall₂_congr fun g hg => by rw [later.eval_eq (all.each g hg).1]

theorem AllMean.mono (all : AllMean meaning scope s gs)
    (same : ∀ value, meaning value = meaning' value) (wider : ∀ v, scope v → scope' v) :
    AllMean meaning' scope' s gs := by
  refine ⟨fun g hg => ?_, fun value => (all.eval_eq value).trans (same value)⟩
  obtain ⟨member, sub⟩ := all.each g hg
  exact ⟨member, fun v h => wider v (sub v h)⟩

theorem AllMean.nil : AllMean (fun _ => true) scope s [] :=
  ⟨by simp, fun _ => rfl⟩

theorem AllMean.cons (head : Means meaning scope s g) (tail : AllMean meaning' scope s gs) :
    AllMean (fun value => meaning value && meaning' value) scope s (g :: gs) := by
  refine ⟨fun h hh => ?_, fun value => ?_⟩
  · rcases List.mem_cons.mp hh with rfl | hh
    · exact ⟨head.mem, head.vars_sub⟩
    · exact tail.each h hh
  · rw [List.all_cons, head.eval_eq, tail.eval_eq]

theorem AllMean.append (left : AllMean meaning scope s fs) (right : AllMean meaning' scope s gs) :
    AllMean (fun value => meaning value && meaning' value) scope s (fs ++ gs) := by
  refine ⟨fun h hh => ?_, fun value => ?_⟩
  · rcases List.mem_append.mp hh with hh | hh
    · exact left.each h hh
    · exact right.each h hh
  · rw [List.all_append, left.eval_eq, right.eval_eq]

theorem AllMean.conj (wf : s.WellFormed) (all : AllMean meaning scope s gs) :
    Grows s (s.conj gs).2 ∧ Means meaning scope (s.conj gs).2 (s.conj gs).1 := by
  have builds : Builds s (s.conj gs) _ _ := wf.junction_builds fun g hg => (all.each g hg).1
  refine ⟨builds.grows, builds.means.mono all.eval_eq ?_⟩
  rintro v ⟨g, hg, inside⟩
  exact (all.each g hg).2 v inside

theorem Means.disj (wf : s.WellFormed) (left : Means meaning scope s f)
    (right : Means meaning' scope s g) :
    Grows s (s.disj [f, g]).2 ∧ Means (fun value => meaning value || meaning' value) scope
      (s.disj [f, g]).2 (s.disj [f, g]).1 := by
  have builds : Builds s (s.disj [f, g]) _ _ := wf.junction_builds (by simp [left.mem, right.mem])
  refine ⟨builds.grows, builds.means.mono (fun value => ?_) ?_⟩
  · simp [Connective.holds, left.eval_eq, right.eval_eq]
  · rintro v ⟨h, member, inside⟩
    simp only [List.mem_cons, List.not_mem_nil, or_false] at member
    rcases member with rfl | rfl
    · exact left.vars_sub v inside
    · exact right.vars_sub v inside

end AllMean

/-! Distribution. -/

theorem WellFormed.conjuncts_mean {meaning : (Var → Bool) → Bool} {scope : Var → Prop}
    (wf : s.WellFormed) (means : Means meaning scope s f) :
    AllMean meaning scope s (s.conjuncts f) := by
  unfold conjuncts
  split
  · rename_i fs shape
    refine ⟨fun g hg => ?_, fun value => ?_⟩
    · have child : g ∈ (s.node f).children := by rwa [shape]
      exact ⟨child_mem means.mem child, fun v h => means.vars_sub v (wf.vars_child means.mem child h)⟩
    · rw [← means.eval_eq, eval_node _ _ f, shape]
      rfl
  · exact (AllMean.cons means .nil).mono (fun _ => by simp) fun _ h => h

section Distribution

variable {left right : (Var → Bool) → Bool} {scope : Var → Prop}

theorem disjEach_mean (wf : s.WellFormed) (first : Means left scope s f)
    (rest : AllMean right scope s gs) :
    Grows s (s.disjEach f gs).2 ∧ AllMean (fun value => left value || right value) scope
      (s.disjEach f gs).2 (s.disjEach f gs).1 := by
  induction gs generalizing s right with
  | nil =>
    refine ⟨Grows.refl s, AllMean.nil.mono (fun value => ?_) fun _ h => h⟩
    rw [← rest.eval_eq]
    simp
  | cons g gs ih =>
    have head : Means (fun value => s.eval value g) scope s g :=
      ⟨(rest.each g (by simp)).1, fun _ => rfl, (rest.each g (by simp)).2⟩
    have tail : AllMean (fun value => gs.all (s.eval value)) scope s gs :=
      ⟨fun h hh => rest.each h (List.mem_cons_of_mem g hh), fun _ => rfl⟩
    have joined := first.disj wf head
    have wf' := joined.1.wellFormed wf
    have later := joined.1.later wf
    have run := ih wf' (first.later later) (tail.later later)
    refine ⟨joined.1.trans run.1, ((AllMean.cons (joined.2.later (run.1.later wf')) run.2).mono
      (fun value => ?_) fun _ h => h)⟩
    rw [← rest.eval_eq, List.all_cons]
    cases left value <;> rfl

theorem disjPairs_mean (wf : s.WellFormed) (first : AllMean left scope s fs)
    (second : AllMean right scope s gs) :
    Grows s (s.disjPairs gs fs).2 ∧ AllMean (fun value => left value || right value) scope
      (s.disjPairs gs fs).2 (s.disjPairs gs fs).1 := by
  induction fs generalizing s left with
  | nil =>
    refine ⟨Grows.refl s, AllMean.nil.mono (fun value => ?_) fun _ h => h⟩
    rw [← first.eval_eq]
    simp
  | cons f fs ih =>
    have head : Means (fun value => s.eval value f) scope s f :=
      ⟨(first.each f (by simp)).1, fun _ => rfl, (first.each f (by simp)).2⟩
    have tail : AllMean (fun value => fs.all (s.eval value)) scope s fs :=
      ⟨fun h hh => first.each h (List.mem_cons_of_mem f hh), fun _ => rfl⟩
    have row := disjEach_mean wf head second
    have wf' := row.1.wellFormed wf
    have later := row.1.later wf
    have run := ih wf' (tail.later later) (second.later later)
    refine ⟨row.1.trans run.1, ((row.2.later (run.1.later wf')).append run.2).mono
      (fun value => ?_) fun _ h => h⟩
    rw [← first.eval_eq, List.all_cons]
    cases right value <;> simp

theorem distribute_means (wf : s.WellFormed) (first : Means left scope s f)
    (second : Means right scope s g) :
    Grows s (s.distribute f g).2 ∧ Means (fun value => left value || right value) scope
      (s.distribute f g).2 (s.distribute f g).1 := by
  have pairs := disjPairs_mean wf (wf.conjuncts_mean first) (wf.conjuncts_mean second)
  have joined := pairs.2.conj (pairs.1.wellFormed wf)
  exact ⟨pairs.1.trans joined.1, joined.2⟩

end Distribution

/-! Rewriting under a change of values. -/

def Rewrites (change : (Var → Bool) → Var → Bool) (keep : Var → Prop) (f : Formula) (s : Store)
    (g : Formula) : Prop :=
  f ∈ s ∧ Means (fun value => s.eval (change value) f) (fun v => v ∈ s.vars f ∧ keep v) s g

section Rewriting

variable {change : (Var → Bool) → Var → Bool} {keep : Var → Prop} {memo : Memo}

theorem Rewrites.later (rewrites : Rewrites change keep f s g) (later : Extends s s') :
    Rewrites change keep f s' g := by
  obtain ⟨known, means⟩ := rewrites
  refine ⟨later.mem known, (means.later later).mono (fun value => ?_) fun v => ?_⟩
  · rw [later.eval_eq known]
  · rw [later.vars_eq known]
    exact id

theorem Means.rewrites {meaning : (Var → Bool) → Bool}
    (means : Means meaning (fun v => v ∈ s.vars f ∧ keep v) s' g) (known : f ∈ s)
    (later : Extends s s') (same : ∀ value, meaning value = s.eval (change value) f) :
    Rewrites change keep f s' g := by
  refine ⟨later.mem known, means.mono (fun value => ?_) fun v => ?_⟩
  · rw [later.eval_eq known]
    exact same value
  · rw [later.vars_eq known]
    exact id

theorem Rewrites.memo_later (good : Remembers (Rewrites change keep) s memo)
    (later : Extends s s') : Remembers (Rewrites change keep) s' memo :=
  good.mono fun _ _ rewrites => rewrites.later later

theorem Rewrites.operand (wf : s.WellFormed) (known : f ∈ s) (child : g ∈ (s.node f).children)
    {h : Formula} (rewrites : Rewrites change keep g s h) :
    Means (fun value => s.eval (change value) g) (fun v => v ∈ s.vars f ∧ keep v) s h :=
  rewrites.2.mono (fun _ => rfl) fun _ ⟨inside, kept⟩ => ⟨wf.vars_child known child inside, kept⟩

theorem operands_rewrite {step : Formula → Store → Memo → Formula × Store × Memo}
    (wf : s.WellFormed) (known : f ∈ s) (good : Remembers (Rewrites change keep) s memo)
    (shape : s.node f = c.node fs)
    (below : ∀ g ∈ fs, ∀ s' memo', Grows s s' → Remembers (Rewrites change keep) s' memo' →
      Converts (Rewrites change keep g) (Remembers (Rewrites change keep)) s' (step g s' memo')) :
    Converts (Rewrites change keep f) (Remembers (Rewrites change keep)) s
      (junctionOf c (collect step fs ([], s, memo))) := by
  have children : (s.node f).children = fs := by rw [shape, Connective.node_children]
  obtain ⟨hs, results, grows, good', parts⟩ := collect_converts (Rewrites change keep)
    (fun _ _ _ _ later _ rewrites => rewrites.later later) wf
    (fun g hg => child_mem known (by rwa [children])) below (Grows.refl s) good []
  generalize collect step fs ([], s, memo) = r at *
  have wf' := grows.wellFormed wf
  have later := grows.later wf
  have present := later.mem known
  rw [← later.node_eq known] at shape children
  have each : ∀ h ∈ hs, ∃ g ∈ fs, Means (fun value => r.2.1.eval (change value) g)
      (fun v => v ∈ r.2.1.vars f ∧ keep v) r.2.1 h := by
    intro h hh
    obtain ⟨g, hg, rewrites⟩ := forall₂_mem_right parts h hh
    exact ⟨g, hg, rewrites.operand wf' present (by rwa [children])⟩
  have builds := wf'.junction_builds (c := c) (fun h hh => by
    obtain ⟨_, _, means⟩ := each h hh
    exact means.mem)
  have after := builds.later wf'
  simp only [List.append_nil] at results
  unfold junctionOf
  rw [results, List.reverse_reverse]
  refine ⟨grows.trans builds.grows, Rewrites.memo_later good' after,
    Means.rewrites (builds.means.mono (fun _ => rfl) ?_) present after fun value => ?_⟩
  · rintro v ⟨h, hh, inside⟩
    obtain ⟨_, _, means⟩ := each h hh
    exact means.vars_sub v inside
  · rw [eval_node _ _ f, shape, Connective.node_eval]
    exact holds_forall₂ (parts.imp fun _ _ rewrites => rewrites.2.eval_eq value)

end Rewriting

/-! Conjunctive normal form. -/

def Restates (f : Formula) (s : Store) (g : Formula) : Prop := Rewrites id (fun _ => True) f s g

theorem Restates.refl (known : f ∈ s) : Restates f s f :=
  ⟨known, (Builds.known known).means.mono (fun _ => rfl) fun _ h => ⟨h, trivial⟩⟩

def cnfSum (fs : List Formula) (start : Formula × Store × Memo) : Formula × Store × Memo :=
  fs.foldl (fun r g =>
    let h := cnfFrom g r.2.1 r.2.2
    let sum := h.2.1.distribute r.1 h.1
    (sum.1, sum.2, h.2.2)) start

theorem cnfSum_attach (fs : List Formula) (start : Formula × Store × Memo) :
    fs.attach.foldl (fun r g =>
      (((cnfFrom g.1 r.2.1 r.2.2).2.1.distribute r.1 (cnfFrom g.1 r.2.1 r.2.2).1).1,
        ((cnfFrom g.1 r.2.1 r.2.2).2.1.distribute r.1 (cnfFrom g.1 r.2.1 r.2.2).1).2,
        (cnfFrom g.1 r.2.1 r.2.2).2.2)) start = cnfSum fs start := by
  unfold cnfSum
  exact List.foldl_attach (f := fun r g =>
    (((cnfFrom g r.2.1 r.2.2).2.1.distribute r.1 (cnfFrom g r.2.1 r.2.2).1).1,
      ((cnfFrom g r.2.1 r.2.2).2.1.distribute r.1 (cnfFrom g r.2.1 r.2.2).1).2,
      (cnfFrom g r.2.1 r.2.2).2.2))

def cnfNode (f : Formula) (s : Store) (memo : Memo) : Node → Formula × Store × Memo
  | .and fs => junctionOf .conj (collect cnfFrom fs ([], s, memo))
  | .or fs => cnfSum fs (.falsum, s, memo)
  | _ => (f, s, memo)

theorem cnfFrom_fresh {memo : Memo} (fresh : memo[f]? = none) :
    cnfFrom f s memo =
      ((cnfNode f s memo (s.node f)).1, (cnfNode f s memo (s.node f)).2.1,
        (cnfNode f s memo (s.node f)).2.2.insert f (cnfNode f s memo (s.node f)).1) := by
  rw [cnfFrom]
  simp only [fresh, collect_attach cnfFrom, cnfSum_attach]
  split
  · rename_i shape
    simp only [shape, cnfNode]
    rfl
  · rename_i shape
    simp only [shape, cnfNode]
  · cases shape : s.node f <;> simp_all [cnfNode]

theorem cnfSum_means {scope : Var → Prop} {meaning : (Var → Bool) → Bool} {memo : Memo}
    {s₀ : Store} (wf : s₀.WellFormed) (known : ∀ g ∈ fs, g ∈ s₀ ∧ ∀ v ∈ s₀.vars g, scope v)
    (below : ∀ g ∈ fs, ∀ s' memo', Grows s₀ s' → Remembers Restates s' memo' →
      Converts (Restates g) (Remembers Restates) s' (cnfFrom g s' memo'))
    (before : Grows s₀ s) (good : Remembers Restates s memo) (sum : Means meaning scope s f) :
    Converts (Means (fun value => meaning value || fs.any (s₀.eval value)) scope)
      (Remembers Restates) s (cnfSum fs (f, s, memo)) := by
  induction fs generalizing s f memo meaning with
  | nil =>
    exact ⟨Grows.refl s, good, sum.mono (fun value => by simp) fun _ h => h⟩
  | cons g gs ih =>
    have run := below g (by simp) s memo before good
    have wfS := before.wellFormed wf
    have wf₁ := run.grows.wellFormed wfS
    have toNow := (before.trans run.grows).later wf
    have here := (known g (by simp)).1
    have part : Means (fun value => s₀.eval value g) scope (cnfFrom g s memo).2.1
        (cnfFrom g s memo).1 :=
      run.right.2.mono (fun value => toNow.eval_eq here value) fun v ⟨inside, _⟩ => by
        rw [toNow.vars_eq here] at inside
        exact (known g (by simp)).2 v inside
    have next := distribute_means wf₁ (sum.later (run.grows.later wfS)) part
    have rest := ih (fun h hh => known h (List.mem_cons_of_mem g hh))
      (fun h hh => below h (List.mem_cons_of_mem g hh)) ((before.trans run.grows).trans next.1)
      (Rewrites.memo_later run.good (next.1.later wf₁)) next.2
    refine ⟨(run.grows.trans next.1).trans rest.grows, rest.good, rest.right.mono (fun value => ?_)
      fun _ h => h⟩
    rw [List.any_cons, Bool.or_assoc]

theorem cnfFrom_converts (wf : s.WellFormed) (known : f ∈ s) {memo : Memo}
    (good : Remembers Restates s memo) :
    Converts (Restates f) (Remembers Restates) s (cnfFrom f s memo) := by
  induction size : f.id using Nat.strongRecOn generalizing f s memo with
  | ind k ih =>
    cases fresh : memo[f]? with
    | some g =>
      rw [cnfFrom]
      simp only [fresh]
      exact ⟨Grows.refl s, good, good f g fresh⟩
    | none =>
      have below : ∀ g ∈ (s.node f).children, ∀ s' memo', Grows s s' →
          Remembers Restates s' memo' →
          Converts (Restates g) (Remembers Restates) s' (cnfFrom g s' memo') :=
        fun g child s' memo' grows good' => ih g.id (size ▸ s.child_lt child)
          (grows.wellFormed wf) ((grows.later wf).mem (child_mem known child)) good' rfl
      have node : Converts (Restates f) (Remembers Restates) s (cnfNode f s memo (s.node f)) := by
        cases shape : s.node f with
        | falsum | verum | lit | not | implies | equiv =>
          exact ⟨Grows.refl s, good, Restates.refl known⟩
        | and fs =>
          exact operands_rewrite (c := .conj) wf known good shape fun g hg =>
            below g (by rwa [shape])
        | or fs =>
          have none : Means (fun _ => false) (· ∈ s.vars f) s .falsum :=
            ⟨wf.falsum_mem, wf.eval_falsum, by simp [wf.vars_constant (f := .falsum) rfl]⟩
          have child {g : Formula} (hg : g ∈ fs) : g ∈ (s.node f).children := by rwa [shape]
          have run := cnfSum_means wf
            (fun g hg => ⟨child_mem known (child hg), fun v => wf.vars_child known (child hg)⟩)
            (fun g hg => below g (child hg)) (Grows.refl s) good none
          refine ⟨run.grows, run.good, Means.rewrites (run.right.mono (fun _ => rfl)
            fun v h => ⟨h, trivial⟩) known (run.grows.later wf) fun value => ?_⟩
          rw [id, eval_node _ _ f, shape]
          rfl
      rw [cnfFrom_fresh fresh]
      exact ⟨node.grows, node.good.insert node.right, node.right⟩

theorem WellFormed.cnf_restates (wf : s.WellFormed) (known : f ∈ s) :
    Grows s (s.cnf f).2 ∧ Restates f (s.cnf f).2 (s.cnf f).1 := by
  unfold cnf
  split
  · exact ⟨Grows.refl s, Restates.refl known⟩
  · obtain ⟨grows, normal⟩ := wf.nnf_normal known
    have wf' := grows.wellFormed wf
    have start : Remembers Restates (s.nnf f).2 ∅ := fun k g found => by simp at found
    have run := cnfFrom_converts wf' normal.mem start
    have later := run.grows.later wf'
    have present := (grows.later wf).mem known
    refine ⟨grows.trans run.grows, Means.rewrites (run.right.2.mono (fun _ => rfl) fun v => ?_)
      present later fun value => ?_⟩
    · rintro ⟨inside, -⟩
      rw [later.vars_eq normal.mem] at inside
      exact ⟨normal.vars_sub v inside, trivial⟩
    · rw [id, later.eval_eq normal.mem, normal.eval_eq, beq_true]

/-! Restriction. -/

/-- The values with the given literals made true. -/
def override (ls : List Lit) (value : Var → Bool) (v : Var) : Bool :=
  if ls.contains (.of v true) then true else if ls.contains (.of v false) then false else value v

def Untouched (ls : List Lit) (v : Var) : Prop := ∀ l ∈ ls, l.var ≠ v

/-- No literal stands beside its complement. -/
def Consistent (ls : List Lit) : Prop := ∀ l ∈ ls, -l ∉ ls

theorem untouched_var {ls : List Lit} {l : Lit} (here : ¬ ls.contains l = true)
    (there : ¬ ls.contains (-l) = true) : Untouched ls l.var := by
  rw [List.contains_iff_mem] at here there
  intro m member same
  by_cases phase : m.phase = l.phase
  · rw [Lit.ext_var_phase same phase] at member
    exact here member
  · have opposite : m = -l := Lit.ext_var_phase (same.trans (Lit.var_neg l).symm)
      ((Bool.eq_not_of_ne phase).trans (Lit.phase_neg l).symm)
    rw [opposite] at member
    exact there member

theorem override_holds {ls : List Lit} (consistent : Consistent ls) (value : Var → Bool) (l : Lit) :
    l.holds (override ls value) =
      if ls.contains l then true else if ls.contains (-l) then false else l.holds value := by
  have whole := Lit.of_var_phase l
  have opposite : -l = Lit.of l.var (!l.phase) := Lit.ext_var_phase (by simp) (by simp)
  have apart := consistent l
  simp only [Lit.holds, override, List.contains_iff_mem]
  rw [opposite] at apart ⊢
  cases phase : l.phase <;> rw [phase] at whole apart <;> simp only [Bool.not_true, Bool.not_false]
    at apart ⊢ <;> rw [whole] at *
  · by_cases here : l ∈ ls <;> by_cases there : Lit.of l.var true ∈ ls <;> simp_all
  · by_cases here : l ∈ ls <;> by_cases there : Lit.of l.var false ∈ ls <;> simp_all

theorem override_self {ls : List Lit} {value : Var → Bool} (hold : ∀ l ∈ ls, l.holds value = true) :
    override ls value = value := by
  funext v
  unfold override
  split
  · rename_i positive
    simpa [Lit.holds] using hold _ (List.contains_iff_mem.mp positive)
  · split
    · rename_i negative
      simpa [Lit.holds] using hold _ (List.contains_iff_mem.mp negative)
    · rfl

def restrictNode (ls : List Lit) (f : Formula) (s : Store) (memo : Memo) :
    Node → Formula × Store × Memo
  | .falsum | .verum => (f, s, memo)
  | .lit l =>
    if ls.contains l then (.verum, s, memo)
    else if ls.contains (-l) then (.falsum, s, memo)
    else (f, s, memo)
  | .not g =>
    let h := restrictFrom ls g s memo
    ((h.2.1.neg h.1).1, (h.2.1.neg h.1).2, h.2.2)
  | .and fs => junctionOf .conj (collect (restrictFrom ls) fs ([], s, memo))
  | .or fs => junctionOf .disj (collect (restrictFrom ls) fs ([], s, memo))
  | .implies a b =>
    let x := restrictFrom ls a s memo
    let y := restrictFrom ls b x.2.1 x.2.2
    ((y.2.1.implies x.1 y.1).1, (y.2.1.implies x.1 y.1).2, y.2.2)
  | .equiv a b =>
    let x := restrictFrom ls a s memo
    let y := restrictFrom ls b x.2.1 x.2.2
    ((y.2.1.equiv x.1 y.1).1, (y.2.1.equiv x.1 y.1).2, y.2.2)

theorem restrictFrom_fresh {ls : List Lit} {memo : Memo} (fresh : memo[f]? = none) :
    restrictFrom ls f s memo =
      ((restrictNode ls f s memo (s.node f)).1, (restrictNode ls f s memo (s.node f)).2.1,
        (restrictNode ls f s memo (s.node f)).2.2.insert f
          (restrictNode ls f s memo (s.node f)).1) := by
  rw [restrictFrom]
  simp only [fresh, collect_attach (restrictFrom ls)]
  split <;> rename_i shape <;> simp only [shape, restrictNode] <;> rfl

section Restriction

variable {ls : List Lit} {memo : Memo}

abbrev Restricts (ls : List Lit) : Formula → Store → Formula → Prop :=
  Rewrites (override ls) (Untouched ls)

/-- Two operands are converted one after the other, and then put together. -/
theorem pair_converts {right : Formula → Store → Formula → Prop}
    {step : Formula → Store → Memo → Formula × Store × Memo} {a b : Formula} (wf : s.WellFormed)
    (good : Remembers right s memo)
    (below : ∀ g ∈ [a, b], ∀ s' memo', Grows s s' → Remembers right s' memo' →
      Converts (right g) (Remembers right) s' (step g s' memo'))
    (stable : ∀ g s s' h, Extends s s' → right g s h → right g s' h)
    {build : Store → Formula → Formula → Formula × Store}
    (finish : ∀ s' x y, s'.WellFormed → Extends s s' → right a s' x → right b s' y →
      Grows s' (build s' x y).2 ∧ right f (build s' x y).2 (build s' x y).1) :
    let x := step a s memo
    let y := step b x.2.1 x.2.2
    Converts (right f) (Remembers right) s
      ((build y.2.1 x.1 y.1).1, (build y.2.1 x.1 y.1).2, y.2.2) := by
  intro x y
  have first : Converts _ _ s x := below a (by simp) s memo (Grows.refl s) good
  have wf₁ := first.grows.wellFormed wf
  have second : Converts _ _ x.2.1 y := below b (by simp) _ _ first.grows first.good
  have wf₂ := second.grows.wellFormed wf₁
  have grows := first.grows.trans second.grows
  obtain ⟨built, made⟩ := finish y.2.1 x.1 y.1 wf₂ (grows.later wf)
    (stable a _ _ _ (second.grows.later wf₁) first.right) second.right
  exact ⟨grows.trans built, second.good.mono fun k g => stable k _ _ g (built.later wf₂), made⟩

theorem restrict_literal (wf : s.WellFormed) (known : f ∈ s) (consistent : Consistent ls)
    {l : Lit} (shape : s.node f = .lit l) (good : Remembers (Restricts ls) s memo) :
    Converts (Restricts ls f) (Remembers (Restricts ls)) s (restrictNode ls f s memo (.lit l)) := by
  obtain ⟨value_eq, only⟩ := wf.lit_meaning known shape
  have override_eq := fun value => override_holds consistent value l
  simp only [restrictNode]
  split
  · rename_i here
    refine ⟨Grows.refl s, good, known, wf.verum_mem, fun value => ?_, ?_⟩
    · rw [wf.eval_verum, value_eq, override_eq, if_pos here]
    · simp [wf.vars_constant (f := .verum) rfl]
  · rename_i here
    split
    · rename_i there
      refine ⟨Grows.refl s, good, known, wf.falsum_mem, fun value => ?_, ?_⟩
      · rw [wf.eval_falsum, value_eq, override_eq, if_neg here, if_pos there]
      · simp [wf.vars_constant (f := .falsum) rfl]
    · rename_i there
      refine ⟨Grows.refl s, good, known, known, fun value => ?_, fun v mentioned => ?_⟩
      · rw [value_eq, value_eq, override_eq, if_neg here, if_neg there]
      · refine ⟨mentioned, ?_⟩
        rw [only v mentioned]
        exact untouched_var here there

/-- Two operands one after the other, and then a constructor that is given its meaning. -/
theorem restrict_pair {a b : Formula} (wf : s.WellFormed) (known : f ∈ s)
    (children : (s.node f).children = [a, b])
    (good : Remembers (Restricts ls) s memo)
    (below : ∀ g ∈ [a, b], ∀ s' memo', Grows s s' → Remembers (Restricts ls) s' memo' →
      Converts (Restricts ls g) (Remembers (Restricts ls)) s' (restrictFrom ls g s' memo'))
    (build : Store → Formula → Formula → Formula × Store) (op : Bool → Bool → Bool)
    (value_eq : ∀ s', Extends s s' → ∀ value,
      s'.eval value f = op (s'.eval value a) (s'.eval value b))
    (builds : ∀ s' x y, s'.WellFormed → x ∈ s' → y ∈ s' → Builds s' (build s' x y)
      (fun value => op (s'.eval value x) (s'.eval value y)) (fun v => v ∈ s'.vars x ∨ v ∈ s'.vars y)) :
    let x := restrictFrom ls a s memo
    let y := restrictFrom ls b x.2.1 x.2.2
    Converts (Restricts ls f) (Remembers (Restricts ls)) s
      ((build y.2.1 x.1 y.1).1, (build y.2.1 x.1 y.1).2, y.2.2) := by
  apply pair_converts wf good below fun _ _ _ _ later rewrites => rewrites.later later
  intro s' x y wf' later left right
  have present := later.mem known
  rw [← later.node_eq known] at children
  have first := left.operand wf' present (by simp [children])
  have second := right.operand wf' present (by simp [children])
  have built := builds s' x y wf' first.mem second.mem
  refine ⟨built.grows, Means.rewrites (built.means.mono (fun _ => rfl) ?_) present
    (built.later wf') fun value => ?_⟩
  · rintro v (inside | inside)
    · exact first.vars_sub v inside
    · exact second.vars_sub v inside
  · rw [value_eq _ later, first.eval_eq, second.eval_eq]

theorem restrictFrom_converts (wf : s.WellFormed) (known : f ∈ s) (consistent : Consistent ls)
    (good : Remembers (Restricts ls) s memo) :
    Converts (Restricts ls f) (Remembers (Restricts ls)) s (restrictFrom ls f s memo) := by
  induction size : f.id using Nat.strongRecOn generalizing f s memo with
  | ind k ih =>
    cases fresh : memo[f]? with
    | some g =>
      rw [restrictFrom]
      simp only [fresh]
      exact ⟨Grows.refl s, good, good f g fresh⟩
    | none =>
      have below : ∀ g ∈ (s.node f).children, ∀ s' memo', Grows s s' →
          Remembers (Restricts ls) s' memo' →
          Converts (Restricts ls g) (Remembers (Restricts ls)) s' (restrictFrom ls g s' memo') :=
        fun g child s' memo' grows good' => ih g.id (size ▸ s.child_lt child)
          (grows.wellFormed wf) ((grows.later wf).mem (child_mem known child)) good' rfl
      have node : Converts (Restricts ls f) (Remembers (Restricts ls)) s
          (restrictNode ls f s memo (s.node f)) := by
        cases shape : s.node f with
        | falsum =>
          obtain rfl := wf.eq_falsum known shape
          refine ⟨Grows.refl s, good, known, known, fun value => ?_, ?_⟩
          · exact (wf.eval_falsum value).trans (wf.eval_falsum _).symm
          · simp [restrictNode, wf.vars_constant (f := .falsum) rfl]
        | verum =>
          obtain rfl := wf.eq_verum known shape
          refine ⟨Grows.refl s, good, known, known, fun value => ?_, ?_⟩
          · exact (wf.eval_verum value).trans (wf.eval_verum _).symm
          · simp [restrictNode, wf.vars_constant (f := .verum) rfl]
        | lit l => exact restrict_literal wf known consistent shape good
        | not g =>
          have child : g ∈ (s.node f).children := by simp [shape, Node.children]
          have run := below g child s memo (Grows.refl s) good
          have wf' := run.grows.wellFormed wf
          have later := run.grows.later wf
          have present := later.mem known
          rw [← later.node_eq known] at shape child
          have part := run.right.operand wf' present child
          have built := wf'.neg_builds part.mem
          have after := built.later wf'
          refine ⟨run.grows.trans built.grows, Rewrites.memo_later run.good after,
            Means.rewrites (built.means.mono (fun _ => rfl) part.vars_sub) present after
              fun value => ?_⟩
          rw [eval_node _ _ f, shape, part.eval_eq, Node.eval]
        | and fs =>
          exact operands_rewrite (c := .conj) wf known good shape fun g hg =>
            below g (by rwa [shape])
        | or fs =>
          exact operands_rewrite (c := .disj) wf known good shape fun g hg =>
            below g (by rwa [shape])
        | implies a b =>
          refine restrict_pair wf known (by rw [shape]; rfl) good (fun g hg => below g (by rwa [shape]))
            implies (fun p q => !p || q) (fun s' later value => ?_)
            fun s' x y wf' hx hy => wf'.implies_builds hx hy
          rw [eval_node _ _ f, later.node_eq known, shape, Node.eval]
        | equiv a b =>
          refine restrict_pair wf known (by rw [shape]; rfl) good (fun g hg => below g (by rwa [shape]))
            equiv (fun p q => p == q) (fun s' later value => ?_)
            fun s' x y wf' hx hy => wf'.equiv_builds hx hy
          rw [eval_node _ _ f, later.node_eq known, shape, Node.eval]
      rw [restrictFrom_fresh fresh]
      exact ⟨node.grows, node.good.insert node.right, node.right⟩

/-- A restricted formula has the value of the formula with the literals made true, and mentions
none of their variables. -/
theorem WellFormed.restrict_restricts (wf : s.WellFormed) (known : f ∈ s)
    (consistent : Consistent ls) :
    Grows s (s.restrict f ls).2 ∧ Restricts ls f (s.restrict f ls).2 (s.restrict f ls).1 := by
  have start : Remembers (Restricts ls) s ∅ := fun k g found => by simp at found
  have run := restrictFrom_converts wf known consistent start
  exact ⟨run.grows, run.right⟩

end Restriction

end Store

end ModelCounting
