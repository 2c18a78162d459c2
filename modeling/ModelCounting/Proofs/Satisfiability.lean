import ModelCounting.Proofs.Gates
import ModelCounting.Proofs.Sharing

/-!
The answers about satisfiability are right: an assignment is found just if there is one, and it
fixes the variables of the formula and no others. So validity, equivalence and entailment are
decided. An answer can only fail to come for a formula of at least 64 parts.
-/

namespace ModelCounting

namespace Assignment

variable {l : Lit} {ls acc : List Lit} {vars : List Var}

theorem insertSorted_last (last : ∀ m ∈ ls, m.code < l.code) : insertSorted l ls = ls ++ [l] := by
  induction ls with
  | nil => rfl
  | cons m ms ih =>
    have below := last m List.mem_cons_self
    have other : l ≠ m := fun same => Nat.ne_of_gt below (congrArg Lit.code same)
    rw [insertSorted, if_neg (Nat.not_lt_of_gt below), if_neg other,
      ih fun m member => last m (List.mem_cons_of_mem _ member)]
    rfl

theorem add_last (last : ∀ m ∈ acc, m.var.id < l.var.id) : add ⟨acc⟩ l = ⟨acc ++ [l]⟩ := by
  have apart : acc.filter (· ≠ -l) = acc := by
    rw [List.filter_eq_self]
    intro m member
    have other : m ≠ -l := by
      rintro rfl
      have := last _ member
      rw [Lit.var_neg] at this
      exact Nat.lt_irrefl _ this
    simpa using other
  have below (m : Lit) (member : m ∈ acc) : m.code < l.code := by
    have := last m member
    simp only [Lit.var] at this
    omega
  unfold add
  simp only
  rw [apart, insertSorted_last below]

theorem ofList_ascending (ascending : ls.Pairwise fun l m => l.var.id < m.var.id) :
    ofList ls = ⟨ls⟩ := by
  have adds (acc : List Lit) (ascending : (acc ++ ls).Pairwise fun l m => l.var.id < m.var.id) :
      ls.foldl add ⟨acc⟩ = ⟨acc ++ ls⟩ := by
    induction ls generalizing acc with
    | nil => rw [List.foldl_nil, List.append_nil]
    | cons l ls ih =>
      have last (m : Lit) (member : m ∈ acc) : m.var.id < l.var.id :=
        (List.pairwise_append.mp ascending).2.2 m member l List.mem_cons_self
      rw [List.append_cons] at ascending ⊢
      rw [List.foldl_cons, add_last last]
      exact ih (List.Pairwise.of_cons ‹_›) (acc ++ [l]) ascending
  exact adds [] ascending

theorem ofList_values (ascending : Ascending vars) (value : Var → Bool) :
    (ofList (vars.map fun v => Lit.of v (value v))).literals.map Lit.var = vars ∧
      ∀ v ∈ vars, (ofList (vars.map fun v => Lit.of v (value v))).holds v = value v := by
  have rises : (vars.map fun v => Lit.of v (value v)).Pairwise fun l m => l.var.id < m.var.id := by
    rw [List.pairwise_map]
    simp only [Lit.var_of]
    exact ascending
  rw [ofList_ascending rises]
  constructor
  · simp [Function.comp_def]
  · intro v member
    rw [Bool.eq_iff_iff]
    simp only [holds, List.contains_iff_mem, List.mem_map]
    constructor
    · rintro ⟨w, _, same⟩
      obtain rfl : w = v := by simpa using congrArg Lit.var same
      simpa using congrArg Lit.phase same
    · intro true_
      exact ⟨v, member, by rw [true_]⟩

end Assignment

namespace GateEncoding

variable {s : Store} {Γ : List (List Lit)} {e : GateEncoding} {g : Formula}

def read (e : GateEncoding) (model : Array Bool) (v : Var) : Bool :=
  match e.vars[v]? with
  | some i => model.getD i.id false
  | none => false

theorem agrees_read (e : GateEncoding) (model : Array Bool) :
    e.Agrees (e.read model) fun i => model.getD i.id false := by
  intro v i here
  simp only [read, here]

/-- The clauses of a solver have a model just if a formula is true under some values, which are those
of the model. -/
structure Poses (s : Store) (g : Formula) (Γ : List (List Lit)) (e : GateEncoding) : Prop where
  available : e.solver.Available Γ
  settings : e.solver.settings = {}
  size : e.solver.varCount ≤ (s.parts g).ncard
  sound : ∀ value σ, e.Agrees value σ → Models σ Γ → s.eval value g = true
  complete : ∀ value, s.eval value g = true → ∃ σ, Models σ Γ

theorem Poses.verum (wf : s.WellFormed) : Poses s .verum [] {} where
  available := .fresh {}
  settings := rfl
  size := Nat.zero_le _
  sound value _ _ _ := wf.eval_verum value
  complete value _ := ⟨value, by simp [Models]⟩

def pose (s : Store) (g : Formula) : Except Fault GateEncoding :=
  if g = .verum then pure {}
  else do
    let (root, e) ← encode s g {}
    e.addClause [root]

theorem pose_delivers (wf : s.WellFormed) (member : g ∈ s) (normal : s.isNnf g = true)
    (possible : g ≠ .falsum) : Delivers (pose s g) fun e => ∃ Γ, Poses s g Γ e := by
  unfold pose
  split
  · rename_i verum
    subst verum
    exact .pure ⟨[], .verum wf⟩
  rename_i other
  have proper : g.isConstant = false := by simp [Formula.isConstant, possible, other]
  refine ((Encodes.empty s).encode wf member normal proper).bind ?_
  rintro ⟨root, e⟩ - ⟨⟨Δ, good⟩, gate, adds⟩
  have inside : ∀ l ∈ [root], l.var.id < e.solver.varCount := by
    intro l member
    rw [List.mem_singleton.mp member]
    exact good.outputs g root gate
  refine (good.available.addClause inside).bind ?_
  rintro ⟨_, solver⟩ - ⟨available, count, settings⟩
  refine .pure ⟨[root] :: Δ, available, settings.trans good.settings, ?_, ?_, ?_⟩
  · refine Nat.le_trans (Nat.le_of_eq count) (good.varCount_le (s.finite_parts g) fun h outside => ?_)
    exact (adds.within h outside).trans (by simp)
  · intro value σ agrees models
    obtain ⟨l, same, true_⟩ := models [root] List.mem_cons_self
    rw [List.mem_singleton.mp same] at true_
    exact good.sound value σ agrees (fun c older => models c (List.mem_cons_of_mem _ older)) g root
      gate true_
  · intro value true_
    obtain ⟨σ, _, models, gates⟩ := good.complete value
    refine ⟨σ, fun c member => ?_⟩
    rcases List.mem_cons.mp member with rfl | older
    · exact ⟨root, List.mem_singleton_self _, (gates g root gate).trans true_⟩
    · exact models c older

/-- There is a model to read just if the formula is true under some values. -/
theorem Poses.solve (poses : Poses s g Γ e) :
    Strives (64 ≤ (s.parts g).ncard) (e.solver.solve []) fun x =>
      match x.2.model with
      | none => ∀ value, s.eval value g = false
      | some model => s.eval (e.read model) g = true := by
  refine (poses.available.solve (List.forall_mem_nil _)).mono (fun exhaustible => ?_) ?_
  · rw [poses.settings] at exhaustible
    exact Nat.le_trans exhaustible.many poses.size
  rintro ⟨answer, solver⟩ ⟨_, answers, _, _, nothing⟩
  cases answer with
  | false =>
    rw [nothing rfl]
    intro value
    by_contra true_
    obtain ⟨σ, models⟩ := poses.complete value (by simpa using true_)
    exact answers σ models nofun
  | true =>
    obtain ⟨model, found, _, satisfied, _⟩ := answers
    rw [found]
    refine poses.sound _ _ (e.agrees_read model) fun c member => ?_
    obtain ⟨l, inner, satisfies⟩ := satisfied c member
    exact ⟨l, inner, satisfies.holds⟩

/-- The assignment of the model, to the variables of a formula. -/
def answer (s : Store) (f : Formula) (e : GateEncoding) : Except Fault (Option Assignment × Store) := do
  let (_, solver) ← e.solver.solve []
  match solver.model with
  | none => return (none, s)
  | some model =>
    let ls := (s.vars f).map fun v =>
      match e.vars[v]? with
      | some i => Lit.of v (model.getD i.id false)
      | none => Lit.of v false
    return (some (.ofList ls), s)

end GateEncoding

namespace Store

variable {s s' : Store} {f g : Formula}

/-- The negation normal form is so large that the solver could run out of restarts. -/
def Hard (r : Formula × Store) : Prop := 64 ≤ ((r.2.nnf r.1).2.parts (r.2.nnf r.1).1).ncard

def Answered (s : Store) (f : Formula) : Option Assignment → Prop
  | none => ∀ a : Assignment, s.evaluate f a = false
  | some m => m.literals.map Lit.var = s.vars f ∧ s.evaluate f m = true

theorem oneSat_eq (s : Store) (f : Formula) : s.oneSat f =
    if (s.nnf f).1 = .falsum then .ok (none, (s.nnf f).2)
    else GateEncoding.pose (s.nnf f).2 (s.nnf f).1 >>= GateEncoding.answer (s.nnf f).2 f := by
  unfold oneSat GateEncoding.pose
  split_ifs with falsum verum
  · simp only [if_pos falsum]
    rfl
  · simp only [if_neg falsum, if_pos verum]
    rfl
  · simp only [if_neg falsum, if_neg verum, bind_assoc]
    rfl

theorem WellFormed.oneSat_answers (wf : s.WellFormed) (known : f ∈ s) :
    Strives (Hard (f, s)) (s.oneSat f) fun x => s.Answered f x.1 := by
  obtain ⟨grows, normal⟩ := wf.nnf_normal known
  have wf' := grows.wellFormed wf
  have later := grows.later wf
  have same (value : Var → Bool) : (s.nnf f).2.eval value (s.nnf f).1 = s.eval value f := by
    rw [normal.eval_eq, later.eval_eq known, beq_true]
  rw [oneSat_eq]
  split_ifs with falsum
  · refine .inl (.ok fun a => ?_)
    rw [evaluate, ← same, falsum, wf'.eval_falsum]
  refine (GateEncoding.pose_delivers wf' normal.mem normal.isNnf falsum).strives.bind ?_
  rintro e - ⟨Γ, poses⟩
  refine poses.solve.bind fun ⟨_, solver⟩ _ found => ?_
  simp only [same] at found ⊢
  split at found
  · exact .inl (.pure fun a => found a.holds)
  · rename_i model _
    simp only [later.vars_eq known]
    have values : ((s.vars f).map fun v => match e.vars[v]? with
        | some i => Lit.of v (model.getD i.id false)
        | none => Lit.of v false) = (s.vars f).map fun v => Lit.of v (e.read model v) := by
      refine List.map_congr_left fun v _ => ?_
      unfold GateEncoding.read
      split <;> rfl
    obtain ⟨vars, holds⟩ := Assignment.ofList_values (wf.ascending_vars known) (e.read model)
    refine .inl (.pure ?_)
    simp only [values]
    exact ⟨vars, (wf.eval_congr known holds).trans found⟩

theorem WellFormed.isSatisfiable_decides (wf : s.WellFormed) (known : f ∈ s) :
    Strives (Hard (f, s)) (s.isSatisfiable f) fun x =>
      x.1 = true ↔ ∃ a : Assignment, s.evaluate f a = true := by
  refine (wf.oneSat_answers known).bind fun ⟨answer, s'⟩ _ answered => .inl (.pure ?_)
  cases answer with
  | none =>
    refine ⟨nofun, fun ⟨a, true_⟩ => ?_⟩
    rw [answered a] at true_
    cases true_
  | some m => exact ⟨fun _ => ⟨m, answered.2⟩, fun _ => rfl⟩

theorem WellFormed.isTautology_decides (wf : s.WellFormed) (known : f ∈ s) :
    Strives (Hard (s.neg f)) (s.isTautology f) fun x =>
      x.1 = true ↔ ∀ a : Assignment, s.evaluate f a = true := by
  have builds := wf.neg_builds known
  refine ((builds.wellFormed wf).isSatisfiable_decides builds.mem).bind
    fun ⟨b, s'⟩ _ decides => .inl (.pure ?_)
  have complement (a : Assignment) : (s.neg f).2.evaluate (s.neg f).1 a = !s.evaluate f a :=
    builds.eval_eq a.holds
  simp only [complement] at decides
  cases b <;> simp_all

theorem Builds.isTautology_decides {r : Formula × Store} {meaning : (Var → Bool) → Bool} {scope : Var → Prop}
    (builds : Builds s r meaning scope) (wf : s.WellFormed) :
    Strives (Hard (r.2.neg r.1)) (r.2.isTautology r.1) fun x =>
      x.1 = true ↔ ∀ a : Assignment, meaning a.holds = true := by
  refine ((builds.wellFormed wf).isTautology_decides builds.mem).mono id fun x decides => ?_
  rw [decides]
  exact forall_congr' fun a => by rw [evaluate, builds.eval_eq]

/-- A satisfying assignment is found just if there is one. It fixes the variables of the formula and
no others. So validity, equivalence and entailment are decided. -/
theorem satisfiability_decided (leads : Leads initial s) (hf : f ∈ s) (hg : g ∈ s) :
    Strives (Hard (f, s)) (s.oneSat f) (fun x =>
        (x.1 = none ↔ ∀ a : Assignment, s.evaluate f a = false) ∧
          ∀ m, x.1 = some m → m.literals.map Lit.var = s.vars f ∧ s.evaluate f m = true) ∧
      Strives (Hard (s.neg f)) (s.isTautology f)
        (fun x => x.1 = true ↔ ∀ a : Assignment, s.evaluate f a = true) ∧
      Strives (Hard ((s.equiv f g).2.neg (s.equiv f g).1)) (s.isEquivalent f g)
        (fun x => x.1 = true ↔ ∀ a : Assignment, s.evaluate f a = s.evaluate g a) ∧
      Strives (Hard ((s.implies f g).2.neg (s.implies f g).1)) (s.entails f g)
        (fun x => x.1 = true ↔ ∀ a : Assignment, s.evaluate f a = true → s.evaluate g a = true) := by
  have wf := leads.wellFormed
  refine ⟨?_, wf.isTautology_decides hf, ?_, ?_⟩
  · refine (wf.oneSat_answers hf).mono id fun ⟨answer, s'⟩ answered => ?_
    cases answer with
    | none => exact ⟨⟨fun _ => answered, fun _ => rfl⟩, nofun⟩
    | some m =>
      refine ⟨⟨nofun, fun never => ?_⟩, fun m' same => Option.some.inj same ▸ answered⟩
      have := answered.2.symm.trans (never m)
      cases this
  · refine ((wf.equiv_builds hf hg).isTautology_decides wf).mono id fun x decides => ?_
    simp only [beq_iff_eq] at decides
    exact decides
  · refine ((wf.implies_builds hf hg).isTautology_decides wf).mono id fun x decides => ?_
    rw [decides]
    refine forall_congr' fun a => ?_
    rw [evaluate, evaluate]
    cases s.eval a.holds f <;> simp

/-- The negation of a conjunction of two clauses, and its negation normal form. The solver finds a model,
refutes that they differ and that the one holds without the other, and the first is not valid. -/
theorem satisfiability_decided_negation : ∃ s f g, Leads initial s ∧ f ∈ s ∧ g ∈ s ∧
    (∃ h, s.node f = .not h) ∧ (∃ h k, s.node g = .or [h, k]) ∧
      (∃ m s', s.oneSat f = .ok (some m, s') ∧ m.literals.map Lit.var = s.vars f ∧
        s.evaluate f m = true) ∧
      (∃ s', s.isTautology f = .ok (false, s') ∧ ¬ ∀ a : Assignment, s.evaluate f a = true) ∧
      (∃ s', s.isEquivalent f g = .ok (true, s') ∧
        ∀ a : Assignment, s.evaluate f a = s.evaluate g a) ∧
      ∃ s', s.entails f g = .ok (true, s') ∧
        ∀ a : Assignment, s.evaluate f a = true → s.evaluate g a = true := by
  let x := initial.conjClauses [[⟨0⟩, ⟨4⟩], [⟨2⟩, ⟨4⟩]]
  let y := x.2.neg x.1
  let z := y.2.nnf y.1
  have first : Builds initial x _ _ := initial_wellFormed.conjClauses_builds (by decide)
  have wf := first.wellFormed initial_wellFormed
  have second : Builds x.2 y _ _ := wf.neg_builds first.mem
  have wf' := second.wellFormed wf
  obtain ⟨grows, normal⟩ := wf'.nnf_normal second.mem
  have leads : Leads initial z.2 := ((first.grows.trans second.grows).trans grows).leads
  have known : y.1 ∈ z.2 := (grows.later wf').mem second.mem
  obtain ⟨satisfies, valid, equivalent, entails⟩ := satisfiability_decided leads known normal.mem
  have ran : Delivers (z.2.oneSat y.1) (fun x => x.1.isSome) ∧
      Delivers (z.2.isTautology y.1) (fun x => x.1 = false) ∧
        Delivers (z.2.isEquivalent y.1 z.1) (fun x => x.1 = true) ∧
          Delivers (z.2.entails y.1 z.1) fun x => x.1 = true := by decide +kernel
  obtain ⟨⟨⟨answer, s₁⟩, run₁, found⟩, ⟨⟨_, s₂⟩, run₂, rfl⟩, ⟨⟨_, s₃⟩, run₃, rfl⟩, ⟨_, s₄⟩, run₄, rfl⟩ := ran
  obtain ⟨m, rfl⟩ := Option.isSome_iff_exists.mp found
  refine ⟨z.2, y.1, z.1, leads, known, normal.mem, ⟨x.1, by decide +kernel⟩,
    ⟨⟨11⟩, ⟨13⟩, by decide +kernel⟩,
    ⟨m, s₁, run₁, (satisfies.answer run₁).2 m rfl⟩, ⟨s₂, run₂, fun always => ?_⟩,
    ⟨s₃, run₃, (equivalent.answer run₃).mp rfl⟩, s₄, run₄, (entails.answer run₄).mp rfl⟩
  exact absurd ((valid.answer run₂).mpr always) Bool.false_ne_true

end Store

end ModelCounting
