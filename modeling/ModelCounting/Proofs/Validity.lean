import ModelCounting.Proofs.Confinement
import ModelCounting.Proofs.Representation

/-!
What a compilation has to keep to for its results to be right. A key asks for the clauses that it has the
places of, in the variables that it has; the key of a subtree asks for what is left of the subtree. A call
is confined if the lessons that take part in its steps say nothing that what is left of its subtree does not
say, and if no literal is reported in it that had been reported before it began. The steps of a confined
call concern its subtree only.
-/

namespace ModelCounting

namespace Dtree

variable {t u : PlacedTree} {a : Var → Truth} {n : Nat} {key key' : IndexSet} {value : Var → Bool}

theorem Sited.inside (sited : t.Sited n) : ∀ l ∈ t.leaves, ∀ m ∈ l.lits, m.var.id < n := by
  induction t with
  | leaf l => exact fun l' same => List.mem_singleton.mp same ▸ sited.1
  | node d left right ihl ihr =>
    exact List.forall_mem_append.mpr ⟨ihl sited.1.1, ihr sited.1.2⟩

theorem Sited.undecided_lt (sited : t.Sited n) {i : Nat} (left : i ∈ t.undecidedVars a) : i < n := by
  obtain ⟨l, remains, m, free, rfl⟩ := left
  exact sited.inside l (List.mem_of_mem_filter remains) m (List.mem_of_mem_filter free)

/-- Each clause that the key has the place of holds by a literal of a variable that the key has. -/
def Asks (n : Nat) (t : PlacedTree) (key : IndexSet) (value : Var → Bool) : Prop :=
  ∀ l ∈ t.leaves, key.contains (n + l.source.id + 1) = true →
    ∃ m ∈ l.lits, key.contains m.var.id = true ∧ m.holds value = true

theorem Asks.congr (asks : Asks n t key value) (same : ∀ i, key'.contains i = key.contains i) :
    Asks n t key' value := by
  intro l leaf place
  obtain ⟨m, literal, listed, holds⟩ := asks l leaf ((same _).symm.trans place)
  exact ⟨m, literal, (same _).trans listed, holds⟩

/-- The key of a subtree asks for a solution of what is left of it. -/
theorem asks_key_iff (lists : ∀ v ∈ t.subtrees, v.Lists) (sited : t.Sited n) (below : u ∈ t.subtrees)
    (distinct : (t.leaves.map fun l => l.source.id).Nodup) :
    Asks n t (u.cacheKey (Lit.under a) n .empty) value ↔ Solves value (u.problem a) := by
  have blank : IndexSet.empty.isEmpty = true := IndexSet.isEmpty_iff.mpr IndexSet.contains_empty
  have within : ∀ l ∈ u.remaining a, l ∈ t.leaves := fun l remains =>
    (remaining_sublist below).subset remains
  have place {l : PlacedLeaf} (leaf : l ∈ t.leaves) :
      (u.cacheKey (Lit.under a) n .empty).contains (n + l.source.id + 1) = true ↔ l ∈ u.remaining a := by
    rw [(lists u below).contains_key_iff blank, or_iff_left fun left => by
      have := (sited.subtree below).undecided_lt left
      omega]
    constructor
    · rintro ⟨x, listed, same⟩
      obtain ⟨l', remains, rfl⟩ := List.mem_map.mp listed
      have same' : l'.source.id = l.source.id := by simpa [eq_comm] using same
      exact List.inj_on_of_nodup_map distinct (within l' remains) leaf same' ▸ remains
    · exact fun remains => ⟨_, List.mem_map_of_mem remains, rfl⟩
  have literal {l : PlacedLeaf} (remains : l ∈ u.remaining a) {m : Lit} (member : m ∈ l.lits) :
      (u.cacheKey (Lit.under a) n .empty).contains m.var.id = true ↔ a m.var = .undef := by
    rw [(lists u below).contains_var_iff blank (sited.inside l (within l remains) m member),
      mem_undecidedVars_of_remaining remains member]
  rw [solves_iff]
  constructor
  · intro asks l remains
    obtain ⟨m, member, listed, holds⟩ := asks l (within l remains) ((place (within l remains)).mpr remains)
    exact ⟨m, member, (literal remains member).mp listed, holds⟩
  · intro solves l leaf listed
    have remains := (place leaf).mp listed
    obtain ⟨m, member, free, holds⟩ := solves l remains
    exact ⟨m, member, (literal remains member).mpr free, holds⟩

end Dtree

namespace Stepper

variable {p q : Stepper} {t u : PlacedTree} {given : List Lit} {key key' : IndexSet} {s : Store} {f : Formula}

/-- The literals that a step puts on the trail without one of the clauses for a reason, the given ones
apart, follow from what is left of the subtree and are of variables left in it. -/
def LessonsFollow (t : PlacedTree) (given : List Lit) (p q : Stepper) : Prop :=
  ∀ l ∈ q.core.trail.lits, l ∉ p.core.trail.lits → l ∉ given →
    (∀ r ∈ q.core.added, q.core.trail.reason l.var ≠ some r) →
      l.var.id ∈ t.undecidedVars p.core.trail.valueVar ∧ ∀ value : Var → Bool,
        (∀ m ∈ given, m.holds value = true) → Dtree.Solves value (t.problem p.core.trail.valueVar) →
          l.holds value = true

theorem lessonsFollow_iff : LessonsFollow t given p q ↔ ∀ l ∈ q.core.trail.lits, l ∉ p.core.trail.lits →
    l ∉ given → (∀ r ∈ q.core.added, q.core.trail.reason l.var ≠ some r) →
      l.var.id ∈ t.undecidedVars p.core.trail.valueVar ∧
        Entails (given.map ([·]) ++ (t.problem p.core.trail.valueVar).map (·.2)) [l] := by
  have same (l : Lit) : Entails (given.map ([·]) ++ (t.problem p.core.trail.valueVar).map (·.2)) [l] ↔
      ∀ value : Var → Bool, (∀ m ∈ given, m.holds value = true) →
        Dtree.Solves value (t.problem p.core.trail.valueVar) → l.holds value = true := by
    simp only [Entails, Models, Dtree.Solves, List.forall_mem_append, List.forall_mem_map, holds_unit, and_imp]
  simp only [LessonsFollow, same]

instance : Decidable (LessonsFollow t given p q) := decidable_of_iff' _ lessonsFollow_iff

theorem Advances.concerns_of_follow (advances : p.Advances q) (stocks : Stocks t p)
    (detached : Dtree.Detached p.core.trail.valueVar t u)
    (granted : ∀ l ∈ given, l.var.id ∈ u.undecidedVars p.core.trail.valueVar)
    (follow : LessonsFollow u given p q) : Concerns u given p q :=
  advances.concerns stocks detached fun l member new seed => by
    by_cases own : l ∈ given
    · exact ⟨granted l own, fun value holds _ => holds l own⟩
    · exact follow l member new own seed

/-- A circuit over the variables that a key has, for what the key asks. -/
def Answers (p : Stepper) (t : PlacedTree) (key : IndexSet) (s : Store) (f : Formula) : Prop :=
  p.Represents {i | i < p.varCount ∧ key.contains i = true} (Dtree.Asks p.varCount t key) s f

theorem Answers.congr (answers : p.Answers t key s f) (same : ∀ i, key'.contains i = key.contains i) :
    p.Answers t key' s f :=
  answers.mono (fun i ⟨small, listed⟩ => ⟨small, same i ▸ listed⟩) fun _ =>
    ⟨fun asks => asks.congr same, fun asks => asks.congr fun i => (same i).symm⟩

def Expresses (p : Stepper) (t : PlacedTree) (a : Var → Truth) (ls : List Lit) (s : Store) (f : Formula) :
    Prop :=
  p.Represents (Lit.indices ls ∪ t.undecidedVars a)
    (fun value => (∀ l ∈ ls, l.holds value = true) ∧ Dtree.Solves value (t.problem a)) s f

theorem expresses_nil {a : Var → Truth} : p.Expresses t a [] s f ↔
    p.Represents (t.undecidedVars a) (fun value => Dtree.Solves value (t.problem a)) s f := by
  rw [Expresses, Lit.indices_nil, Set.empty_union]
  have same (value : Var → Bool) : ((∀ l ∈ ([] : List Lit), l.holds value = true) ∧
      Dtree.Solves value (t.problem a)) ↔ Dtree.Solves value (t.problem a) := and_iff_right nofun
  simp only [same]

end Stepper

/-! Calls. -/

namespace Compilation.Call

variable {Γ : List (List Lit)} {r a : Call} {c : Compilation} {v : Var} {phase : Bool} {q : Stepper}
  {s : Store} {f : Formula}

/-- The lessons that take part in the steps of a call say no more than what is left of its subtree, and a
literal that was there before is reported only by the call that found it unreported. -/
structure Confined (a : Call) : Prop where
  decisions : ∀ {v phase c q}, a.Branches v phase c → c.solver.decide v phase = .ok (true, q) →
    Stepper.LessonsFollow a.tree [.of v phase] c.solver q
  lessons : ∀ {c q}, a.Retries c → c.solver.assertLesson = .ok (true, q) →
    Stepper.LessonsFollow a.tree [] c.solver q
  reports : ∀ {c q}, a.Retries c → c.solver.assertLesson = .ok (true, q) →
    ∀ l ∈ q.consequences a.tree.vars, l ∈ a.state.solver.core.trail.lits →
      l ∈ a.state.solver.consequences a.tree.vars

theorem confined_iff : a.Confined ↔
    (∀ x ∈ a.branches, ∀ q ∈ agreed? (x.2.2.solver.decide x.1 x.2.1),
      Stepper.LessonsFollow a.tree [.of x.1 x.2.1] x.2.2.solver q) ∧
    ∀ c ∈ a.retries, ∀ q ∈ agreed? c.solver.assertLesson, Stepper.LessonsFollow a.tree [] c.solver q ∧
      ∀ l ∈ q.consequences a.tree.vars, l ∈ a.state.solver.core.trail.lits →
        l ∈ a.state.solver.consequences a.tree.vars := by
  simp only [mem_branches, mem_retries, Option.mem_def, agreed?_eq_some, Prod.forall]
  constructor
  · intro confined
    exact ⟨fun v phase c before q run => confined.decisions before run, fun c failed q run =>
      ⟨confined.lessons failed run, confined.reports failed run⟩⟩
  · rintro ⟨decisions, lessons⟩
    exact ⟨fun before run => decisions _ _ _ before _ run, fun failed run => (lessons _ failed _ run).1,
      fun failed run => (lessons _ failed _ run).2⟩

instance : Decidable a.Confined := decidable_of_iff' _ confined_iff

section Steps

variable (opens : r.Opens Γ) (path : Relation.ReflTransGen Makes r a) (confined : a.Confined)

include opens path confined

theorem Opens.decide_concerns (before : a.Branches v phase c)
    (run : c.solver.decide v phase = .ok (true, q)) :
    Stepper.Concerns a.tree [.of v phase] c.solver q := by
  obtain ⟨advances, stocks, detached, left⟩ := opens.branches path before run
  refine advances.concerns_of_follow stocks detached (fun l own => ?_) (confined.decisions before run)
  rwa [List.mem_singleton.mp own, Lit.var_of]

theorem Opens.assertLesson_concerns (failed : a.Retries c)
    (run : c.solver.assertLesson = .ok (true, q)) : Stepper.Concerns a.tree [] c.solver q := by
  obtain ⟨advances, stocks, detached⟩ := opens.retries path failed (Stepper.assertLesson_level run) run
  exact advances.concerns_of_follow stocks detached (fun l own => absurd own List.not_mem_nil)
    (confined.lessons failed run)

omit confined in
/-- Until a first lesson is asserted, calls are confined. -/
theorem Opens.confined_of_unlearnt
    (unlearnt : ∀ {v phase c q}, a.Branches v phase c → c.solver.decide v phase = .ok (true, q) →
      q.core.learnts = #[])
    (never : ∀ {c q}, a.Retries c → c.solver.assertLesson ≠ .ok (true, q)) : a.Confined where
  decisions before run l member new other seed := by
    obtain ⟨r, added, reason⟩ :=
      opens.decide_reason path before run (unlearnt before run) member new other
    exact absurd reason (seed r added)
  lessons failed run := absurd run (never failed)
  reports failed run := absurd run (never failed)

/-- What is left of the subtree under the decided literal is what is reported after the decision and what is
left then. -/
theorem Opens.decide_leaves (before : a.Branches v phase c) (run : c.solver.decide v phase = .ok (true, q)) :
    Lit.indices (q.consequences a.tree.vars) ∪ a.tree.undecidedVars q.core.trail.valueVar ⊆
        a.tree.undecidedVars c.solver.core.trail.valueVar \ {v.id} ∧
      ∀ value, value v = phase →
        (((∀ l ∈ q.consequences a.tree.vars, l.holds value = true) ∧
          Dtree.Solves value (a.tree.problem q.core.trail.valueVar)) ↔
            Dtree.Solves value (a.tree.problem c.solver.core.trail.valueVar)) := by
  have concerns := opens.decide_concerns path confined before run
  have reported (l : Lit) : l ∈ q.consequences a.tree.vars ↔ _ := opens.decide_reports path before run
  obtain ⟨safe, situated⟩ := opens.reaches path
  have sound := (before.rejoins situated.abides.sound).sound
  obtain ⟨admits, candidate, _⟩ := before.admits safe
  obtain ⟨_, _, _, decided⟩ := (admits.calm.decide candidate.inside candidate.free).answer run
  obtain ⟨sound', grows, _⟩ := sound.decide run
  have larger : Enlarges c.solver.core.trail.valueVar q.core.trail.valueVar :=
    grows.enlarges (sound.core.trail.openLevel sound.drained) sound'.core.trail
  constructor
  · rintro i (⟨l, member, rfl⟩ | left)
    · obtain ⟨member, new, other, _⟩ := (reported l).mp member
      exact ⟨concerns.inside l member new, fun same => other (Var.ext same)⟩
    · refine ⟨Dtree.undecidedVars_anti larger left, fun same => ?_⟩
      refine (sound'.core.trail.undef_iff v).mp ?_ _ decided (Lit.var_of _ _)
      exact (congrArg _ (Var.ext same.symm)).trans (Dtree.undefined_of_mem left)
  · intro value phased
    have granted : ∀ m ∈ [Lit.of v phase], m.holds value = true := by
      simpa [Lit.holds] using phased
    rw [← concerns.solves_iff sound.core.trail sound'.core.trail larger granted]
    refine and_congr_left fun _ => ⟨fun holds l member new => ?_, fun holds l member => ?_⟩
    · by_cases same : l.var = v
      · obtain rfl := sound'.core.trail.consistent member decided (same.trans (Lit.var_of _ _).symm)
        exact granted _ (List.mem_singleton_self _)
      · refine holds l ((reported l).mpr ⟨member, new, same, ?_⟩)
        exact safe.admits.sited.contains_undecided (concerns.inside l member new)
    · obtain ⟨member, new, _⟩ := (reported l).mp member
      exact holds l member new

/-- What a call had to report and what was left of its subtree is what there is to report once a lesson has
been asserted and what is left then. -/
theorem Opens.assertLesson_leaves (failed : a.Retries c) (run : c.solver.assertLesson = .ok (true, q)) :
    Lit.indices (q.consequences a.tree.vars) ∪ a.tree.undecidedVars q.core.trail.valueVar ⊆
        Lit.indices (a.state.solver.consequences a.tree.vars) ∪
          a.tree.undecidedVars a.state.solver.core.trail.valueVar ∧
      ∀ value, ((∀ l ∈ q.consequences a.tree.vars, l.holds value = true) ∧
          Dtree.Solves value (a.tree.problem q.core.trail.valueVar)) ↔
        (∀ l ∈ a.state.solver.consequences a.tree.vars, l.holds value = true) ∧
          Dtree.Solves value (a.tree.problem a.state.solver.core.trail.valueVar) := by
  have concerns := opens.assertLesson_concerns path confined failed run
  have reported (l : Lit) : l ∈ q.consequences a.tree.vars ↔ _ := opens.assertLesson_reports path failed run
  obtain ⟨safe, situated⟩ := opens.reaches path
  have rejoins := failed.rejoins situated.abides.sound
  have taught := rejoins.sound.assertLesson run
  have wf := rejoins.sound.core.trail
  have wf' := taught.sound.core.trail
  have larger := taught.grows.enlarges wf wf'
  have values : c.solver.core.trail.valueVar = a.state.solver.core.trail.valueVar :=
    Trail.valueVar_eq situated.abides.sound.core.trail.toFaithful wf.toFaithful rejoins.lits_eq
  have again (l : Lit) (member : l ∈ a.state.solver.consequences a.tree.vars) :
      l ∈ q.consequences a.tree.vars := by
    obtain ⟨recent, listed⟩ := Stepper.recent_of_consequences member
    exact (reported l).mpr ⟨.inl recent, listed⟩
  have either (l : Lit) (member : l ∈ q.consequences a.tree.vars) :
      l ∈ a.state.solver.consequences a.tree.vars ∨
        (l ∈ q.core.trail.lits ∧ l ∉ c.solver.core.trail.lits) := by
    by_cases old : l ∈ a.state.solver.core.trail.lits
    · exact .inl (confined.reports failed run l member old)
    · have on : l ∈ q.core.trail.lits :=
        Array.mem_toList_iff.mp (Stepper.consequences_sublist.subset member)
      exact .inr ⟨on, rejoins.lits_eq ▸ old⟩
  rw [← values]
  constructor
  · rintro i (⟨l, member, rfl⟩ | left)
    · exact (either l member).imp (fun old => ⟨l, old, rfl⟩) fun ⟨member, new⟩ => concerns.inside l member new
    · exact .inr (Dtree.undecidedVars_anti larger left)
  · intro value
    rw [← concerns.solves_iff wf wf' larger (fun m own => absurd own List.not_mem_nil), ← and_assoc]
    refine and_congr_left fun _ => ⟨fun holds => ?_, fun ⟨old, new⟩ l member => ?_⟩
    · refine ⟨fun l member => holds l (again l member), fun l member new => holds l ((reported l).mpr ?_)⟩
      exact ⟨.inr ⟨member, new⟩, safe.admits.sited.contains_undecided (concerns.inside l member new)⟩
    · exact (either l member).elim (old l) fun ⟨member, fresh⟩ => new l member fresh

end Steps

/-- With nothing to report, a circuit for a subtree answers for its key. -/
theorem Opens.expresses_iff (opens : r.Opens Γ) {t : PlacedTree} (below : t ∈ r.tree.subtrees)
    {a : Var → Truth} : r.state.solver.Expresses t a [] s f ↔
      r.state.solver.Answers r.tree (t.cacheKey (Lit.under a) r.state.solver.varCount .empty) s f := by
  have sited : r.tree.Sited r.state.solver.varCount := by
    rw [Stepper.varCount, ← opens.safe.admits.calm.count]
    exact opens.safe.admits.sited
  have blank : IndexSet.empty.isEmpty = true := IndexSet.isEmpty_iff.mpr IndexSet.contains_empty
  have among : t.undecidedVars a = {i | i < r.state.solver.varCount ∧
      (t.cacheKey (Lit.under a) r.state.solver.varCount .empty).contains i = true} := by
    ext i
    constructor
    · intro left
      have small := (sited.subtree below).undecided_lt left
      exact ⟨small, ((opens.lists t below).contains_var_iff blank small).mpr left⟩
    · rintro ⟨small, listed⟩
      exact ((opens.lists t below).contains_var_iff blank small).mp listed
  rw [Stepper.expresses_nil, Stepper.Answers, among]
  have same (value : Var → Bool) : Dtree.Asks r.state.solver.varCount r.tree
      (t.cacheKey (Lit.under a) r.state.solver.varCount .empty) value ↔ Dtree.Solves value (t.problem a) :=
    Dtree.asks_key_iff opens.lists sited below opens.distinct
  exact ⟨fun expresses => expresses.mono Set.Subset.rfl fun value => (same value).symm,
    fun answers => answers.mono Set.Subset.rfl same⟩

end Compilation.Call

end ModelCounting
