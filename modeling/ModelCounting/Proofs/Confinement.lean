import ModelCounting.Proofs.Opening

/-!
What the steps of a compilation keep to. The parts that a node is split into are detached: no clause left
elsewhere in the tree has a variable that is left in the part, and that stays so while more is assigned.
Propagation through the clauses does not leave a detached subtree, and what it adds follows from what is
left there. A literal of another subtree comes in by a lesson only.
-/

namespace ModelCounting

namespace Stepper

variable {p q : Stepper} {t u : PlacedTree} {l m : Lit} {r : ClauseRef} {given : List Lit}

/-- A step of a solver that had nothing left to propagate. -/
structure Advances (p q : Stepper) : Prop where
  before : p.core.engine.WellFormed p.core.Live
  closed : p.core.engine.Closed p.core.Live
  after : q.core.engine.WellFormed q.core.Live
  spares : p.Spares q
  keeps : ∀ l ∈ p.core.trail.lits, l ∈ q.core.trail.lits

namespace Advances

theorem fresh (advances : p.Advances q) (member : l ∈ q.core.trail.lits) (new : l ∉ p.core.trail.lits) :
    p.core.trail.valueVar l.var = .undef := by
  by_contra assigned
  obtain ⟨m, old, same⟩ := advances.before.trail.exists_mem assigned
  exact new (advances.after.trail.consistent (advances.keeps m old) member same ▸ old)

theorem clash (advances : p.Advances q) (member : l ∈ q.core.trail.lits) : -l ∉ q.core.trail.lits := by
  intro opposite
  have true_ := (advances.after.trail.true_iff l).mpr member
  have false_ := (advances.after.trail.false_iff l).mpr opposite
  rw [true_] at false_
  cases false_

variable (advances : p.Advances q) (stocks : Stocks t p)
  (detached : Dtree.Detached p.core.trail.valueVar t u)

include advances stocks detached

/-- A new literal that has one of the clauses for a reason, and comes after new literals of the subtree
only, is implied by a clause left in the subtree. -/
theorem exists_clause {i : Nat} (here : q.core.trail.lits[i]? = some l) (new : l ∉ p.core.trail.lits)
    (added : r ∈ q.core.added) (reason : q.core.trail.reason l.var = some r)
    (inside : ∀ j < i, ∀ m, q.core.trail.lits[j]? = some m → m ∉ p.core.trail.lits →
      m.var.id ∈ u.undecidedVars p.core.trail.valueVar) :
    ∃ c ∈ u.remaining p.core.trail.valueVar, l ∈ c.undecided p.core.trail.valueVar ∧
      ∀ m ∈ c.undecided p.core.trail.valueVar, m ≠ l →
        ∃ j < i, q.core.trail.lits[j]? = some (-m) ∧ -m ∉ p.core.trail.lits := by
  obtain ⟨r', same, alive, member, others⟩ :=
    advances.after.justified here (by rw [show q.core.engine.trail.reason l.var = _ from reason]; simp)
  obtain rfl : r = r' := Option.some.inj (reason.symm.trans same)
  have member' : l ∈ q.core.trail.lits := Array.mem_of_getElem? here
  have free := advances.fresh member' new
  have added' : r ∈ p.core.added := advances.spares.added_eq ▸ added
  obtain ⟨slot, c, leaf, within, rest⟩ := stocks r added'
  have perm := advances.spares.core.perm r slot
  -- The literals of the clause that are not in store are false before.
  have stored (m : Lit) (literal : m ∈ c.lits) (unassigned : p.core.trail.valueVar m.var = .undef) :
      m ∈ q.core.engine.bank.lits r := by
    refine perm.mem_iff.mpr ((rest m literal).resolve_right fun ⟨fixed, _⟩ => ?_)
    exact (advances.before.trail.undef_iff m.var).mp unassigned (-m) fixed (Lit.var_neg m)
  have before (m : Lit) (literal : m ∈ c.lits) (unassigned : p.core.trail.valueVar m.var = .undef)
      (other : m ≠ l) : ∃ j < i, q.core.trail.lits[j]? = some (-m) ∧ -m ∉ p.core.trail.lits := by
    obtain ⟨_, j, less, there⟩ := others m (stored m literal unassigned) other
    exact ⟨j, less, there, fun old =>
      (advances.before.trail.undef_iff m.var).mp unassigned (-m) old (Lit.var_neg m)⟩
  have remains : c ∈ t.remaining p.core.trail.valueVar := by
    refine List.mem_filter.mpr ⟨leaf, decide_eq_true fun m literal true_ => ?_⟩
    have on : m ∈ p.core.trail.lits := (Trail.under_tru_iff advances.before.trail.toFaithful).mp true_
    rcases rest m literal with inner | ⟨fixed, _⟩
    · by_cases same : m = l
      · exact new (same ▸ on)
      · obtain ⟨_, j, _, there⟩ := others m (perm.mem_iff.mpr inner) same
        exact advances.clash (advances.keeps m on) (Array.mem_of_getElem? there)
    · exact advances.clash (advances.keeps m on) (advances.keeps (-m) fixed)
  have undecided (m : Lit) (literal : m ∈ c.lits) (unassigned : p.core.trail.valueVar m.var = .undef) :
      m ∈ c.undecided p.core.trail.valueVar :=
    List.mem_filter.mpr ⟨literal, decide_eq_true unassigned⟩
  -- Another literal of the clause is new, or else the clause would have been unit before.
  obtain ⟨m, inner, other, unfalsified⟩ : ∃ m ∈ p.core.engine.bank.lits r, m ≠ l ∧
      p.core.engine.trail.value m ≠ .fls := by
    by_contra none
    push Not at none
    have assigned := advances.closed.unit r (.inl added') l (perm.mem_iff.mp member) none
    exact assigned ((Trail.value_of_var _ _).mpr free)
  obtain ⟨_, j, less, there⟩ := others m (perm.mem_iff.mpr inner) other
  have new' : -m ∉ p.core.trail.lits := fun old =>
    unfalsified ((advances.before.trail.false_iff m).mpr old)
  have free' := advances.fresh (Array.mem_of_getElem? there) new'
  rw [Lit.var_neg] at free'
  have left := inside j less (-m) there new'
  rw [Lit.var_neg] at left
  refine ⟨c, detached.remaining remains (undecided m (within m inner) free') left,
    undecided l (within l (perm.mem_iff.mp member)) free, fun k unassigned different => ?_⟩
  obtain ⟨literal, unassigned⟩ := List.mem_filter.mp unassigned
  exact before k literal (of_decide_eq_true unassigned) different

theorem inside (seeds : ∀ l ∈ q.core.trail.lits, l ∉ p.core.trail.lits →
      (∀ r ∈ q.core.added, q.core.trail.reason l.var ≠ some r) →
        l.var.id ∈ u.undecidedVars p.core.trail.valueVar) :
    ∀ l ∈ q.core.trail.lits, l ∉ p.core.trail.lits → l.var.id ∈ u.undecidedVars p.core.trail.valueVar := by
  have each (i : Nat) : ∀ l, q.core.trail.lits[i]? = some l → l ∉ p.core.trail.lits →
      l.var.id ∈ u.undecidedVars p.core.trail.valueVar := by
    induction i using Nat.strongRecOn with
    | ind i ih =>
      intro l here new
      by_cases seed : ∀ r ∈ q.core.added, q.core.trail.reason l.var ≠ some r
      · exact seeds l (Array.mem_of_getElem? here) new seed
      · push Not at seed
        obtain ⟨r, added, reason⟩ := seed
        obtain ⟨c, remains, free, _⟩ := advances.exists_clause stocks detached here new added reason ih
        exact ⟨c, remains, l, free, rfl⟩
  intro l member new
  obtain ⟨i, here⟩ := Array.mem_iff_getElem?.mp member
  exact each i l here new

/-- What a step adds to a detached subtree follows from what is left there, if those of its literals do that
have none of the clauses for a reason. -/
theorem concerns (seeds : ∀ l ∈ q.core.trail.lits, l ∉ p.core.trail.lits →
      (∀ r ∈ q.core.added, q.core.trail.reason l.var ≠ some r) →
        l.var.id ∈ u.undecidedVars p.core.trail.valueVar ∧ ∀ value,
          (∀ m ∈ given, m.holds value = true) → Dtree.Solves value (u.problem p.core.trail.valueVar) →
            l.holds value = true) : Concerns u given p q := by
  have inside := advances.inside stocks detached fun l member new seed => (seeds l member new seed).1
  refine ⟨inside, fun l member new value granted solves => ?_⟩
  have each (i : Nat) : ∀ l, q.core.trail.lits[i]? = some l → l ∉ p.core.trail.lits →
      l.holds value = true := by
    induction i using Nat.strongRecOn with
    | ind i ih =>
      intro l here new
      by_cases seed : ∀ r ∈ q.core.added, q.core.trail.reason l.var ≠ some r
      · exact (seeds l (Array.mem_of_getElem? here) new seed).2 value granted solves
      · push Not at seed
        obtain ⟨r, added, reason⟩ := seed
        obtain ⟨c, remains, _, others⟩ := advances.exists_clause stocks detached here new added reason
          fun j _ m there new' => inside m (Array.mem_of_getElem? there) new'
        obtain ⟨m, literal, unassigned, holds⟩ := Dtree.solves_iff.mp solves c remains
        by_cases same : m = l
        · exact same ▸ holds
        · obtain ⟨j, less, there, new'⟩ :=
            others m (List.mem_filter.mpr ⟨literal, decide_eq_true unassigned⟩) same
          have opposite := ih j less (-m) there new'
          rw [Store.holds_neg, holds] at opposite
          cases opposite
  obtain ⟨i, here⟩ := Array.mem_iff_getElem?.mp member
  exact each i l here new

end Advances

/-- What a step puts on the trail, the given literals apart, stays in a subtree, where it is reported, and
what is left of other subtrees is left as it was. -/
structure KeepsTo (t : PlacedTree) (given : List Lit) (p q : Stepper) : Prop where
  inside : ∀ l ∈ q.core.trail.lits, l ∉ p.core.trail.lits →
    l.var.id ∈ t.undecidedVars p.core.trail.valueVar
  listed : ∀ l ∈ q.core.trail.lits, l ∉ p.core.trail.lits → t.vars.contains l.var.id = true
  reported : ∀ l ∈ q.core.trail.lits, l ∉ p.core.trail.lits → l ∉ given → l ∈ q.consequences t.vars
  elsewhere : ∀ u : PlacedTree, (∀ i ∈ u.undecidedVars p.core.trail.valueVar,
    i ∉ t.undecidedVars p.core.trail.valueVar) →
      u.problem q.core.trail.valueVar = u.problem p.core.trail.valueVar

/-- The literals that a step puts on the trail without one of the clauses for a reason, the given ones
apart, are of variables left in the subtree. -/
def LessonsKeepTo (t : PlacedTree) (given : List Lit) (p q : Stepper) : Prop :=
  ∀ l ∈ q.core.trail.lits, l ∉ p.core.trail.lits → l ∉ given →
    (∀ r ∈ q.core.added, q.core.trail.reason l.var ≠ some r) →
      l.var.id ∈ t.undecidedVars p.core.trail.valueVar

instance : Decidable (LessonsKeepTo t given p q) :=
  inferInstanceAs (Decidable (∀ l ∈ q.core.trail.lits, l ∉ p.core.trail.lits → l ∉ given →
    (∀ r ∈ q.core.added, q.core.trail.reason l.var ≠ some r) →
      l.var.id ∈ t.undecidedVars p.core.trail.valueVar))

theorem Advances.keepsTo {n : Nat} (advances : p.Advances q) (stocks : Stocks t p)
    (detached : Dtree.Detached p.core.trail.valueVar t u) (sited : u.Sited n)
    (larger : Enlarges p.core.trail.valueVar q.core.trail.valueVar)
    (granted : ∀ l ∈ given, l.var.id ∈ u.undecidedVars p.core.trail.valueVar)
    (reported : ∀ l ∈ q.core.trail.lits, l ∉ p.core.trail.lits → l ∉ given →
      u.vars.contains l.var.id = true → l ∈ q.consequences u.vars)
    (lessons : LessonsKeepTo u given p q) : KeepsTo u given p q := by
  have inside := advances.inside stocks detached fun l member new seed => by
    by_cases own : l ∈ given
    · exact granted l own
    · exact lessons l member new own seed
  have listed (l : Lit) (member : l ∈ q.core.trail.lits) (new : l ∉ p.core.trail.lits) :
      u.vars.contains l.var.id = true := sited.contains_undecided (inside l member new)
  refine ⟨inside, listed, fun l member new other => reported l member new other (listed l member new),
    fun u' apart => Dtree.problem_apart larger fun v left => ?_⟩
  by_contra assigned
  obtain ⟨l, member, rfl⟩ := advances.after.trail.exists_mem assigned
  refine apart _ left (inside l member fun old => ?_)
  exact (advances.before.trail.undef_iff l.var).mp (Dtree.undefined_of_mem left) l old rfl

/-! The steps of a driven solver. -/

variable {Γ : List (List Lit)} {v : Var} {phase b : Bool}

theorem Fit.closed (fit : p.Fit Γ) (drawn : Engine.Drawn p.core.Live p.core.engine p.core.trail.head) :
    p.core.engine.Closed p.core.Live :=
  fit.core.engine.closed (fit.drained ▸ drawn)

theorem Calm.decide_advances (calm : p.Calm Γ) (sound : p.Sound) (inside : v.id < p.core.varCount)
    (unassigned : p.core.trail.valueVar v = .undef) (run : p.decide v phase = .ok (b, q)) :
    p.Advances q where
  before := calm.core.engine
  closed := calm.closed calm.drawn
  after := (calm.decide_decides inside unassigned run).keeps.knows.engine
  spares := (sound.decide run).2.2
  keeps _ member := (sound.decide run).2.1.mem member

theorem Recovered.assertLesson_advances (recovered : p.Recovered Γ) (sound : p.Sound)
    (level : p.atAssertionLevel = true) (run : p.assertLesson = .ok (b, q)) : p.Advances q where
  before := recovered.core.engine
  closed := recovered.closed recovered.drawn
  after := by
    obtain ⟨_, _, _, _, settles⟩ := recovered.assertLesson_settles level run
    exact settles.keeps.knows.engine
  spares := (sound.assertLesson run).spares
  keeps _ member := (sound.assertLesson run).grows.mem member

end Stepper

/-! Calls. -/

namespace Compilation

variable {Γ : List (List Lit)} {c c' : Compilation} {t left right : PlacedTree} {d : PlacedInner}
  {v : Var} {phase : Bool} {implied : Formula}

theorem enter_separator (lists : ∀ u ∈ t.subtrees, u.Lists) (run : c.enter t = .ok (implied, c'))
    (i : Nat) : c'.separator.contains i = true ↔ i ∈ t.sharedVars c.solver.core.trail.valueVar := by
  rw [(enter_beside run).2.2]
  exact Dtree.Lists.contains_dynamicSeparator_iff lists

theorem enter_apart_iff (lists : ∀ u ∈ t.subtrees, u.Lists) (run : c.enter t = .ok (implied, c')) :
    c'.separator.isEmpty = true ↔ ∀ i, i ∉ t.sharedVars c.solver.core.trail.valueVar := by
  rw [IndexSet.isEmpty_iff]
  refine forall_congr' fun i => ?_
  rw [← enter_separator lists run, Bool.not_eq_true]

namespace Call

variable {r a b : Call}

theorem Branches.shared (before : a.Branches v phase c) (safe : a.Safe Γ)
    (lists : ∀ u ∈ a.tree.subtrees, u.Lists) :
    v.id ∈ a.tree.sharedVars a.state.solver.core.trail.valueVar := by
  induction before with
  | positive enter shared choice _ =>
    obtain ⟨entered, _⟩ := safe.admits.enter.answer enter
    exact (enter_separator lists enter _).mp ((entered.chooses_shared shared).answer choice)
  | negative _ _ _ ih => exact ih safe lists

theorem Parts.detached {whole : PlacedTree} (parts : a.Parts t c)
    (lists : ∀ u ∈ a.tree.subtrees, u.Lists)
    (detached : Dtree.Detached a.state.solver.core.trail.valueVar whole a.tree) :
    t ∈ a.tree.subtrees ∧ Dtree.Detached a.state.solver.core.trail.valueVar whole t := by
  cases parts with
  | left enter apart _ =>
    refine ⟨?_, (detached.parts ((enter_apart_iff lists enter).mp apart)).1⟩
    simp [Dtree.subtrees, Dtree.self_subtree]
  | right enter apart _ _ _ =>
    refine ⟨?_, (detached.parts ((enter_apart_iff lists enter).mp apart)).2⟩
    simp [Dtree.subtrees, Dtree.self_subtree]

/-- Where a call stands below the first one: its tree is detached there, and each level that is open
begins with its decision. -/
structure Situated (r a : Call) : Prop where
  below : a.tree ∈ r.tree.subtrees
  abides : r.state.solver.Abides a.state.solver
  detached : Dtree.Detached a.state.solver.core.trail.valueVar r.tree a.tree
  decided : ∀ n ∈ a.state.solver.core.trail.starts, n < a.state.solver.core.trail.lits.size

theorem Opens.situated (opens : r.Opens Γ) : r.Situated r where
  below := Dtree.self_subtree _
  abides := .refl opens.sound
  detached := .self _ _
  decided n member := by
    have none : r.state.solver.core.trail.starts = #[] := Array.eq_empty_of_size_eq_zero opens.root
    simp [none] at member

theorem Situated.lists (situated : r.Situated a) (lists : ∀ u ∈ r.tree.subtrees, u.Lists) :
    ∀ u ∈ a.tree.subtrees, u.Lists :=
  fun u lower => lists u (Dtree.subtrees_trans situated.below lower)

theorem Situated.continues {p : Stepper} (situated : r.Situated a)
    (continues : a.state.solver.Continues p) :
    r.state.solver.Abides p ∧ Dtree.Detached p.core.trail.valueVar r.tree a.tree ∧
      ∀ n ∈ p.core.trail.starts, n < p.core.trail.lits.size := by
  have wf := situated.abides.sound.core.trail
  have grows := continues.grows
  refine ⟨situated.abides.trans continues.abides,
    situated.detached.enlarged (grows.enlarges wf continues.sound.core.trail), fun n member => ?_⟩
  exact Nat.lt_of_lt_of_le (situated.decided n (grows.starts_eq ▸ member)) grows.size_le

/-- The calls that a call makes stand below it. -/
theorem Situated.makes (situated : r.Situated a) (lists : ∀ u ∈ r.tree.subtrees, u.Lists)
    (safe : a.Safe Γ) (makes : a.Makes b) : r.Situated b := by
  have sound := situated.abides.sound
  cases makes with
  | branch before decide =>
    have rejoins := before.rejoins sound
    obtain ⟨abides, detached, _⟩ := situated.continues rejoins.toContinues
    obtain ⟨sound', grows, _⟩ := rejoins.sound.decide decide
    obtain ⟨admits, candidate, _⟩ := before.admits safe
    have decides := admits.calm.decide_decides candidate.inside candidate.free decide
    have opened := rejoins.sound.core.trail.openLevel rejoins.sound.drained
    refine ⟨situated.below, abides.trans (rejoins.sound.decide_abides decide),
      detached.enlarged (grows.enlarges opened sound'.core.trail), fun n member => ?_⟩
    -- The decision stands behind all that was assigned before.
    obtain ⟨implied, lits⟩ := decides.lits_eq
    have size := congrArg List.length lits
    rw [List.length_append, Array.length_toList, Array.length_toList, List.length_cons] at size
    have earlier := (situated.continues rejoins.toContinues).2.2
    rw [decides.starts_eq, Array.mem_push] at member
    rcases member with old | rfl
    · have := earlier n old
      simp only at *
      omega
    · simp only at *
      omega
  | again failed level learn =>
    have rejoins := failed.rejoins sound
    have taught := rejoins.sound.assertLesson learn
    obtain ⟨abides, detached, decided⟩ := situated.continues (rejoins.toContinues.trans taught)
    exact ⟨situated.below, abides, detached, decided⟩
  | part before missing =>
    have continues := before.continues sound
    obtain ⟨abides, _, decided⟩ := situated.continues continues
    obtain ⟨lower, detached⟩ := before.detached (situated.lists lists) situated.detached
    have larger := continues.grows.enlarges sound.core.trail continues.sound.core.trail
    exact ⟨Dtree.subtrees_trans situated.below lower, abides, detached.enlarged larger, decided⟩

theorem Opens.reaches (opens : r.Opens Γ) (path : Relation.ReflTransGen Makes r a) :
    a.Safe Γ ∧ r.Situated a := by
  induction path with
  | refl => exact ⟨opens.safe, opens.situated⟩
  | tail _ makes ih => exact ⟨makes.safe ih.1, ih.2.makes opens.lists ih.1 makes⟩

section Steps

variable {q : Stepper} {given : List Lit} (opens : r.Opens Γ)
  (path : Relation.ReflTransGen Makes r a)

include opens path

theorem Opens.branches (before : a.Branches v phase c) (run : c.solver.decide v phase = .ok (true, q)) :
    c.solver.Advances q ∧ Stepper.Stocks r.tree c.solver ∧
      Dtree.Detached c.solver.core.trail.valueVar r.tree a.tree ∧
        v.id ∈ a.tree.undecidedVars c.solver.core.trail.valueVar := by
  obtain ⟨safe, situated⟩ := opens.reaches path
  have rejoins := before.rejoins situated.abides.sound
  obtain ⟨abides, detached, _⟩ := situated.continues rejoins.toContinues
  obtain ⟨admits, candidate, _⟩ := before.admits safe
  refine ⟨admits.calm.decide_advances rejoins.sound candidate.inside candidate.free run,
    opens.stocks.abides abides, detached, ?_⟩
  have same := Trail.valueVar_eq situated.abides.sound.core.trail.toFaithful
    rejoins.sound.core.trail.toFaithful rejoins.lits_eq
  rw [same]
  exact Dtree.sharedVars_sub (before.shared safe (situated.lists opens.lists))

theorem Opens.retries (failed : a.Retries c) (level : c.solver.atAssertionLevel = true)
    (run : c.solver.assertLesson = .ok (true, q)) :
    c.solver.Advances q ∧ Stepper.Stocks r.tree c.solver ∧
      Dtree.Detached c.solver.core.trail.valueVar r.tree a.tree := by
  obtain ⟨safe, situated⟩ := opens.reaches path
  have rejoins := failed.rejoins situated.abides.sound
  obtain ⟨abides, detached, _⟩ := situated.continues rejoins.toContinues
  obtain ⟨_, _, _, closes⟩ := failed.closes safe
  exact ⟨closes.recovered.assertLesson_advances rejoins.sound level run, opens.stocks.abides abides, detached⟩

theorem Opens.decide_reports (before : a.Branches v phase c) (run : c.solver.decide v phase = .ok (true, q))
    {known : IndexSet} {l : Lit} : l ∈ q.consequences known ↔ l ∈ q.core.trail.lits ∧
      l ∉ c.solver.core.trail.lits ∧ l.var ≠ v ∧ known.contains l.var.id = true := by
  obtain ⟨safe, situated⟩ := opens.reaches path
  have sound := (before.rejoins situated.abides.sound).sound
  obtain ⟨admits, candidate, _⟩ := before.admits safe
  have decides := admits.calm.decide_decides candidate.inside candidate.free run
  rw [decides.mem_consequences_iff (sound.decide run).1.core.trail, Lit.var_of]

theorem Opens.assertLesson_reports (failed : a.Retries c) (run : c.solver.assertLesson = .ok (true, q))
    {known : IndexSet} {l : Lit} : l ∈ q.consequences known ↔
      (l ∈ a.state.solver.recent ∨ l ∈ q.core.trail.lits ∧ l ∉ c.solver.core.trail.lits) ∧
        known.contains l.var.id = true := by
  obtain ⟨safe, situated⟩ := opens.reaches path
  have rejoins := failed.rejoins situated.abides.sound
  obtain ⟨_, _, decided⟩ := situated.continues rejoins.toContinues
  obtain ⟨_, _, _, closes⟩ := failed.closes safe
  obtain ⟨_, unreported, _, _, settles⟩ :=
    closes.recovered.assertLesson_settles (Stepper.assertLesson_level run) run
  have taught := rejoins.sound.assertLesson run
  have recent : c.solver.recent = a.state.solver.recent := by
    rw [Stepper.recent, Stepper.recent, rejoins.lits_eq, rejoins.grows.starts_eq]
  rw [Stepper.mem_consequences_grown taught.grows rejoins.sound.core.trail taught.sound.core.trail decided
    (settles.unreported.trans unreported), recent]

theorem Opens.decide_keepsTo (before : a.Branches v phase c)
    (run : c.solver.decide v phase = .ok (true, q))
    (lessons : Stepper.LessonsKeepTo a.tree [.of v phase] c.solver q) :
    Stepper.KeepsTo a.tree [.of v phase] c.solver q := by
  obtain ⟨advances, stocks, detached, left⟩ := opens.branches path before run
  obtain ⟨safe, situated⟩ := opens.reaches path
  have sound := (before.rejoins situated.abides.sound).sound
  obtain ⟨sound', grows, _⟩ := sound.decide run
  refine advances.keepsTo stocks detached safe.admits.sited
    (grows.enlarges (sound.core.trail.openLevel sound.drained) sound'.core.trail) ?_ ?_ lessons
  · intro l own
    rw [List.mem_singleton.mp own, Lit.var_of]
    exact left
  · intro l member new other listed
    obtain ⟨admits, candidate, _⟩ := before.admits safe
    obtain ⟨_, _, _, decided⟩ := (admits.calm.decide candidate.inside candidate.free).answer run
    refine (opens.decide_reports path before run).mpr ⟨member, new, fun same => ?_, listed⟩
    obtain rfl := sound'.core.trail.consistent member decided (same.trans (Lit.var_of _ _).symm)
    exact other (List.mem_singleton_self _)

theorem Opens.decide_reason (before : a.Branches v phase c) (run : c.solver.decide v phase = .ok (true, q))
    (unlearnt : q.core.learnts = #[]) {l : Lit} (member : l ∈ q.core.trail.lits)
    (new : l ∉ c.solver.core.trail.lits) (other : l ∉ [Lit.of v phase]) :
    ∃ r ∈ q.core.added, q.core.trail.reason l.var = some r := by
  obtain ⟨advances, _⟩ := opens.branches path before run
  obtain ⟨admits, candidate, _⟩ := before.admits (opens.reaches path).1
  have decides := admits.calm.decide_decides candidate.inside candidate.free run
  have implied := ((decides.implied l member).resolve_left new).resolve_left fun same =>
    other (List.mem_singleton.mpr same)
  obtain ⟨i, here⟩ := Array.mem_iff_getElem?.mp member
  obtain ⟨r, reason, live, _⟩ := advances.after.justified here implied
  rcases live with added | learnt
  · exact ⟨r, added, reason⟩
  · simp [unlearnt] at learnt

theorem Opens.decide_unlearnt (before : a.Branches v phase c)
    (run : c.solver.decide v phase = .ok (true, q)) (unlearnt : q.core.learnts = #[]) :
    Stepper.LessonsKeepTo a.tree [.of v phase] c.solver q := by
  intro l member new other seed
  obtain ⟨r, added, reason⟩ := opens.decide_reason path before run unlearnt member new other
  exact absurd reason (seed r added)

theorem Opens.assertLesson_keepsTo (failed : a.Retries c)
    (run : c.solver.assertLesson = .ok (true, q))
    (lessons : Stepper.LessonsKeepTo a.tree [] c.solver q) :
    Stepper.KeepsTo a.tree [] c.solver q := by
  obtain ⟨advances, stocks, detached⟩ := opens.retries path failed (Stepper.assertLesson_level run) run
  obtain ⟨safe, situated⟩ := opens.reaches path
  have sound := (failed.rejoins situated.abides.sound).sound
  have taught := sound.assertLesson run
  refine advances.keepsTo stocks detached safe.admits.sited
    (taught.grows.enlarges sound.core.trail taught.sound.core.trail)
    (fun l own => absurd own List.not_mem_nil) (fun l member new _ listed => ?_) lessons
  exact (opens.assertLesson_reports path failed run).mpr ⟨.inr ⟨member, new⟩, listed⟩

end Steps

end Call

end Compilation

namespace Compiler

open Compilation

variable {m : Compiler} {s s' : Store} {f : Formula} {settings : Settings} {handler : Handler} {a : Call}

/-- In every compilation of prepared clauses a decision or a lesson that goes through keeps to the tree of
the call that makes it, as long as the lessons do: no literal that is implied by one of the clauses leaves
it. Until something is learnt, all decisions do. -/
theorem Calls.steps_keepTo (reachable : s.Reachable) (known : f ∈ s)
    (prepared : prepare s f settings = .ok (m, s')) (calls : m.Calls s' handler a) :
    (∀ v phase c q, a.Branches v phase c → c.solver.decide v phase = .ok (true, q) →
      Stepper.LessonsKeepTo a.tree [.of v phase] c.solver q →
        Stepper.KeepsTo a.tree [.of v phase] c.solver q) ∧
    (∀ v phase c q, a.Branches v phase c → c.solver.decide v phase = .ok (true, q) →
      q.core.learnts = #[] → Stepper.KeepsTo a.tree [.of v phase] c.solver q) ∧
    ∀ c q, a.Retries c → c.solver.assertLesson = .ok (true, q) →
      Stepper.LessonsKeepTo a.tree [] c.solver q → Stepper.KeepsTo a.tree [] c.solver q := by
  obtain ⟨p, d, e, t, start, tree, place, path⟩ := calls.path
  obtain ⟨Γ, _, opens⟩ := exists_opens reachable.wellFormed known prepared start tree place handler
  refine ⟨fun v phase c q before run lessons => opens.decide_keepsTo path before run lessons,
    fun v phase c q before run unlearnt => ?_,
    fun c q failed run lessons => opens.assertLesson_keepsTo path failed run lessons⟩
  exact opens.decide_keepsTo path before run (opens.decide_unlearnt path before run unlearnt)

set_option synthInstance.maxSize 256 in
/-- A decision that implies another literal, and a lesson that does so when it is asserted. -/
theorem steps_keepTo_knot : ∃ m s', prepare Store.knot.2 Store.knot.1 {} = .ok (m, s') ∧
    (∃ a v phase c q, m.Calls s' .never a ∧ a.Branches v phase c ∧ c.solver.decide v phase = .ok (true, q) ∧
      (∃ l ∈ q.core.trail.lits, l ∉ c.solver.core.trail.lits ∧ l ∉ [Lit.of v phase]) ∧
        q.core.learnts = #[] ∧ Stepper.LessonsKeepTo a.tree [.of v phase] c.solver q ∧
          Stepper.KeepsTo a.tree [.of v phase] c.solver q) ∧
    ∃ a c q, m.Calls s' .never a ∧ a.Retries c ∧ c.solver.assertLesson = .ok (true, q) ∧
      (∃ l ∈ q.core.trail.lits, l ∉ c.solver.core.trail.lits ∧
        ∀ r ∈ q.core.added, q.core.trail.reason l.var ≠ some r) ∧
          Stepper.LessonsKeepTo a.tree [] c.solver q ∧ Stepper.KeepsTo a.tree [] c.solver q := by
  have ran : Delivers (prepare Store.knot.2 Store.knot.1 {}) fun x =>
      (∃ a ∈ x.1.calls x.2 .never, ∃ y ∈ a.branches, ∃ q ∈ agreed? (y.2.2.solver.decide y.1 y.2.1),
        (∃ l ∈ q.core.trail.lits, l ∉ y.2.2.solver.core.trail.lits ∧ l ∉ [Lit.of y.1 y.2.1]) ∧
          q.core.learnts = #[] ∧ Stepper.LessonsKeepTo a.tree [.of y.1 y.2.1] y.2.2.solver q) ∧
      ∃ a ∈ x.1.calls x.2 .never, ∃ c ∈ a.retries, ∃ q ∈ agreed? c.solver.assertLesson,
        (∃ l ∈ q.core.trail.lits, l ∉ c.solver.core.trail.lits ∧
          ∀ r ∈ q.core.added, q.core.trail.reason l.var ≠ some r) ∧
            Stepper.LessonsKeepTo a.tree [] c.solver q := by decide +kernel
  obtain ⟨⟨m, s'⟩, prepared, ⟨a, listed, ⟨v, phase, c⟩, branch, q, run, implies, unlearnt, lessons⟩,
    b, listed', c', retry, q', run', teaches, lessons'⟩ := ran
  have calls := mem_calls.mp listed
  have calls' := mem_calls.mp listed'
  have before := Call.mem_branches.mp branch
  have failed := Call.mem_retries.mp retry
  replace run := agreed?_eq_some.mp run
  replace run' := agreed?_eq_some.mp run'
  obtain ⟨decisions, _⟩ := calls.steps_keepTo Store.knot_reachable Store.knot_mem prepared
  obtain ⟨_, _, asserts⟩ := calls'.steps_keepTo Store.knot_reachable Store.knot_mem prepared
  exact ⟨m, s', prepared, ⟨a, v, phase, c, q, calls, before, run, implies, unlearnt, lessons,
      decisions v phase c q before run lessons⟩,
    b, c', q', calls', failed, run', teaches, lessons', asserts c' q' failed run' lessons'⟩

end Compiler

end ModelCounting
