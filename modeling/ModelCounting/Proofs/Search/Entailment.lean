import Mathlib.Data.List.Dedup
import Mathlib.Data.List.Sublists
import ModelCounting.Proofs.Search.Conflict
import ModelCounting.Proofs.Search.Upkeep

/-!
What a solver knows. Every stored clause follows from the added ones, and so does every literal
fixed at the root; each added clause holds by its own form, by such a literal, or by a stored clause
that was added. Each step of the solver keeps this.
-/

namespace ModelCounting

/-- The clause holds wherever all clauses of the list do. -/
def Entails (Γ : List (List Lit)) (c : List Lit) : Prop := ∀ value, Models value Γ → Holds value c

/-- The clauses of the list have no model. -/
def Refuted (Γ : List (List Lit)) : Prop := ∀ value, ¬ Models value Γ

/-- What clauses entail is settled by the assignments to the variables at hand. -/
theorem entails_iff_sublists {Γ : List (List Lit)} {c : List Lit} : Entails Γ c ↔
    ∀ vs ∈ (((c :: Γ).flatten.map Lit.var).dedup).sublists, Models (· ∈ vs) Γ → Holds (· ∈ vs) c := by
  refine ⟨fun entails vs _ => entails _, fun all value models => ?_⟩
  let vs := (((c :: Γ).flatten.map Lit.var).dedup).filter value
  have same (d : List Lit) (listed : d ∈ c :: Γ) (l : Lit) (member : l ∈ d) :
      decide (l.var ∈ vs) = value l.var := by
    have inside : l.var ∈ ((c :: Γ).flatten.map Lit.var).dedup :=
      List.mem_dedup.mpr (List.mem_map_of_mem (List.mem_flatten.mpr ⟨d, listed, member⟩))
    simp only [vs, List.mem_filter, inside, true_and, Bool.decide_eq_true]
  have holds := all vs (List.mem_sublists.mpr List.filter_sublist) fun d listed =>
    (models d listed).congr (same d (List.mem_cons_of_mem c listed))
  exact holds.congr fun l member => (same c List.mem_cons_self l member).symm

instance {Γ : List (List Lit)} {c : List Lit} : Decidable (Entails Γ c) :=
  decidable_of_iff' _ entails_iff_sublists

theorem Entails.cons {Γ : List (List Lit)} {c d : List Lit} (entails : Entails Γ c) :
    Entails (d :: Γ) c :=
  fun value models => entails value fun e member => models e (List.mem_cons_of_mem _ member)

theorem Refuted.cons {Γ : List (List Lit)} {c : List Lit} (refuted : Refuted Γ) :
    Refuted (c :: Γ) :=
  fun value models => refuted value fun d member => models d (List.mem_cons_of_mem _ member)

theorem holds_unit {value : Var → Bool} {l : Lit} : Holds value [l] ↔ l.holds value = true := by
  simp [Holds]

namespace ClauseBank

variable {b b' b'' : ClauseBank}

/-- The same clauses in the same slots, whatever their activities. -/
structure SameLits (b b' : ClauseBank) : Prop where
  lits_eq : ∀ r, b'.lits r = b.lits r
  slots_eq : b'.slots.size = b.slots.size
  freed_eq : b'.freed = b.freed

theorem SameLits.refl (b : ClauseBank) : b.SameLits b := ⟨fun _ => rfl, rfl, rfl⟩

theorem SameLits.trans (first : b.SameLits b') (second : b'.SameLits b'') : b.SameLits b'' :=
  ⟨fun r => (second.lits_eq r).trans (first.lits_eq r), second.slots_eq.trans first.slots_eq,
    second.freed_eq.trans first.freed_eq⟩

theorem mapActivity_same (b : ClauseBank) (r : ClauseRef) (update : Float → Float) :
    b.SameLits (b.mapActivity r update) := by
  refine ⟨fun q => ?_, by simp [mapActivity], rfl⟩
  rw [ClauseBank.lits, mapActivity, get_modify]
  split <;> rfl

end ClauseBank

namespace Engine

variable {live : ClauseRef → Prop} {e : Engine} {k : Nat} {value : Var → Bool}

/-- Where the clauses in use hold, the literals up to a level follow from those among them that have
no reason. -/
theorem WellFormed.implied (wf : e.WellFormed live)
    (clauses : ∀ r, live r → Holds value (e.bank.lits r).toList)
    (unreasoned : ∀ l ∈ e.trail.lits, e.trail.level l.var ≤ k → e.trail.reason l.var = none →
      l.holds value = true) :
    ∀ l ∈ e.trail.lits, e.trail.level l.var ≤ k → l.holds value = true := by
  intro l member low
  obtain ⟨i, here⟩ := Array.mem_iff_getElem?.mp member
  -- The other literals of a reason stand at earlier positions, and those are of no higher level.
  clear member
  induction i using Nat.strongRecOn generalizing l with
  | ind i ih =>
    cases reason : e.trail.reason l.var with
    | none => exact unreasoned l (Array.mem_of_getElem? here) low reason
    | some r =>
      obtain ⟨alive, _, others⟩ := wf.reasoned i l r here reason
      obtain ⟨m, member, true_⟩ := clauses r alive
      by_cases same : m = l
      · rw [← same, true_]
      · obtain ⟨j, before, at_j⟩ := others m (by simpa using member) same
        have level : e.trail.level (-m).var ≤ k := by
          rw [wf.trail.level_eq i l here] at low
          rw [wf.trail.level_eq j _ at_j]
          exact Nat.le_trans (e.trail.levelAt_mono (Nat.le_of_lt before)) low
        have := ih j before (-m) level at_j
        rw [Store.holds_neg, true_] at this
        cases this

end Engine

namespace Solver

variable {Γ : List (List Lit)} {s s' : Solver} {c : List Lit} {l : Lit} {r : ClauseRef} {n : Nat}

def Live (s : Solver) (r : ClauseRef) : Prop := r ∈ s.added ∨ r ∈ s.learnts

def Covered (s : Solver) (c : List Lit) : Prop :=
  (∃ l ∈ c, -l ∈ c ∧ l.var.id < s.varCount) ∨
    (∃ l ∈ c, l ∈ s.trail.lits ∧ s.trail.level l.var = 0) ∨
      ∃ r ∈ s.added, ∀ l ∈ s.engine.bank.lits r, l ∈ c

theorem Covered.mono (covered : s.Covered c) (count : s.varCount ≤ s'.varCount)
    (fixed : ∀ l ∈ s.trail.lits, s.trail.level l.var = 0 →
      l ∈ s'.trail.lits ∧ s'.trail.level l.var = 0)
    (stored : ∀ r ∈ s.added, r ∈ s'.added ∧
      ∀ l ∈ s'.engine.bank.lits r, l ∈ s.engine.bank.lits r) : s'.Covered c := by
  rcases covered with ⟨l, member, negated, inside⟩ | ⟨l, member, on, root⟩ | ⟨r, member, within⟩
  · exact .inl ⟨l, member, negated, Nat.lt_of_lt_of_le inside count⟩
  · exact .inr (.inl ⟨l, member, fixed l on root⟩)
  · obtain ⟨member', fewer⟩ := stored r member
    exact .inr (.inr ⟨r, member', fun l inner => within l (fewer l inner)⟩)

/-- All that a solver has stored follows from the clauses, and its tables agree with each other. -/
structure Knows (Γ : List (List Lit)) (s : Solver) : Prop where
  ok : s.ok = true
  engine : s.engine.WellFormed s.Live
  booked : s.engine.bank.Booked s.Live
  apart : (s.added.toList ++ s.learnts.toList).Nodup
  entailed : ∀ r, s.Live r → Entails Γ (s.engine.bank.lits r).toList
  roots : ∀ l ∈ s.trail.lits, s.trail.level l.var = 0 → s.trail.reason l.var = none → Entails Γ [l]
  waits : s.branching.Awaits s.varCount fun v => v.id < s.varCount ∧ s.trail.valueVar v = .undef
  marks : Engine.Unmarked s.seen s.varCount

structure Keeps (Γ : List (List Lit)) (s s' : Solver) : Prop where
  knows : s'.Knows Γ
  covers : ∀ c, s.Covered c → s'.Covered c

theorem Keeps.trans {s'' : Solver} (first : Keeps Γ s s') (second : Keeps Γ s' s'') :
    Keeps Γ s s'' := ⟨second.knows, fun c covered => second.covers c (first.covers c covered)⟩

theorem Knows.keeps (knows : s.Knows Γ) : Keeps Γ s s := ⟨knows, fun _ covered => covered⟩

structure Tunes (Γ : List (List Lit)) (s s' : Solver) : Prop extends Keeps Γ s s' where
  trail : s'.trail = s.trail
  drawn : ∀ n, Engine.Drawn s.Live s.engine n → Engine.Drawn s'.Live s'.engine n

theorem Tunes.trans {s'' : Solver} (first : Tunes Γ s s') (second : Tunes Γ s' s'') :
    Tunes Γ s s'' :=
  ⟨first.toKeeps.trans second.toKeeps, second.trail.trans first.trail,
    fun n drawn => second.drawn n (first.drawn n drawn)⟩

theorem Knows.congr (knows : s.Knows Γ) (s' : Solver) (ok : s'.ok = s.ok) (engine : s'.engine = s.engine)
    (added : s'.added = s.added) (learnts : s'.learnts = s.learnts)
    (queue : s'.branching.queue = s.branching.queue) (seen : s'.seen = s.seen) : Tunes Γ s s' := by
  have live : s'.Live = s.Live := by
    funext r
    simp only [Live, added, learnts]
  have trail : s'.trail = s.trail := congrArg Engine.trail engine
  have count : s'.varCount = s.varCount := congrArg Trail.varCount trail
  refine ⟨⟨⟨ok.trans knows.ok, by rw [engine, live]; exact knows.engine,
    by rw [engine, live]; exact knows.booked, by rw [added, learnts]; exact knows.apart,
    by rw [engine, live]; exact knows.entailed, by rw [trail]; exact knows.roots, ?_,
    by rw [seen, count]; exact knows.marks⟩, fun c covered => ?_⟩, trail, fun n drawn => ?_⟩
  · rw [trail, count]
    exact ⟨queue ▸ knows.waits.placed, queue ▸ knows.waits.listed, queue ▸ knows.waits.inside⟩
  · exact covered.mono (Nat.le_of_eq count.symm) (fun l on root => trail ▸ ⟨on, root⟩)
      fun r member => ⟨added ▸ member, fun l inner => engine ▸ inner⟩
  · rw [engine, live]
    exact drawn

theorem Knows.cons (knows : s.Knows Γ) : s.Knows (c :: Γ) :=
  { knows with
    entailed := fun r alive => (knows.entailed r alive).cons
    roots := fun l member root reason => (knows.roots l member root reason).cons }

theorem Knows.root (knows : s.Knows Γ) (member : l ∈ s.trail.lits)
    (root : s.trail.level l.var = 0) : Entails Γ [l] := by
  intro value models
  rw [holds_unit]
  refine knows.engine.implied (k := 0) (fun r alive => knows.entailed r alive value models)
    (fun m member low reason => ?_) l member (Nat.le_of_eq root)
  exact holds_unit.mp (knows.roots m member (Nat.le_zero.mp low) reason value models)

theorem Knows.grounded (knows : s.Knows Γ) {value : Var → Bool} (models : Models value Γ) :
    s.engine.Grounded s.Live value where
  clauses r alive := knows.entailed r alive value models
  roots _ member root := holds_unit.mp (knows.root member root value models)

/-! Propagation, levels and literals. -/

theorem Knows.refuted (knows : s.Knows Γ) (conflicting : Engine.Conflicting s.Live s.engine r)
    (root : s.depth = 0) : Refuted Γ := by
  intro value models
  obtain ⟨m, member, true_⟩ := knows.entailed r conflicting.alive value models
  have on := conflicting.falsified m (by simpa using member)
  have level : s.engine.trail.level m.var = 0 := by
    have := knows.engine.trail.level_le_depth on
    rw [Lit.var_neg] at this
    exact Nat.le_zero.mp (root ▸ this)
  rw [(knows.grounded models).fails on level] at true_
  cases true_

theorem Knows.spread {engine : Engine} (knows : s.Knows Γ) (wf : engine.WellFormed s.Live)
    (spread : s.engine.Spread engine) : Keeps Γ s { s with engine } := by
  have old {l : Lit} (member : l ∈ s.trail.lits) := spread.grows.level_eq l member
  refine ⟨⟨knows.ok, wf, ?_, knows.apart, fun r alive => ?_, fun l member root reason => ?_, ?_, ?_⟩,
    fun c covered => ?_⟩
  · refine ⟨by rw [spread.freed]; exact knows.booked.nodup, fun r member => ?_, fun r member => ?_⟩
    · rw [spread.slots]
      exact knows.booked.inside r (spread.freed ▸ member)
    · exact knows.booked.unused r (spread.freed ▸ member)
  · exact fun value models => (knows.entailed r alive value models).mono fun m member =>
      (spread.perm r).toList.mem_iff.mpr member
  · rcases spread.implied l member with before | reasoned
    · change engine.trail.level l.var = 0 at root
      change engine.trail.reason l.var = none at reason
      rw [old before] at root
      rw [spread.grows.reason_eq l before] at reason
      exact knows.roots l before root reason
    · exact absurd reason reasoned
  · have count : ({ s with engine } : Solver).varCount = s.varCount := spread.grows.varCount_eq
    rw [count]
    exact knows.waits.mono fun v waiting => ⟨waiting.1,
      spread.grows.undef_mono knows.engine.trail wf.trail waiting.2⟩
  · change Engine.Unmarked s.seen engine.trail.varCount
    rw [spread.grows.varCount_eq]
    exact knows.marks
  · exact covered.mono (Nat.le_of_eq spread.grows.varCount_eq.symm)
      (fun l on root => ⟨spread.grows.mem on, (old on).trans root⟩)
      fun r member => ⟨member, fun l inner => (spread.perm r).mem_iff.mp inner⟩

theorem Knows.propagate_due {due : ClauseRef → Prop} {conflict : Option ClauseRef}
    (knows : s.Knows Γ) (owed : ∀ r, due r → s.Live r)
    (drawn : Engine.Drawn due s.engine s.trail.head) (run : s.propagate = .ok (conflict, s')) :
    Keeps Γ s s' ∧ Engine.Emptied s'.Live s.engine conflict s'.engine ∧
      Engine.DrawnOn due conflict s'.engine := by
  unfold Solver.propagate at run
  simp only [bind_ok, pure_ok, Prod.exists, Prod.mk.injEq] at run
  obtain ⟨conflict', engine, run, rfl, rfl⟩ := run
  obtain ⟨_, _, ran, emptied, drawn'⟩ := knows.engine.propagate_due owed drawn
  rw [ran] at run
  cases run
  exact ⟨knows.spread emptied.wellFormed emptied.spread, emptied, drawn'⟩

theorem Knows.propagate {conflict : Option ClauseRef} (knows : s.Knows Γ)
    (drawn : Engine.Drawn s.Live s.engine s.trail.head) (run : s.propagate = .ok (conflict, s')) :
    Keeps Γ s s' ∧ Engine.Propagated s'.Live s.engine conflict s'.engine := by
  obtain ⟨keeps, emptied, drawn'⟩ := knows.propagate_due (fun _ alive => alive) drawn run
  have live : s'.Live = s.Live := by
    unfold Solver.propagate at run
    simp only [bind_ok, pure_ok, Prod.exists, Prod.mk.injEq] at run
    obtain ⟨_, _, _, _, rfl⟩ := run
    rfl
  exact ⟨keeps, emptied, live ▸ drawn'⟩

theorem Knows.openLevel (knows : s.Knows Γ) (settled : s.trail.head = s.trail.lits.size) :
    Keeps Γ s s.openLevel :=
  ⟨⟨knows.ok, knows.engine.openLevel settled, knows.booked, knows.apart, knows.entailed, knows.roots,
    knows.waits, knows.marks⟩, fun _ covered => covered⟩

theorem Knows.assign {reason : Option ClauseRef} (knows : s.Knows Γ) (inside : l.var.id < s.varCount)
    (implied : ∀ r, reason = some r → s.Live r ∧ (s.engine.bank.lits r)[0]? = some l ∧
      ∀ m ∈ s.engine.bank.lits r, m ≠ l → -m ∈ s.trail.lits)
    (rooted : reason = none → s.depth = 0 → Entails Γ [l]) (run : s.assign l reason = .ok s') :
    Keeps Γ s s' ∧ s.trail.Assigned l reason s'.trail ∧ s'.Live = s.Live ∧
      s'.engine.bank = s.engine.bank ∧ (Engine.Drawn s.Live s.engine s.trail.head →
        Engine.Drawn s'.Live s'.engine s'.trail.head) := by
  unfold Solver.assign at run
  simp only [bind_ok, pure_ok] at run
  obtain ⟨engine, run, rfl⟩ := run
  obtain ⟨t, rfl, wf, assigned⟩ := knows.engine.assign inside implied run
  refine ⟨⟨⟨knows.ok, wf, knows.booked, knows.apart, knows.entailed,
    fun m member root because => ?_, ?_, ?_⟩, fun c covered => ?_⟩, assigned, rfl, rfl,
    fun drawn => assigned.head_eq ▸ drawn.assign assigned knows.engine.trail.head_le⟩
  · change t.level m.var = 0 at root
    change t.reason m.var = none at because
    rcases assigned.mem_iff.mp member with before | rfl
    · rw [assigned.level_eq m before] at root
      rw [assigned.reason_eq m before] at because
      exact knows.roots m before root because
    · rw [assigned.level_self] at root
      rw [assigned.reason_self] at because
      exact rooted because root
  · have count : ({ s with engine.trail := t } : Solver).varCount = s.varCount := assigned.varCount_eq
    rw [count]
    exact knows.waits.mono fun v waiting => ⟨waiting.1,
      assigned.toGrows.undef_mono knows.engine.trail wf.trail waiting.2⟩
  · change Engine.Unmarked s.seen t.varCount
    rw [assigned.varCount_eq]
    exact knows.marks
  · exact covered.mono (Nat.le_of_eq assigned.varCount_eq.symm)
      (fun m on root => ⟨assigned.toGrows.mem on, (assigned.level_eq m on).trans root⟩)
      fun r member => ⟨member, fun m inner => inner⟩

theorem Knows.backTo {level : Nat} (knows : s.Knows Γ) (below : level < s.depth)
    (run : s.backTo level = .ok s') :
    Keeps Γ s s' ∧ s.trail.Lowered level s'.trail ∧ ∀ n, s'.trail.lits.size ≤ n →
      Engine.Drawn s.Live s.engine n → Engine.Drawn s'.Live s'.engine s'.trail.head := by
  have wf₀ : s.trail.WellFormed := knows.engine.trail
  obtain ⟨t, branching, rfl, wf, lowered, waits⟩ := backTo_lowered wf₀ below run
  refine ⟨⟨⟨knows.ok, knows.engine.lower wf lowered, knows.booked, knows.apart,
    knows.entailed, fun l member root reason => ?_, ?_, ?_⟩, fun c covered => ?_⟩, lowered,
    fun n le drawn => lowered.head_eq ▸ drawn.lower lowered le⟩
  · change t.level l.var = 0 at root
    change t.reason l.var = none at reason
    rw [lowered.level_eq] at root
    rw [lowered.reason_eq l member] at reason
    exact knows.roots l (lowered.mem member) root reason
  · have count : ({ s with engine.trail := t, branching } : Solver).varCount = s.varCount :=
      lowered.varCount_eq
    rw [count]
    refine (waits _ knows.waits).mono fun v waiting => ?_
    by_cases free : s.trail.valueVar v = .undef
    · exact .inl ⟨waiting.1, free⟩
    · rw [wf₀.undef_iff v] at free
      push Not at free
      obtain ⟨l, member, same⟩ := free
      exact .inr ⟨l, member, fun still => (wf.undef_iff v).mp waiting.2 l still same, same⟩
  · change Engine.Unmarked s.seen t.varCount
    rw [lowered.varCount_eq]
    exact knows.marks
  · exact covered.mono (Nat.le_of_eq lowered.varCount_eq.symm)
      (fun l on root => ⟨lowered.mem_iff.mpr ⟨on, root ▸ Nat.zero_le _⟩,
        (lowered.level_eq l.var).trans root⟩)
      fun r member => ⟨member, fun l inner => inner⟩

/-! Variables. -/

/-- What adding variables leaves alone. -/
structure Widened (s s' : Solver) : Prop where
  varCount_le : s.varCount ≤ s'.varCount
  lits_eq : s'.trail.lits = s.trail.lits
  starts_eq : s'.trail.starts = s.trail.starts
  head_eq : s'.trail.head = s.trail.head
  value_eq : ∀ l, s'.trail.value l = s.trail.value l
  level_eq : ∀ v, s'.trail.level v = s.trail.level v
  reason_eq : ∀ v, s'.trail.reason v = s.trail.reason v
  live_eq : s'.Live = s.Live
  drawn : ∀ n, Engine.Drawn s.Live s.engine n → Engine.Drawn s'.Live s'.engine n

theorem Widened.refl (s : Solver) : s.Widened s :=
  ⟨Nat.le_refl _, rfl, rfl, rfl, fun _ => rfl, fun _ => rfl, fun _ => rfl, rfl, fun _ h => h⟩

theorem Widened.trans {s'' : Solver} (first : s.Widened s') (second : s'.Widened s'') :
    s.Widened s'' where
  varCount_le := Nat.le_trans first.varCount_le second.varCount_le
  lits_eq := second.lits_eq.trans first.lits_eq
  starts_eq := second.starts_eq.trans first.starts_eq
  head_eq := second.head_eq.trans first.head_eq
  value_eq l := (second.value_eq l).trans (first.value_eq l)
  level_eq v := (second.level_eq v).trans (first.level_eq v)
  reason_eq v := (second.reason_eq v).trans (first.reason_eq v)
  live_eq := second.live_eq.trans first.live_eq
  drawn n h := second.drawn n (first.drawn n h)

theorem Knows.newVar {v : Var} (knows : s.Knows Γ) (run : s.newVar = .ok (v, s')) :
    Keeps Γ s s' ∧ s.Widened s' ∧ s'.varCount = s.varCount + 1 := by
  unfold Solver.newVar at run
  simp only [bind_ok, pure_ok, Prod.mk.injEq] at run
  obtain ⟨branching, added, rfl, rfl⟩ := run
  have count : s.trail.addVar.varCount = s.varCount + 1 := Trail.addVar_varCount _
  refine ⟨⟨⟨knows.ok, knows.engine.addVar, knows.booked, knows.apart, knows.entailed,
    fun l member root reason => ?_, ?_, ?_⟩, fun c covered => ?_⟩, ⟨?_, rfl, rfl, rfl,
    Trail.addVar_value _, Trail.addVar_level _, Trail.addVar_reason _, rfl, fun n h => h.addVar⟩, count⟩
  · change s.trail.addVar.level l.var = 0 at root
    change s.trail.addVar.reason l.var = none at reason
    rw [Trail.addVar_level] at root
    rw [Trail.addVar_reason] at reason
    exact knows.roots l member root reason
  · change branching.Awaits s.trail.addVar.varCount fun w =>
      w.id < s.trail.addVar.varCount ∧ s.trail.addVar.valueVar w = .undef
    rw [count]
    refine (Branching.addVar_awaits knows.waits (Nat.le_succ _) (Nat.lt_succ_self _) added).mono
      fun w waiting => ?_
    rw [Trail.addVar_valueVar] at waiting
    rcases Nat.lt_succ_iff_lt_or_eq.mp waiting.1 with old | last
    · exact .inr ⟨old, waiting.2⟩
    · exact .inl (Var.ext last)
  · change Engine.Unmarked (s.seen.push false) s.trail.addVar.varCount
    rw [count]
    refine ⟨by rw [Array.size_push, knows.marks.1], fun n => ?_⟩
    rw [Trail.getD_push_self]
    exact knows.marks.2 n
  · refine covered.mono ?_ (fun l on root => ⟨on, (Trail.addVar_level _ _).trans root⟩)
      fun r member => ⟨member, fun l inner => inner⟩
    exact Nat.le_trans (Nat.le_succ _) (Nat.le_of_eq count.symm)
  · exact Nat.le_trans (Nat.le_succ _) (Nat.le_of_eq count.symm)

theorem addVars_ok {holds : Solver → Prop}
    (kept : ∀ s v t, holds s → s.newVar = .ok (v, t) → holds t) (start : holds s)
    (run : addVars n s = .ok s') : holds s' := by
  induction n generalizing s with
  | zero =>
    cases run
    exact start
  | succ n ih =>
    obtain ⟨⟨v, t⟩, created, rest⟩ := bind_ok.mp run
    exact ih (kept s v t start created) rest

theorem reserve_ok {holds : Solver → Prop} {ls : List Lit}
    (kept : ∀ s v t, holds s → s.newVar = .ok (v, t) → holds t) (start : holds s)
    (run : s.reserve ls = .ok s') : holds s' :=
  foldlM_ok holds (fun _ _ _ _ before step => addVars_ok kept before step) start run

theorem Knows.addVars (knows : s.Knows Γ) (run : addVars n s = .ok s') :
    Keeps Γ s s' ∧ s.Widened s' ∧ s'.varCount = s.varCount + n := by
  induction n generalizing s with
  | zero =>
    cases run
    exact ⟨knows.keeps, .refl _, rfl⟩
  | succ n ih =>
    simp only [Solver.addVars, bind_ok, Prod.exists] at run
    obtain ⟨v, s₁, added, rest⟩ := run
    obtain ⟨keeps, widened, count⟩ := knows.newVar added
    obtain ⟨keeps', widened', count'⟩ := ih keeps.knows rest
    exact ⟨keeps.trans keeps', widened.trans widened', by omega⟩

theorem Knows.reserve {ls : List Lit} (knows : s.Knows Γ) (run : s.reserve ls = .ok s') :
    Keeps Γ s s' ∧ s.Widened s' ∧ ∀ l ∈ ls, l.var.id < s'.varCount := by
  unfold Solver.reserve at run
  induction ls generalizing s with
  | nil =>
    cases run
    exact ⟨knows.keeps, .refl _, by simp⟩
  | cons l ls ih =>
    simp only [List.foldlM_cons, bind_ok] at run
    obtain ⟨s₁, first, rest⟩ := run
    obtain ⟨keeps, widened, count⟩ := knows.addVars first
    obtain ⟨keeps', widened', inside⟩ := ih keeps.knows rest
    refine ⟨keeps.trans keeps', widened.trans widened', fun m member => ?_⟩
    rcases List.mem_cons.mp member with rfl | member
    · have := widened'.varCount_le
      omega
    · exact inside m member

/-! Storing and removing clauses. -/

theorem Knows.store {lits : Array Lit} {learnt : Bool} {bank : ClauseBank} {engine : Engine}
    (knows : s.Knows Γ) (added learnts : Array ClauseRef)
    (allocated : s.engine.bank.alloc lits learnt = (r, bank))
    (attached : { s.engine with bank }.attach r = .ok engine) (nodup : lits.toList.Nodup)
    (inside : ∀ l ∈ lits, l.var.id < s.varCount) (entailed : Entails Γ lits.toList)
    (uses : (added.toList ++ learnts.toList).Perm (r :: (s.added.toList ++ s.learnts.toList)))
    (keeps : ∀ q ∈ s.added, q ∈ added) :
    Keeps Γ s { s with engine, added, learnts } ∧ 1 < lits.size ∧ engine.trail = s.trail ∧
      (∀ q, engine.bank.lits q = if q = r then lits else s.engine.bank.lits q) ∧ ¬ s.Live r ∧
      ∀ q, { s with engine, added, learnts }.Live q ↔ q = r ∨ s.Live q := by
  have alloc := knows.booked.alloc
    (fun q alive => ClauseBank.slot_lt (Nat.lt_of_succ_lt (knows.engine.stored.long q alive))) allocated
  obtain ⟨long, trail, rfl, wf⟩ := knows.engine.attach alloc nodup inside attached
  have live_iff (q : ClauseRef) : { s with engine, added, learnts }.Live q ↔ q = r ∨ s.Live q := by
    have := uses.mem_iff (a := q)
    simpa [Live] using this
  have live_eq : { s with engine, added, learnts }.Live = fun q => q = r ∨ s.Live q :=
    funext fun q => propext (live_iff q)
  have fresh := alloc.fresh
  refine ⟨⟨⟨knows.ok, live_eq ▸ wf, live_eq ▸ alloc.booked, ?_, fun q alive => ?_, ?_, ?_, ?_⟩,
    fun c covered => ?_⟩, long, trail, alloc.lits_eq, fresh, live_iff⟩
  · refine uses.nodup_iff.mpr (List.nodup_cons.mpr ⟨fun member => fresh ?_, knows.apart⟩)
    simpa [Live] using member
  · change Entails Γ (engine.bank.lits q).toList
    rw [alloc.lits_eq]
    split
    · exact entailed
    · rename_i other
      exact knows.entailed q (((live_iff q).mp alive).resolve_left other)
  · change ∀ l ∈ engine.trail.lits, engine.trail.level l.var = 0 → engine.trail.reason l.var = none → _
    rw [trail]
    exact knows.roots
  · change s.branching.Awaits engine.trail.varCount fun v =>
      v.id < engine.trail.varCount ∧ engine.trail.valueVar v = .undef
    rw [trail]
    exact knows.waits
  · change Engine.Unmarked s.seen engine.trail.varCount
    rw [trail]
    exact knows.marks
  · refine covered.mono ?_ (fun l on root => ?_) fun q member => ⟨keeps q member, fun l inner => ?_⟩
    · change s.varCount ≤ engine.trail.varCount
      rw [trail]
      exact Nat.le_refl _
    · change l ∈ engine.trail.lits ∧ engine.trail.level l.var = 0
      rw [trail]
      exact ⟨on, root⟩
    · change l ∈ engine.bank.lits q at inner
      rw [alloc.lits_eq, if_neg] at inner
      · exact inner
      · rintro rfl
        exact fresh (.inl member)

/-! Learning from a conflict. -/

theorem Knows.tuned {bank : ClauseBank} {branching : Branching} {seen : Array Bool} {x : Float}
    (knows : s.Knows Γ) (same : s.engine.bank.SameLits bank)
    (waits : branching.Awaits s.varCount fun v => v.id < s.varCount ∧ s.trail.valueVar v = .undef)
    (marks : Engine.Unmarked seen s.varCount) :
    Keeps Γ s { s with engine.bank := bank, clauseIncrement := x, branching, seen } := by
  refine ⟨⟨knows.ok, knows.engine.relits same.lits_eq, ⟨?_, fun r member => ?_, fun r member => ?_⟩,
    knows.apart, fun r alive => ?_, knows.roots, waits, marks⟩, fun c covered => ?_⟩
  · change bank.freed.Nodup
    rw [same.freed_eq]
    exact knows.booked.nodup
  · change r.slot < bank.slots.size
    rw [same.slots_eq]
    exact knows.booked.inside r (same.freed_eq ▸ member)
  · exact knows.booked.unused r (same.freed_eq ▸ member)
  · change Entails Γ (bank.lits r).toList
    rw [same.lits_eq]
    exact knows.entailed r alive
  · exact covered.mono (Nat.le_refl _) (fun l on root => ⟨on, root⟩)
      fun r member => ⟨member, fun l inner => same.lits_eq r ▸ inner⟩

theorem bumpClause_eq (s : Solver) (r : ClauseRef) :
    ∃ bank x, s.bumpClause r = { s with engine.bank := bank, clauseIncrement := x } ∧
      s.engine.bank.SameLits bank := by
  have scaled (bank : ClauseBank) (update : Float → Float) (rs : List ClauseRef) :
      bank.SameLits (rs.foldl (fun bank q => bank.mapActivity q update) bank) := by
    induction rs generalizing bank with
    | nil => exact .refl bank
    | cons q rs ih => exact (bank.mapActivity_same q update).trans (ih _)
  have bumped := s.engine.bank.mapActivity_same r (· + s.clauseIncrement)
  unfold bumpClause
  simp only
  split
  · refine ⟨_, _, rfl, ?_⟩
    rw [← Array.foldl_toList]
    exact (bumped.trans (scaled _ _ _)).trans (ClauseBank.mapActivity_same _ _ _)
  · exact ⟨_, _, rfl, bumped⟩

theorem bumpClauses_eq (s : Solver) (rs : List ClauseRef) :
    ∃ bank x, rs.foldl bumpClause s = { s with engine.bank := bank, clauseIncrement := x } ∧
      s.engine.bank.SameLits bank := by
  induction rs generalizing s with
  | nil => exact ⟨_, _, rfl, .refl _⟩
  | cons r rs ih =>
    obtain ⟨bank, x, bumped, same⟩ := bumpClause_eq s r
    obtain ⟨bank', x', rest, same'⟩ := ih (s.bumpClause r)
    rw [bumped] at rest same'
    exact ⟨bank', x', by rw [List.foldl_cons, bumped, rest], same.trans same'⟩

theorem bumps_awaits {waiting : Var → Prop} {b b' : Branching} {vs : List Var}
    (awaits : b.Awaits n waiting) (run : vs.foldlM Branching.bump b = .ok b') :
    b'.Awaits n waiting := by
  induction vs generalizing b with
  | nil =>
    cases run
    exact awaits
  | cons v vs ih =>
    simp only [List.foldlM_cons, bind_ok] at run
    obtain ⟨b₁, first, rest⟩ := run
    exact ih (Branching.bump_awaits awaits first) rest

theorem Knows.analyze {lesson : Lesson} (knows : s.Knows Γ)
    (conflicting : Engine.Conflicting s.Live s.engine r) (above : 0 < s.depth)
    (run : s.analyze r = .ok (lesson, s')) :
    Tunes Γ s s' ∧ Engine.Teaches s.Live s.engine lesson := by
  unfold Solver.analyze at run
  simp only [bind_ok, pure_ok, Prod.exists, Prod.mk.injEq] at run
  obtain ⟨lesson', a, analyzed, branching, bumped, rfl, rfl⟩ := run
  obtain ⟨teaches, marks⟩ := knows.engine.analyze_ok knows.marks conflicting above analyzed
  rw [← Array.foldl_toList] at bumped ⊢
  rw [← Array.foldlM_toList] at bumped
  obtain ⟨bank, x, same_state, same⟩ := bumpClauses_eq { s with seen := a.seen } a.clauses.toList
  rw [same_state] at bumped ⊢
  exact ⟨⟨knows.tuned same (bumps_awaits knows.waits bumped) marks, rfl, fun n drawn =>
    drawn.mono (fun _ alive => alive) (fun r _ => same.lits_eq r) rfl (Nat.le_refl _)⟩, teaches⟩

def record (s : Solver) (engine : Engine) (r : ClauseRef) : Solver :=
  let s := { s with engine }.bumpClause r
  { s with learnts := s.learnts.push r }

theorem Knows.record {lits : Array Lit} {bank : ClauseBank} {engine : Engine} (knows : s.Knows Γ)
    (allocated : s.engine.bank.alloc lits true = (r, bank))
    (attached : { s.engine with bank }.attach r = .ok engine) (nodup : lits.toList.Nodup)
    (inside : ∀ l ∈ lits, l.var.id < s.varCount) (entailed : Entails Γ lits.toList)
    (same : s.record engine r = s') :
    Keeps Γ s s' ∧ 1 < lits.size ∧ s'.trail = s.trail ∧
      (∀ q, s'.engine.bank.lits q = if q = r then lits else s.engine.bank.lits q) ∧
      ∀ q, s'.Live q ↔ q = r ∨ s.Live q := by
  obtain ⟨keeps, long, trail, lits_eq, _, live_iff⟩ := knows.store s.added
    (s.learnts.push r) allocated attached nodup inside entailed
    (by simp [← List.append_assoc, List.perm_append_singleton]) fun q member => member
  -- Raising the activity of the new clause changes no literals.
  obtain ⟨bank', x, bumped, kept⟩ := bumpClause_eq { s with engine } r
  unfold Solver.record at same
  rw [bumped] at same
  subst same
  refine ⟨keeps.trans (keeps.knows.tuned (x := x) kept keeps.knows.waits keeps.knows.marks), long,
    trail, fun q => ?_, live_iff⟩
  exact (kept.lits_eq q).trans (lits_eq q)

/-- Learning a clause whose first literal is unassigned and whose others are false, the second at
the current level. -/
theorem Knows.learn {lits : Array Lit} (knows : s.Knows Γ) (filled : 0 < lits.size)
    (nodup : lits.toList.Nodup) (inside : ∀ l ∈ lits, l.var.id < s.varCount)
    (entailed : Entails Γ lits.toList)
    (others : ∀ l ∈ lits, l ≠ lits.getD 0 default → -l ∈ s.trail.lits)
    (second : 1 < lits.size → s.trail.level (lits.getD 1 default).var = s.depth)
    (unit : lits.size = 1 → s.depth = 0) (run : s.learn lits = .ok s') :
    Keeps Γ s s' ∧ (Engine.Drawn s.Live s.engine s.trail.head →
        Engine.Drawn s'.Live s'.engine s'.trail.head) ∧
      ∃ reason, s.trail.Assigned (lits.getD 0 default) reason s'.trail ∧
        (reason = none → s.depth = 0) := by
  have first_inside := inside _ (Engine.getD_mem filled)
  unfold Solver.learn at run
  by_cases single : lits.size = 1
  · rw [if_pos single] at run
    have first : lits.toList = [lits.getD 0 default] := by
      obtain ⟨x, rfl⟩ := Array.size_eq_one_iff.mp single
      rfl
    obtain ⟨keeps, assigned, _, _, drawn'⟩ := knows.assign first_inside (by simp)
      (fun _ _ => first ▸ entailed) run
    exact ⟨keeps, drawn', none, assigned, fun _ => unit single⟩
  · rw [if_neg single] at run
    simp only [bind_ok] at run
    obtain ⟨engine, attached, run⟩ := run
    generalize allocated : s.engine.bank.alloc lits true = allocation at attached run
    obtain ⟨r, bank⟩ := allocation
    simp only at attached run
    change (s.record engine r).assign _ _ = _ at run
    generalize recorded : s.record engine r = s₁ at run
    obtain ⟨keeps, long, trail, lits_eq, live_iff⟩ :=
      knows.record allocated attached nodup inside entailed recorded
    have first_inside' : (lits.getD 0 default).var.id < s₁.varCount := by
      rw [varCount, trail]
      exact first_inside
    obtain ⟨keeps', assigned, live_eq, bank_eq, _⟩ := keeps.knows.assign first_inside' (fun q same => by
      obtain rfl := Option.some.inj same
      rw [lits_eq, if_pos rfl, trail]
      exact ⟨(live_iff r).mpr (.inl rfl), Engine.getElem?_getD filled, others⟩) (by simp) run
    rw [trail] at assigned
    refine ⟨keeps.trans keeps', fun drawn => ?_, some r, assigned, by simp⟩
    have learnt : Engine.Drawn _ s'.engine _ := drawn.learn knows.engine.trail knows.engine.trail.head_le
      (fun q => bank_eq ▸ lits_eq q) assigned long (second long)
    rw [← assigned.head_eq] at learnt
    exact learnt.mono (fun q alive => (live_iff q).mp (live_eq ▸ alive)) (fun _ _ => rfl) rfl
      (Nat.le_refl _)

/-! Forgetting clauses. -/

theorem Knows.reorder {learnts : Array ClauseRef} (knows : s.Knows Γ)
    (perm : learnts.toList.Perm s.learnts.toList) : Tunes Γ s { s with learnts } := by
  have live_eq : { s with learnts }.Live = s.Live := by
    funext q
    have := perm.mem_iff (a := q)
    simp only [Array.mem_toList_iff] at this
    simp [Live, this]
  exact ⟨⟨⟨knows.ok, live_eq ▸ knows.engine, live_eq ▸ knows.booked,
    (perm.append_left _).nodup_iff.mpr knows.apart,
    fun r alive => knows.entailed r (live_eq ▸ alive), knows.roots, knows.waits, knows.marks⟩,
    fun _ covered => covered⟩, rfl, fun n drawn => live_eq ▸ drawn⟩

theorem Knows.forget {before after : List ClauseRef} (knows : s.Knows Γ)
    (here : s.learnts.toList = before ++ r :: after) (unlocked : s.engine.locked r = false) :
    Tunes Γ s { s with engine := s.engine.remove r, learnts := (before ++ after).toArray } := by
  have alive : s.Live r := .inr (by rw [← Array.mem_toList_iff, here]; simp)
  obtain ⟨wf, trail, bank⟩ := knows.engine.remove alive unlocked
  have slot := ClauseBank.slot_lt (Nat.lt_of_succ_lt (knows.engine.stored.long r alive))
  generalize s.engine.remove r = engine at *
  have lits_eq (q : ClauseRef) (other : q ≠ r) : engine.bank.lits q = s.engine.bank.lits q := by
    rw [bank, ClauseBank.lits_free slot, if_neg other]
  have apart := knows.apart
  rw [here, ← List.append_assoc, List.nodup_middle, List.append_assoc, List.nodup_cons] at apart
  have absent := apart.1
  simp only [List.mem_append, Array.mem_toList_iff, not_or] at absent
  have live_iff (q : ClauseRef) :
      { s with learnts := (before ++ after).toArray }.Live q ↔ s.Live q ∧ q ≠ r := by
    have listed : q ∈ s.learnts.toList ↔ q ∈ s.learnts := Array.mem_toList_iff
    simp only [Live, ← listed, here]
    simp only [List.mem_toArray, List.mem_append, List.mem_cons]
    constructor
    · rintro (added | earlier | later)
      · exact ⟨.inl added, fun same => absent.1 (same ▸ added)⟩
      · exact ⟨.inr (.inl earlier), fun same => absent.2.1 (same ▸ earlier)⟩
      · exact ⟨.inr (.inr (.inr later)), fun same => absent.2.2 (same ▸ later)⟩
    · rintro ⟨added | earlier | same | later, other⟩
      · exact .inl added
      · exact .inr (.inl earlier)
      · exact absurd same other
      · exact .inr (.inr later)
  have live_eq : { s with learnts := (before ++ after).toArray }.Live =
      fun q => s.Live q ∧ q ≠ r := funext fun q => propext (live_iff q)
  refine ⟨⟨⟨knows.ok, live_eq ▸ wf, ?_, by simpa using apart.2, fun q alive' => ?_, ?_, ?_, ?_⟩,
    fun c covered => ?_⟩, trail, fun n drawn => ?_⟩
  · change engine.bank.Booked { s with learnts := (before ++ after).toArray }.Live
    rw [live_eq, bank]
    exact knows.booked.free alive slot
  · obtain ⟨alive', other⟩ := (live_iff q).mp alive'
    change Entails Γ (engine.bank.lits q).toList
    rw [lits_eq q other]
    exact knows.entailed q alive'
  · change ∀ l ∈ engine.trail.lits, engine.trail.level l.var = 0 → engine.trail.reason l.var = none → _
    rw [trail]
    exact knows.roots
  · change s.branching.Awaits engine.trail.varCount fun v =>
      v.id < engine.trail.varCount ∧ engine.trail.valueVar v = .undef
    rw [trail]
    exact knows.waits
  · change Engine.Unmarked s.seen engine.trail.varCount
    rw [trail]
    exact knows.marks
  · refine covered.mono ?_ (fun l on root => ?_) fun q member => ⟨member, fun l inner => ?_⟩
    · change s.varCount ≤ engine.trail.varCount
      rw [trail]
      exact Nat.le_refl _
    · change l ∈ engine.trail.lits ∧ engine.trail.level l.var = 0
      rw [trail]
      exact ⟨on, root⟩
    · change l ∈ engine.bank.lits q at inner
      rwa [lits_eq q] at inner
      rintro rfl
      exact absent.1 member
  · change Engine.Drawn { s with learnts := (before ++ after).toArray }.Live engine n
    rw [live_eq]
    exact drawn.mono (fun q alive' => alive'.1) (fun q alive' => lits_eq q alive'.2) trail
      (Nat.le_refl _)

/-- Learnt clauses are put in another order, or removed unless they are the reason of a literal. -/
inductive Forgets : Solver → Solver → Prop
  | refl {s : Solver} : Forgets s s
  | reorder {s t : Solver} {learnts : Array ClauseRef} (rest : Forgets s t)
      (perm : learnts.toList.Perm t.learnts.toList) : Forgets s { t with learnts }
  | remove {s t : Solver} {r : ClauseRef} {before after : List ClauseRef} (rest : Forgets s t)
      (here : t.learnts.toList = before ++ r :: after) (unlocked : t.engine.locked r = false) :
      Forgets s { t with engine := t.engine.remove r, learnts := (before ++ after).toArray }

theorem Knows.forgets (knows : s.Knows Γ) (forgets : Forgets s s') : Tunes Γ s s' := by
  induction forgets with
  | refl => exact ⟨knows.keeps, rfl, fun _ drawn => drawn⟩
  | reorder _ perm ih => exact ih.trans (ih.knows.reorder perm)
  | remove _ here unlocked ih => exact ih.trans (ih.knows.forget here unlocked)

theorem reduce_fold {count : Nat} {threshold : Float} {rest : List (ClauseRef × Nat)}
    {engine : Engine} {kept : Array ClauseRef}
    (done : Forgets s { s with
      engine, learnts := (kept.toList ++ rest.map Prod.fst).toArray }) {engine' : Engine}
    {kept' : Array ClauseRef}
    (run : rest.foldl (fun (engine, kept) (r, i) =>
      let c := engine.bank.get r
      if c.lits.size > 2 && !engine.locked r && (i < count / 2 || c.activity < threshold) then
        (engine.remove r, kept)
      else (engine, kept.push r)) (engine, kept) = (engine', kept')) :
    Forgets s { s with engine := engine', learnts := kept' } := by
  induction rest generalizing engine kept with
  | nil =>
    cases run
    simpa using done
  | cons first rest ih =>
    obtain ⟨r, i⟩ := first
    rw [List.foldl_cons] at run
    simp only at run
    split at run
    · rename_i useless
      have unlocked : engine.locked r = false := by
        simp only [Bool.and_eq_true, Bool.not_eq_eq_eq_not, Bool.not_true] at useless
        exact useless.1.2
      exact ih (done.remove (by simp) unlocked) run
    · refine ih ?_ run
      simpa using done

theorem reduce_forgets (s : Solver) : Forgets s s.reduce := by
  unfold Solver.reduce
  simp only
  generalize sorted_eq : s.learnts.toList.mergeSort (lessUseful s.engine.bank) = sorted
  have perm : sorted.Perm s.learnts.toList := sorted_eq ▸ List.mergeSort_perm _ _
  generalize fold_eq : List.foldl _ _ sorted.zipIdx = result
  obtain ⟨engine, kept⟩ := result
  refine reduce_fold (Forgets.refl.reorder ?_) fold_eq
  simpa using perm

theorem Knows.reduce (knows : s.Knows Γ) : Tunes Γ s s.reduce := knows.forgets (reduce_forgets s)

end Solver

end ModelCounting
