import ModelCounting.Proofs.Search.Deciding
import ModelCounting.Proofs.Steps

/-!
When the lesson of a conflict may be asserted. A caller decides variables, closes levels and has
lessons asserted in any order, but closes the level of a failed step before it goes on. As long as
no level has been closed on which the lesson rests, the lesson is unit wherever it is said to be at
its level, and what it brings follows from the clauses and the open decisions. Once such a level is
closed only its number is left, and the next decision gives that number to another level.
-/

namespace ModelCounting

namespace Trail

variable {t : Trail} {l : Lit}

/-- The literals at which the open levels start. -/
def decisions (t : Trail) : List Lit := t.starts.toList.filterMap fun n => t.lits[n]?

theorem Led.mem_decisions (led : t.Led) (member : l ∈ t.lits) (unreasoned : t.reason l.var = none)
    (above : 0 < t.level l.var) : l ∈ t.decisions := by
  obtain ⟨i, here⟩ := Array.mem_iff_getElem?.mp member
  have start := led i l here unreasoned above
  exact List.mem_filterMap.mpr ⟨i, Array.mem_toList_iff.mpr (Array.mem_of_getElem? start), here⟩

end Trail

namespace Solver

variable {Γ : List (List Lit)} {s s' : Solver} {ds : List Lit} {lits : Array Lit} {l : Lit} {level : Nat}

theorem Knows.follows (knows : s.Knows Γ) (decided : ∀ l ∈ s.trail.lits,
    s.trail.reason l.var = none → 0 < s.trail.level l.var → l ∈ ds) (member : l ∈ s.trail.lits) :
    Entails (Γ ++ ds.map ([·])) [l] := by
  intro value models
  have clauses : Models value Γ := fun c member => models c (List.mem_append_left _ member)
  rw [holds_unit]
  refine knows.engine.implied (k := s.trail.level l.var)
    (fun r alive => knows.entailed r alive value clauses) (fun m on _ reason => ?_) l member
    (Nat.le_refl _)
  rcases Nat.eq_zero_or_pos (s.trail.level m.var) with root | above
  · exact holds_unit.mp (knows.root on root value clauses)
  · have among : [m] ∈ ds.map ([·]) := List.mem_map_of_mem (decided m on reason above)
    exact holds_unit.mp (models [m] (List.mem_append_right _ among))

/-- Another level on top leaves a lesson as it is. -/
theorem Pending.deepens (pending : s.Pending Γ lits level) (low : level ≤ s.depth)
    (grows : s.trail.openLevel.Grows s'.trail) (wf : s.trail.openLevel.WellFormed)
    (wf' : s'.trail.WellFormed) : s'.Pending Γ lits level := by
  have old {l : Lit} (member : l ∈ s.trail.lits) : s'.trail.level l.var = s.trail.level l.var :=
    grows.level_eq l member
  refine ⟨pending.filled, pending.nodup, ?_, pending.entailed, fun l member same => ?_,
    fun l member other => ?_, fun long => ?_, pending.unit⟩
  · rw [varCount, grows.varCount_eq]
    exact pending.inside
  · obtain ⟨added, split, new⟩ := grows.appended wf wf'
    rw [← Array.mem_toList_iff, split, List.mem_append, Array.mem_toList_iff] at member
    rcases member with member | member
    · rw [old member]
      exact pending.first l member same
    · have opened : s.trail.openLevel.depth = s.depth + 1 := Array.size_push ..
      rw [new l member, opened]
      exact Nat.lt_succ_of_le low
  · obtain ⟨on, below⟩ := pending.others l member other
    have same := old on
    rw [Lit.var_neg] at same
    exact ⟨grows.mem on, same ▸ below⟩
  · have other := ne_first pending.nodup Nat.zero_lt_one (Engine.getElem?_getD long)
    have same := old (pending.others _ (Engine.getD_mem long) other).1
    rw [Lit.var_neg] at same
    exact same.trans (pending.second long)

end Solver

namespace Stepper

variable {Γ : List (List Lit)} {settings : Settings} {p q : Stepper} {v : Var} {l : Lit}
  {phase consistent failed outdated : Bool} {bound bound' : Nat}

open Solver (History)

/-! What is left of a conflict. -/

theorem Retains.mono (retains : p.Retains Γ bound) (le : bound ≤ bound') : p.Retains Γ bound' :=
  retains.imp_right fun ⟨lits, level, lesson, leveled, pending, low⟩ =>
    ⟨lits, level, lesson, leveled, pending, Nat.lt_of_lt_of_le low le⟩

theorem Retains.elsewhere (retains : p.Retains Γ p.core.depth) : p.atAssertionLevel = false := by
  rw [atAssertionLevel, beq_eq_false_iff_ne]
  rcases retains with ⟨_, none⟩ | ⟨_, level, _, leveled, _, low⟩
  · rw [none]
    exact (Option.some_ne_none _).symm
  · rw [leveled]
    exact fun same => Nat.ne_of_lt low (Option.some.inj same)

theorem Retains.deepens (retains : p.Retains Γ (p.core.depth + 1)) (lesson : q.lesson = p.lesson)
    (leveled : q.assertionLevel = p.assertionLevel)
    (grows : p.core.trail.openLevel.Grows q.core.trail) (wf : p.core.trail.openLevel.WellFormed)
    (wf' : q.core.trail.WellFormed) : q.Retains Γ (p.core.depth + 1) := by
  rcases retains with ⟨none, none'⟩ | ⟨lits, level, some, some', pending, low⟩
  · exact .inl ⟨lesson.trans none, leveled.trans none'⟩
  · exact .inr ⟨lits, level, lesson.trans some, leveled.trans some',
      pending.deepens (Nat.le_of_lt_succ low) grows wf wf', low⟩

/-! A caller with care. -/

/-- A stepper before its start, with the clauses that it was given, latest first, in its own
variables. -/
inductive Fed (settings : Settings) : List (List Lit) → Stepper → Prop
  | fresh : Fed settings [] { core := { settings } }
  | clause {Γ : List (List Lit)} {p p' q : Stepper} {ls ms : List Lit} (before : Fed settings Γ p)
      (numbered : p.numberLits ls = .ok (ms, p')) (run : p.addClause ls = .ok q) :
      Fed settings (ms :: Γ) q

theorem Fed.add {s : Store} {f : Formula} (fed : Fed settings Γ p) (run : p.add s f = .ok q) :
    ∃ Γ', Fed settings Γ' q := by
  simp only [Stepper.add, bind_ok] at run
  obtain ⟨cs, -, run⟩ := run
  refine foldlM_ok (fun p => ∃ Γ, Fed settings Γ p) ?_ ⟨Γ, fed⟩ run
  rintro c - p q ⟨Γ, fed⟩ run
  obtain ⟨⟨ms, p'⟩, numbered, -⟩ := bind_ok.mp run
  exact ⟨_, fed.clause numbered run⟩

theorem Fed.given (fed : Fed settings Γ p) : p.Given ∧ History settings Γ p.core := by
  induction fed with
  | fresh => exact ⟨.fresh settings, .fresh⟩
  | clause _ numbered run ih =>
    refine ⟨(ih.1.addClause run).1, ?_⟩
    have history := numberLits_history ih.2 numbered
    simp only [Stepper.addClause, numbered, bind_ok, pure_ok, Prod.exists] at run
    obtain ⟨_, _, same, _, _, added, rfl⟩ := run
    cases same
    exact history.addClause added

/-- The steppers to which a caller comes who started without a contradiction, closes the level of a
failed step before going on, and has no outdated lesson asserted. The first flag is set while the
level of a failed step is open. The second is set once a level has been closed on which the lesson
rests, and unset when a conflict leaves a new lesson. -/
inductive Tended (settings : Settings) (Γ : List (List Lit)) : Bool → Bool → Stepper → Prop
  | start {p q : Stepper} (fed : Fed settings Γ p)
      (fits : p.NamesIn fun v => 2 * v.id + 1 < Node.wordLimit) (run : p.start = .ok (true, q)) :
      Tended settings Γ false false q
  /-- A literal that is false already is no conflict, so the lesson stays. -/
  | decide {p q : Stepper} {v : Var} {phase consistent outdated : Bool}
      (before : Tended settings Γ false outdated p) (run : p.decide v phase = .ok (consistent, q)) :
      Tended settings Γ (!consistent)
        (outdated && (consistent || p.value (.packed v phase) == .fls)) q
  | undo {p q : Stepper} {v : Var} {failed outdated : Bool}
      (before : Tended settings Γ failed outdated p) (run : p.undo v = .ok q) :
      Tended settings Γ false (outdated || p.assertionLevel.any (p.core.depth ≤ ·)) q
  | assertLesson {p q : Stepper} {consistent : Bool} (before : Tended settings Γ false false p)
      (run : p.assertLesson = .ok (consistent, q)) : Tended settings Γ (!consistent) false q
  | newlyImplied {p q : Stepper} {failed outdated : Bool} {known : IndexSet} {s s' : Store}
      {f : Formula} (before : Tended settings Γ failed outdated p)
      (run : p.newlyImplied known s = .ok (f, q, s')) : Tended settings Γ failed outdated q

structure Reliable (Γ : List (List Lit)) (failed outdated : Bool) (p : Stepper) : Prop where
  blocked : p.Blocked Γ
  clear : failed = false → p.Clear Γ
  retains : outdated = false → p.Retains Γ (p.core.depth + 1)
  elsewhere : failed = true → outdated = false → p.atAssertionLevel = false

theorem Failed.reliable (failed : p.Failed Γ) : p.Reliable Γ true false where
  blocked := failed.blocked
  clear := nofun
  retains _ := failed.retains.mono (Nat.le_succ _)
  elsewhere _ _ := failed.retains.elsewhere

theorem Calm.reliable (calm : p.Calm Γ) : p.Reliable Γ false false where
  blocked := calm.clear.blocked
  clear _ := calm.clear
  retains _ := .inl ⟨calm.untaught, calm.unleveled⟩
  elsewhere := nofun

/-- A decision is refused, or its literal is assigned and propagated. -/
theorem decide_cases (run : p.decide v phase = .ok (consistent, q)) :
    (p.value (.packed v phase) = .fls ∧ consistent = false ∧
      q = { p with unreported := true, core := p.core.openLevel }) ∨
    (p.value (.packed v phase) = .undef ∧ (Lit.packed v phase).var.id < p.core.varCount ∧
      ∃ s, p.core.openLevel.assign (.packed v phase) none = .ok s ∧
        settle { p with unreported := true, core := s } = .ok (consistent, q)) := by
  unfold Stepper.decide at run
  simp only [bind_ok] at run
  obtain ⟨truth, same, run⟩ := run
  unfold Solver.valueOf at same
  split at same
  · rename_i inside
    cases same
    split at run
    · rename_i known
      cases run
      exact .inl ⟨known, rfl, rfl⟩
    · cases run
    · rename_i unknown
      exact .inr ⟨unknown, inside, bind_ok.mp run⟩
  · cases same

theorem Clear.openLevel (clear : p.Clear Γ) :
    { p with unreported := true, core := p.core.openLevel }.Blocked Γ where
  core := ⟨(clear.core.toKnows.openLevel clear.drained).knows, clear.core.ranked,
    clear.core.led.openLevel⟩
  drained := clear.drained
  count := clear.count
  words := clear.words
  drawn := by
    refine ⟨_, clear.drawn, fun m member => ?_⟩
    rcases Array.mem_push.mp member with old | rfl
    · exact clear.core.engine.trail.starts_le m old
    · exact Nat.le_of_eq clear.drained.symm

theorem Clear.decide (clear : p.Clear Γ) (inside : l.var.id < p.core.varCount)
    (unassigned : p.value l = .undef) {s : Solver} (assign : p.core.openLevel.assign l none = .ok s)
    (run : settle { p with unreported := true, core := s } = .ok (consistent, q)) :
    p.core.trail.openLevel.Grows q.core.trail ∧
      (consistent = true → q.Clear Γ ∧ q.lesson = p.lesson ∧ q.assertionLevel = p.assertionLevel) ∧
        (consistent = false → q.Failed Γ) := by
  obtain ⟨core, assigned, drawn⟩ := (clear.core.decide clear.drained inside
    ((Trail.value_of_var _ _).mp unassigned)).answer assign
  have count : s.varCount = p.names.size := assigned.varCount_eq.trans clear.count
  have settles := settle_settles (p := { p with unreported := true, core := s }) core
    (drawn clear.drawn) run
  exact ⟨assigned.toGrows.trans settles.grows,
    (settle_clears (p := { p with unreported := true, core := s }) core (drawn clear.drawn) count
      clear.words).answer run⟩

theorem Reliable.decide (reliable : p.Reliable Γ false outdated)
    (run : p.decide v phase = .ok (consistent, q)) :
    q.Reliable Γ (!consistent) (outdated && (consistent || p.value (.packed v phase) == .fls)) := by
  have clear := reliable.clear rfl
  have opened := clear.openLevel.core.engine.trail
  have deepens (current : outdated = false) (lesson : q.lesson = p.lesson)
      (leveled : q.assertionLevel = p.assertionLevel) (wf : q.core.trail.WellFormed)
      (grows : p.core.trail.openLevel.Grows q.core.trail) : q.Retains Γ q.core.depth := by
    have depth : q.core.depth = p.core.depth + 1 := grows.depth_eq.trans (Array.size_push ..)
    rw [depth]
    exact (reliable.retains current).deepens lesson leveled grows opened wf
  rcases decide_cases run with ⟨known, rfl, rfl⟩ | ⟨unknown, inside, s, assign, settled⟩
  · simp only [known, beq_self_eq_true, Bool.or_true, Bool.and_true, Bool.not_false]
    have retains (current : outdated = false) := deepens current rfl rfl opened (.refl _)
    exact ⟨clear.openLevel, nofun, fun current => (retains current).mono (Nat.le_succ _),
      fun _ current => (retains current).elsewhere⟩
  · obtain ⟨grows, clears, fails⟩ := clear.decide inside unknown assign settled
    cases consistent with
    | true =>
      obtain ⟨clear', lesson, leveled⟩ := clears rfl
      rw [Bool.true_or, Bool.and_true]
      exact ⟨clear'.blocked, fun _ => clear', fun current =>
        (deepens current lesson leveled clear'.core.engine.trail grows).mono (Nat.le_succ _), nofun⟩
    | false =>
      rw [unknown, Bool.false_or, show (Truth.undef == Truth.fls) = false from rfl, Bool.and_false]
      exact (fails rfl).reliable

theorem Reliable.undo (reliable : p.Reliable Γ failed outdated) (run : p.undo v = .ok q) :
    q.Reliable Γ false (outdated || p.assertionLevel.any (p.core.depth ≤ ·)) := by
  have above : 0 < p.core.depth := by
    unfold Stepper.undo at run
    split at run
    · cases run
    · rename_i above
      exact Nat.pos_of_ne_zero above
  obtain ⟨clear, lowered, lesson, leveled⟩ := (reliable.blocked.undo above).answer run
  refine ⟨clear.blocked, fun _ => clear, fun current => ?_, nofun⟩
  obtain ⟨current, open_⟩ := Bool.or_eq_false_iff.mp current
  have low : p.Retains Γ (p.core.depth - 1 + 1) := by
    rw [Nat.sub_add_cancel above]
    refine (reliable.retains current).imp_right ?_
    rintro ⟨lits, level, lesson, leveled, pending, _⟩
    refine ⟨lits, level, lesson, leveled, pending, ?_⟩
    simpa [leveled, Nat.sub_add_cancel above] using open_
  have depth : q.core.depth = p.core.depth - 1 := lowered.depth_eq
  exact depth ▸ low.lowered lowered lesson leveled

theorem Reliable.recovered (reliable : p.Reliable Γ failed false) (level : p.atAssertionLevel = true) :
    p.Recovered Γ := by
  cases failed with
  | true =>
    rw [reliable.elsewhere rfl rfl] at level
    cases level
  | false =>
    have clear := reliable.clear rfl
    exact ⟨clear.toFit, clear.drawn, reliable.retains rfl⟩

theorem Reliable.assertLesson (reliable : p.Reliable Γ failed false)
    (run : p.assertLesson = .ok (consistent, q)) : q.Reliable Γ (!consistent) false := by
  have level := assertLesson_level run
  obtain ⟨failed, calm⟩ := ((reliable.recovered level).assertLesson level).answer run
  cases consistent with
  | true => exact (calm rfl).reliable
  | false => exact failed.reliable

theorem Reliable.newlyImplied {known : IndexSet} {s s' : Store} {f : Formula}
    (reliable : p.Reliable Γ failed outdated) (run : p.newlyImplied known s = .ok (f, q, s')) :
    q.Reliable Γ failed outdated := by
  obtain rfl : q = { p with unreported := false } := reliable.blocked.toFit.newlyImplied.answer run
  have fit (fit : p.Fit Γ) : { p with unreported := false }.Fit Γ :=
    ⟨fit.core, fit.drained, fit.count, fit.words⟩
  exact ⟨⟨fit reliable.blocked.toFit, reliable.blocked.drawn⟩,
    fun calm => ⟨fit (reliable.clear calm).toFit, (reliable.clear calm).drawn⟩,
    reliable.retains, reliable.elsewhere⟩

theorem Tended.reliable (tended : Tended settings Γ failed outdated p) :
    p.Reliable Γ failed outdated := by
  induction tended with
  | start fed fits run =>
    obtain ⟨given, history⟩ := fed.given
    exact ((given.start_calm history.atRest fits).answer run rfl).reliable
  | decide _ run ih => exact ih.decide run
  | undo _ run ih => exact ih.undo run
  | assertLesson _ run ih => exact ih.assertLesson run
  | newlyImplied _ run ih => exact ih.newlyImplied run

theorem Recovered.assertLesson_follows (recovered : p.Recovered Γ) (level : p.atAssertionLevel = true)
    (run : p.assertLesson = .ok (consistent, q)) : p.core.trail.Grows q.core.trail ∧
      ∀ l ∈ q.core.trail.lits, Entails (Γ ++ p.core.trail.decisions.map ([·])) [l] := by
  obtain ⟨p', _, _, ⟨first, reason, assigned, rooted⟩, settles⟩ :=
    recovered.assertLesson_settles level run
  have grows := assigned.toGrows.trans settles.grows
  refine ⟨grows, fun l member => settles.keeps.knows.follows (fun m on unreasoned above => ?_) member⟩
  have before := (settles.implied m on).resolve_right (not_not_intro unreasoned)
  rcases assigned.mem_iff.mp before with old | rfl
  · rw [grows.reason_eq m old] at unreasoned
    rw [grows.level_eq m old] at above
    exact recovered.core.led.mem_decisions old unreasoned above
  -- The literal of the lesson has a reason, unless it belongs to the root.
  · rw [settles.grows.reason_eq m before, assigned.reason_self] at unreasoned
    rw [settles.grows.level_eq m before, assigned.level_self] at above
    exact absurd (rooted unreasoned) (Nat.ne_of_gt above)

/-- Until a level is closed on which it rests, a lesson at its level is unit, it can be asserted, and
what that brings follows from the clauses and the open decisions. -/
theorem Tended.asserts (tended : Tended settings Γ failed false p) (level : p.atAssertionLevel = true) :
    p.UnitLesson ∧ Delivers p.assertLesson fun x => p.core.trail.Grows x.2.core.trail ∧
      ∀ l ∈ x.2.core.trail.lits, Entails (Γ ++ p.core.trail.decisions.map ([·])) [l] := by
  have recovered := tended.reliable.recovered level
  exact ⟨recovered.unitLesson level, ((recovered.assertLesson level).and fun _ run =>
    recovered.assertLesson_follows level run).mono fun _ both => both.2⟩

/-- Two decisions and a conflict. When the upper level is closed the lesson is unit. When the lower
one is closed too and its variable decided the other way, the lesson is true, and still it is said to
be at its level. -/
theorem asserts_conflict : ∃ p q,
    (Tended {} [[.of ⟨0⟩ false, .of ⟨1⟩ false, .of ⟨2⟩ false],
      [.of ⟨0⟩ false, .of ⟨1⟩ false, .of ⟨2⟩ true]] false false p ∧ p.atAssertionLevel = true ∧
        p.UnitLesson ∧ Delivers p.assertLesson fun x => p.core.trail.Grows x.2.core.trail ∧
          ∀ l ∈ x.2.core.trail.lits, Entails ([[.of ⟨0⟩ false, .of ⟨1⟩ false, .of ⟨2⟩ false],
            [.of ⟨0⟩ false, .of ⟨1⟩ false, .of ⟨2⟩ true]] ++ p.core.trail.decisions.map ([·])) [l]) ∧
    (Tended {} [[.of ⟨0⟩ false, .of ⟨1⟩ false, .of ⟨2⟩ false],
      [.of ⟨0⟩ false, .of ⟨1⟩ false, .of ⟨2⟩ true]] false true q ∧ q.atAssertionLevel = true ∧
        ¬ q.UnitLesson) := by
  have ran : (do
      let x₁ ← Stepper.numberLits {} [.of ⟨0⟩ false, .of ⟨1⟩ false, .of ⟨2⟩ true]
      let y₁ ← Stepper.addClause {} [.of ⟨0⟩ false, .of ⟨1⟩ false, .of ⟨2⟩ true]
      let x₂ ← y₁.numberLits [.of ⟨0⟩ false, .of ⟨1⟩ false, .of ⟨2⟩ false]
      let y₂ ← y₁.addClause [.of ⟨0⟩ false, .of ⟨1⟩ false, .of ⟨2⟩ false]
      let z₀ ← y₂.start
      let z₁ ← z₀.2.decide ⟨0⟩ true
      let z₂ ← z₁.2.decide ⟨1⟩ true
      let z₃ ← z₂.2.undo ⟨1⟩
      let z₄ ← z₃.undo ⟨0⟩
      let z₅ ← z₄.decide ⟨0⟩ false
      return Decidable.decide ((x₁.1 = [.of ⟨0⟩ false, .of ⟨1⟩ false, .of ⟨2⟩ true] ∧
          x₂.1 = [.of ⟨0⟩ false, .of ⟨1⟩ false, .of ⟨2⟩ false] ∧ y₂.names = #[⟨0⟩, ⟨1⟩, ⟨2⟩]) ∧
        (z₀.1 = true ∧ z₁.1 = true ∧ z₂.1 = false ∧ z₅.1 = true) ∧
        z₂.2.assertionLevel.any (z₂.2.core.depth ≤ ·) = false ∧ z₃.atAssertionLevel = true ∧
        z₃.assertionLevel.any (z₃.core.depth ≤ ·) = true ∧ z₅.2.atAssertionLevel = true ∧
        z₅.2.lesson = some #[.of ⟨1⟩ false, .of ⟨0⟩ false] ∧ z₅.2.value (.of ⟨0⟩ false) = .tru) :
          Except Fault Bool) = .ok true := by decide +kernel
  simp only [bind_ok, pure_ok, Prod.exists] at ran
  obtain ⟨_, _, numbered₁, y₁, added₁, _, _, numbered₂, y₂, added₂, _, z₀, started, _, z₁, first, _, z₂,
    second, z₃, closed, z₄, closed', _, z₅, again, facts⟩ := ran
  obtain ⟨⟨rfl, rfl, names⟩, ⟨rfl, rfl, rfl, rfl⟩, kept, level, lost, level', lesson, true_⟩ :=
    of_decide_eq_true facts
  have fed := (Fed.fresh.clause numbered₁ added₁).clause numbered₂ added₂
  have fits : NamesIn (fun v => 2 * v.id + 1 < Node.wordLimit) y₂ := by
    simp +decide [NamesIn, names]
  have current := ((Tended.start fed fits started).decide first |>.decide second).undo closed
  rw [kept] at current
  have outdated := (current.undo closed').decide again
  rw [lost] at outdated
  refine ⟨z₃, z₅, ⟨current, level, current.asserts level⟩, outdated, level', ?_⟩
  rintro ⟨_, _, same, _, others⟩
  obtain ⟨rfl, rfl⟩ : _ = Lit.of ⟨1⟩ false ∧ _ = [Lit.of ⟨0⟩ false] := by simpa [lesson] using same.symm
  have := others _ (List.mem_singleton_self _)
  rw [true_] at this
  cases this

end Stepper

end ModelCounting
