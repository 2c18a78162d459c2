import ModelCounting.Proofs.Search.Stepping

/-!
Levels opened and closed in pairs. Whatever is decided, undone, learnt and reported between the
opening of a level and its closing, the closing gives back the trail of before: its literals, their
levels and reasons, the starts of the levels and the place up to which the consequences are drawn.
Clauses that were learnt in between stay, behind those that were stored before.
-/

namespace ModelCounting

/-! The trail. -/

namespace Trail

variable {t t' t₁ t₂ : Trail}

/-- The second trail is the first, except for the levels of unassigned variables. -/
structure Restored (t t' : Trail) : Prop where
  varCount_eq : t'.varCount = t.varCount
  lits_eq : t'.lits = t.lits
  starts_eq : t'.starts = t.starts
  head_eq : t'.head = t.head
  value_eq : ∀ l, t'.value l = t.value l
  level_eq : ∀ l ∈ t.lits, t'.level l.var = t.level l.var
  reason_eq : ∀ v, t'.reason v = t.reason v

theorem Grows.lits_eq (grows : t.Grows t') (size : t'.lits.size = t.lits.size) :
    t'.lits = t.lits := by
  refine Array.ext size fun i _ inside => ?_
  have old := grows.keeps i _ (Array.getElem?_eq_getElem inside)
  exact (Array.getElem?_eq_some_iff.mp old).2

theorem Faithful.value_congr (faithful : t.Faithful) (faithful' : t'.Faithful)
    (same : t'.lits = t.lits) (l : Lit) : t'.value l = t.value l := by
  have true_iff : t'.value l = .tru ↔ t.value l = .tru := by
    rw [faithful.true_iff, faithful'.true_iff, same]
  have false_iff : t'.value l = .fls ↔ t.value l = .fls := by
    rw [faithful.false_iff, faithful'.false_iff, same]
  rcases t.value_cases l with here | here | here
  · rw [here, true_iff.mpr here]
  · rw [here, false_iff.mpr here]
  · rcases t'.value_cases l with there | there | there
    · rw [true_iff.mp there] at here
      cases here
    · rw [false_iff.mp there] at here
      cases here
    · rw [here, there]

theorem Grows.restored (grows : t.Grows t') (wf : t.WellFormed) (wf' : t'.WellFormed)
    (size : t'.lits.size = t.lits.size) (drained : t.head = t.lits.size)
    (drained' : t'.head = t'.lits.size) : t.Restored t' where
  varCount_eq := grows.varCount_eq
  lits_eq := grows.lits_eq size
  starts_eq := grows.starts_eq
  head_eq := by rw [drained', size, drained]
  value_eq := wf.toFaithful.value_congr wf'.toFaithful (grows.lits_eq size)
  level_eq := grows.level_eq
  reason_eq v := by
    by_cases assigned : t.valueVar v = .undef
    · rw [wf.unreasoned v assigned, wf'.unreasoned v (grows.undef_of_size wf wf' size assigned)]
    · obtain ⟨l, member, rfl⟩ := wf.exists_mem assigned
      exact grows.reason_eq l member

end Trail

/-! What is spared. -/

namespace Solver

variable {s s' s'' : Solver} {l : Lit}

/-- A solver that is driven from outside changes its engine, what it learnt and what steers its
search, and nothing else. Of the stored clauses it changes the order of the literals, and it stores
what it learns behind them. -/
structure Spares (s s' : Solver) : Prop where
  only : s' = { s with
    engine := s'.engine
    learnts := s'.learnts
    branching := s'.branching
    seen := s'.seen
    clauseIncrement := s'.clauseIncrement }
  learnts : s.learnts.toList <+: s'.learnts.toList
  stored : s.engine.bank.slots.size ≤ s'.engine.bank.slots.size
  perm : ∀ r : ClauseRef, r.slot < s.engine.bank.slots.size →
    (s'.engine.bank.lits r).Perm (s.engine.bank.lits r)
  freed_eq : s'.engine.bank.freed = s.engine.bank.freed

theorem Spares.refl (s : Solver) : s.Spares s :=
  ⟨rfl, List.prefix_rfl, Nat.le_refl _, fun _ _ => .refl _, rfl⟩

theorem Spares.trans (first : s.Spares s') (second : s'.Spares s'') : s.Spares s'' where
  only := second.only.trans (congrArg (fun x : Solver => { x with
    engine := s''.engine
    learnts := s''.learnts
    branching := s''.branching
    seen := s''.seen
    clauseIncrement := s''.clauseIncrement }) first.only)
  learnts := first.learnts.trans second.learnts
  stored := Nat.le_trans first.stored second.stored
  perm r inside := (second.perm r (Nat.lt_of_lt_of_le inside first.stored)).trans (first.perm r inside)
  freed_eq := second.freed_eq.trans first.freed_eq

theorem Spares.of_same {engine : Engine} {branching : Branching} {seen : Array Bool} {x : Float}
    (same : s.engine.bank.SameLits engine.bank) :
    s.Spares { s with engine, branching, seen, clauseIncrement := x } :=
  ⟨rfl, List.prefix_rfl, Nat.le_of_eq same.slots_eq.symm, fun r _ => .of_eq (same.lits_eq r),
    same.freed_eq⟩

theorem assign_spares {reason : Option ClauseRef} (run : s.assign l reason = .ok s') :
    s.Spares s' := by
  simp only [Solver.assign, bind_ok, pure_ok] at run
  obtain ⟨engine, assigned, rfl⟩ := run
  unfold Engine.assign at assigned
  split at assigned
  · cases assigned
    exact .of_same (.refl _)
  · cases assigned

theorem Steady.propagate_spares {conflict : Option ClauseRef} (steady : s.Steady)
    (run : s.propagate = .ok (conflict, s')) : s.Spares s' := by
  simp only [Solver.propagate, bind_ok, pure_ok, Prod.exists, Prod.mk.injEq] at run
  obtain ⟨_, engine, propagated, rfl, rfl⟩ := run
  obtain ⟨_, spread, _⟩ := Engine.propagate_spread steady.trail steady.ranged propagated
  exact ⟨rfl, List.prefix_rfl, Nat.le_of_eq spread.slots.symm, fun r _ => spread.perm r, spread.freed⟩

theorem analyze_spares {r : ClauseRef} {lesson : Lesson} (run : s.analyze r = .ok (lesson, s')) :
    s.Spares s' := by
  simp only [Solver.analyze, bind_ok, pure_ok, Prod.exists, Prod.mk.injEq] at run
  obtain ⟨_, a, _, branching, _, rfl, rfl⟩ := run
  rw [← Array.foldl_toList]
  obtain ⟨bank, x, bumped, same⟩ := bumpClauses_eq { s with seen := a.seen } a.clauses.toList
  rw [bumped]
  exact .of_same same

theorem Steady.backTo_spares {level : Nat} (steady : s.Steady) (below : level < s.depth)
    (run : s.backTo level = .ok s') : s.Spares s' := by
  obtain ⟨trail, branching, rfl, _⟩ := backTo_lowered steady.trail below run
  exact .of_same (.refl _)

theorem alloc_behind {b b' : ClauseBank} {lits : Array Lit} {learnt : Bool} {r : ClauseRef}
    (unfreed : b.freed = []) (run : b.alloc lits learnt = (r, b')) :
    b'.slots.size = b.slots.size + 1 ∧ b'.freed = b.freed ∧
      ∀ q : ClauseRef, q.slot < b.slots.size → b'.lits q = b.lits q := by
  unfold ClauseBank.alloc at run
  rw [unfreed] at run
  cases run
  refine ⟨Array.size_push _, unfreed.symm, fun q inside => ?_⟩
  simp [ClauseBank.lits, ClauseBank.get, Array.getD_eq_getD_getElem?, Array.getElem?_push,
    Nat.ne_of_lt inside]

theorem learn_spares {lits : Array Lit} (unfreed : s.engine.bank.freed = [])
    (run : s.learn lits = .ok s') : s.Spares s' := by
  unfold Solver.learn at run
  by_cases single : lits.size = 1
  · rw [if_pos single] at run
    exact assign_spares run
  · rw [if_neg single] at run
    generalize allocated : s.engine.bank.alloc lits true = allocation at run
    obtain ⟨r, bank⟩ := allocation
    obtain ⟨engine, attached, run⟩ := bind_ok.mp run
    obtain ⟨_, kept⟩ := attach_finishes.answer _ attached
    obtain ⟨size, freed, old⟩ := alloc_behind unfreed allocated
    obtain ⟨bank', x, bumped, same⟩ := bumpClause_eq { s with engine } r
    change (s.record engine r).assign _ _ = _ at run
    have recorded : s.Spares (s.record engine r) := by
      unfold Solver.record
      rw [bumped]
      simp only [kept] at same
      refine ⟨rfl, ?_, ?_, fun q inside => .of_eq ((same.lits_eq q).trans (old q inside)),
        same.freed_eq.trans freed⟩
      · rw [Array.toList_push]
        exact List.prefix_append _ _
      · change _ ≤ bank'.slots.size
        rw [same.slots_eq, size]
        exact Nat.le_succ _
    exact recorded.trans (assign_spares run)

theorem decay_spares (s : Solver) : s.Spares s.decay := .of_same (.refl _)

/-- A clause that is added leaves nothing to propagate and frees nothing. -/
theorem Steady.addClause_drained {ls : List Lit} {answer : Bool} (steady : s.Steady)
    (drained : s.trail.head = s.trail.lits.size) (unfreed : s.engine.bank.freed = [])
    (inside : ∀ l ∈ ls, l.var.id < s.varCount) (run : s.addClause ls = .ok (answer, s')) :
    s'.trail.head = s'.trail.lits.size ∧ s'.engine.bank.freed = [] := by
  obtain ⟨_, ⟨_, rfl⟩ | ⟨_, t, reserved, takes⟩⟩ := addClause_takes run
  · exact ⟨drained, unfreed⟩
  cases (reserve_inside inside).symm.trans reserved
  cases takes with
  | satisfied | falsified => exact ⟨drained, unfreed⟩
  | @unit t _ l _ simplified assigned propagated =>
    have within : l.var.id < s.varCount := inside l
      (((sortLits_ok ls).2 l).mp ((simplify_some simplified).1.subset List.mem_cons_self))
    obtain ⟨steady₁, _⟩ := (steady.assign within).answer _ assigned
    obtain ⟨_, _, drained'⟩ := steady₁.propagate.answer _ propagated
    have freed := ((assign_spares assigned).trans (steady₁.propagate_spares propagated)).freed_eq
    exact ⟨drained', freed.trans unfreed⟩
  | stored simplified allocated attached =>
    obtain ⟨trail, kept⟩ := attach_finishes.answer _ attached
    obtain ⟨_, freed, _⟩ := alloc_behind unfreed allocated
    constructor
    · change (Engine.trail _).head = (Engine.trail _).lits.size
      rw [trail]
      exact drained
    · rw [kept, freed, unfreed]

end Solver

namespace Stepper

variable {p q r t : Stepper} {v : Var} {phase b : Bool}

/-- What driving a stepper leaves alone. -/
structure Spares (p q : Stepper) : Prop where
  core : p.core.Spares q.core
  numbers_eq : q.numbers = p.numbers
  names_eq : q.names = p.names

theorem Spares.refl (p : Stepper) : p.Spares p := ⟨.refl _, rfl, rfl⟩

theorem Spares.trans (first : p.Spares q) (second : q.Spares r) : p.Spares r :=
  ⟨first.core.trans second.core, second.numbers_eq.trans first.numbers_eq,
    second.names_eq.trans first.names_eq⟩

theorem settle_spares (steady : p.core.Steady) (run : p.settle = .ok (b, q)) : p.Spares q := by
  obtain ⟨⟨conflict, s⟩, propagated, run⟩ := bind_ok.mp run
  have spread := steady.propagate_spares propagated
  cases conflict with
  | none =>
    cases run
    exact ⟨spread, rfl, rfl⟩
  | some r =>
    simp only at run
    split at run
    · obtain ⟨⟨lesson, s'⟩, analyzed, run⟩ := bind_ok.mp run
      cases run
      exact ⟨spread.trans (Solver.analyze_spares analyzed), rfl, rfl⟩
    · cases run
      exact ⟨spread, rfl, rfl⟩

theorem Steady.decide_spares (steady : p.Steady) (run : p.decide v phase = .ok (b, q)) :
    p.Spares q := by
  have opened := steady.core.openLevel steady.drained
  have unassigned : p.core.Spares p.core.openLevel := .of_same (.refl _)
  obtain ⟨value, known, run⟩ := bind_ok.mp run
  cases value with
  | fls =>
    cases run
    exact ⟨unassigned, rfl, rfl⟩
  | tru => cases run
  | undef =>
    obtain ⟨s, assigned, run⟩ := bind_ok.mp run
    have inside : (Lit.packed v phase).var.id < p.core.openLevel.varCount := by
      unfold Solver.valueOf at known
      split at known
      · assumption
      · cases known
    obtain ⟨steady', _⟩ := (opened.assign inside).answer s assigned
    have settled := settle_spares steady' run
    exact ⟨(unassigned.trans (Solver.assign_spares assigned)).trans settled.core,
      settled.numbers_eq, settled.names_eq⟩

theorem Steady.undo_spares (steady : p.Steady) (run : p.undo v = .ok q) : p.Spares q := by
  unfold Stepper.undo at run
  split at run
  · cases run
  · obtain ⟨s, lowered, run⟩ := bind_ok.mp run
    cases run
    exact ⟨steady.core.backTo_spares (by omega) lowered, rfl, rfl⟩

theorem Steady.assertLesson_spares (steady : p.Steady) (unfreed : p.core.engine.bank.freed = [])
    (run : p.assertLesson = .ok (b, q)) : p.Spares q := by
  unfold Stepper.assertLesson at run
  split at run
  · cases run
  split at run
  · cases run
  rename_i lits same
  obtain ⟨s, learnt, run⟩ := bind_ok.mp run
  obtain ⟨filled, inside⟩ := steady.lesson lits same
  obtain ⟨steady', _⟩ := (steady.core.learn filled inside).answer s learnt
  have decayed : s.decay.Steady := ⟨steady'.trail, steady'.ranged⟩
  have settled := settle_spares decayed run
  have taught := (Solver.learn_spares unfreed learnt).trans (Solver.decay_spares s)
  exact ⟨taught.trans settled.core, settled.numbers_eq, settled.names_eq⟩

theorem newlyImplied_same {known : IndexSet} {s s' : Store} {f : Formula}
    (run : p.newlyImplied known s = .ok (f, q, s')) : q = { p with unreported := false } := by
  obtain ⟨_, _, run⟩ := bind_ok.mp run
  cases run
  rfl

/-! Steppers that are reached. -/

/-- Nothing is left to propagate, no slot was freed, each variable has a name, and the numbers are of
variables there are. -/
structure Sound (p : Stepper) : Prop extends Steady p where
  count : p.core.varCount = p.names.size
  inside : ∀ {v i : Var}, p.numbers[v]? = some i → i.id < p.core.varCount
  unfreed : p.core.engine.bank.freed = []

theorem Sound.spares (sound : p.Sound) (steady : q.Steady) (spares : p.Spares q)
    (count : q.core.varCount = p.core.varCount) : q.Sound :=
  ⟨steady, by rw [count, sound.count, spares.names_eq],
    fun known => count ▸ sound.inside (spares.numbers_eq ▸ known),
    spares.core.freed_eq.trans sound.unfreed⟩

structure Continues (p q : Stepper) : Prop where
  sound : q.Sound
  grows : p.core.trail.Grows q.core.trail
  spares : p.Spares q

theorem Continues.refl (sound : p.Sound) : p.Continues p := ⟨sound, .refl _, .refl _⟩

theorem Continues.trans (first : p.Continues q) (second : q.Continues r) : p.Continues r :=
  ⟨second.sound, first.grows.trans second.grows, first.spares.trans second.spares⟩

theorem Sound.decide (sound : p.Sound) (run : p.decide v phase = .ok (b, q)) :
    q.Sound ∧ p.core.trail.openLevel.Grows q.core.trail ∧ p.Spares q := by
  obtain ⟨steady, grows, _⟩ := sound.toSteady.decide.answer _ run
  have spares := sound.toSteady.decide_spares run
  exact ⟨sound.spares steady spares grows.varCount_eq, grows, spares⟩

theorem Sound.undo (sound : p.Sound) (run : p.undo v = .ok q) :
    q.Sound ∧ p.core.trail.Lowered (p.core.depth - 1) q.core.trail ∧ p.Spares q := by
  obtain ⟨steady, lowered⟩ := sound.toSteady.undo.answer _ run
  have spares := sound.toSteady.undo_spares run
  exact ⟨sound.spares steady spares lowered.varCount_eq, lowered, spares⟩

theorem Sound.assertLesson (sound : p.Sound) (run : p.assertLesson = .ok (b, q)) :
    p.Continues q := by
  obtain ⟨steady, grows, _⟩ := sound.toSteady.assertLesson.answer _ run
  have spares := sound.toSteady.assertLesson_spares sound.unfreed run
  exact ⟨sound.spares steady spares grows.varCount_eq, grows, spares⟩

theorem Sound.newlyImplied {known : IndexSet} {s s' : Store} {f : Formula} (sound : p.Sound)
    (run : p.newlyImplied known s = .ok (f, q, s')) : p.Continues q := by
  rw [newlyImplied_same run]
  exact ⟨⟨⟨sound.core, sound.drained, sound.lesson⟩, sound.count, sound.inside, sound.unfreed⟩,
    .refl _, ⟨.refl _, rfl, rfl⟩⟩

theorem Sound.start (sound : p.Sound) (run : p.start = .ok (b, q)) : p.Continues q := by
  unfold Stepper.start at run
  simp only at run
  split at run
  · obtain ⟨⟨conflict, s⟩, propagated, run⟩ := bind_ok.mp run
    cases run
    obtain ⟨steady, grows, drained⟩ := sound.core.propagate.answer _ propagated
    have spares := sound.core.propagate_spares propagated
    have count : s.varCount = p.core.varCount := grows.varCount_eq
    exact ⟨⟨⟨steady, drained, fun lits same => count ▸ sound.lesson lits same⟩,
      count.trans sound.count, fun known => count ▸ sound.inside known,
      spares.freed_eq.trans sound.unfreed⟩, grows, ⟨spares, rfl, rfl⟩⟩
  · cases run
    exact ⟨⟨⟨sound.core, sound.drained, sound.lesson⟩, sound.count, sound.inside, sound.unfreed⟩,
      .refl _, ⟨.refl _, rfl, rfl⟩⟩

theorem Sound.number {i : Var} (sound : p.Sound) (run : p.number v = .ok (i, q)) :
    q.Sound ∧ i.id < q.core.varCount ∧ p.core.varCount ≤ q.core.varCount := by
  unfold Stepper.number at run
  split at run
  · rename_i known
    cases run
    exact ⟨sound, sound.inside known, Nat.le_refl _⟩
  · simp only [bind_ok, pure_ok, Prod.exists, Prod.mk.injEq] at run
    obtain ⟨w, core, added, rfl, rfl⟩ := run
    obtain ⟨steady, count, new⟩ := sound.core.newVar added
    have le : p.core.varCount ≤ core.varCount := by omega
    have below : w.id < core.varCount := by omega
    simp only [Solver.newVar, bind_ok, pure_ok, Prod.mk.injEq] at added
    obtain ⟨branching, _, rfl, rfl⟩ := added
    refine ⟨⟨⟨steady, sound.drained, fun lits same => ?_⟩, ?_, fun {u j} known => ?_,
      sound.unfreed⟩, below, le⟩
    · obtain ⟨filled, inside⟩ := sound.lesson lits same
      exact ⟨filled, fun l member => Nat.lt_of_lt_of_le (inside l member) le⟩
    · rw [count, sound.count, Array.size_push]
    · rw [Std.TreeMap.getElem?_insert] at known
      split at known
      · cases known
        exact below
      · exact Nat.lt_of_lt_of_le (sound.inside known) le

theorem Sound.numberLits {ls ms : List Lit} (sound : p.Sound) (run : p.numberLits ls = .ok (ms, q)) :
    q.Sound ∧ (∀ m ∈ ms, m.var.id < q.core.varCount) ∧ p.core.varCount ≤ q.core.varCount := by
  induction ls generalizing p ms with
  | nil =>
    cases run
    exact ⟨sound, by simp, Nat.le_refl _⟩
  | cons l ls ih =>
    simp only [Stepper.numberLits, bind_ok, pure_ok, Prod.exists, Prod.mk.injEq] at run
    obtain ⟨i, p₁, first, ms', p₂, rest, rfl, rfl⟩ := run
    obtain ⟨sound₁, below, le₁⟩ := sound.number first
    obtain ⟨sound₂, inside, le₂⟩ := ih sound₁ rest
    refine ⟨sound₂, fun m member => ?_, Nat.le_trans le₁ le₂⟩
    rcases List.mem_cons.mp member with rfl | member
    · rw [Lit.var_of]
      exact Nat.lt_of_lt_of_le below le₂
    · exact inside m member

theorem Sound.addClause {ls : List Lit} (sound : p.Sound) (run : p.addClause ls = .ok q) :
    q.Sound := by
  simp only [Stepper.addClause, bind_ok, pure_ok, Prod.exists] at run
  obtain ⟨ms, p₁, renamed, answer, core, added, rfl⟩ := run
  obtain ⟨sound₁, inside, _⟩ := sound.numberLits renamed
  obtain ⟨steady, count⟩ := sound₁.core.addClause inside added
  obtain ⟨drained, unfreed⟩ := sound₁.core.addClause_drained sound₁.drained sound₁.unfreed inside added
  exact ⟨⟨steady, drained, fun lits same => count ▸ sound₁.lesson lits same⟩,
    count.trans sound₁.count, fun known => count ▸ sound₁.inside known, unfreed⟩

theorem Sound.add {s : Store} {f : Formula} (sound : p.Sound) (run : p.add s f = .ok q) :
    q.Sound := by
  simp only [Stepper.add, bind_ok] at run
  obtain ⟨clauses, _, run⟩ := run
  exact foldlM_ok Sound (fun _ _ _ _ sound run => sound.addClause run) sound run

theorem Sound.fresh (settings : Settings) : Sound { core := { settings } } where
  core := ⟨.empty, fun r l member => by simp [ClauseBank.lits, ClauseBank.get] at member⟩
  drained := rfl
  lesson := nofun
  count := rfl
  inside known := by simp at known
  unfreed := rfl

/-- The steppers that calls lead to, in whatever order the caller makes them. -/
inductive Driven (settings : Settings) : Stepper → Prop
  | fresh : Driven settings { core := { settings } }
  | add {p q : Stepper} {s : Store} {f : Formula} (before : Driven settings p)
      (run : p.add s f = .ok q) : Driven settings q
  | start {p q : Stepper} {b : Bool} (before : Driven settings p) (run : p.start = .ok (b, q)) :
      Driven settings q
  | decide {p q : Stepper} {v : Var} {phase b : Bool} (before : Driven settings p)
      (run : p.decide v phase = .ok (b, q)) : Driven settings q
  | undo {p q : Stepper} {v : Var} (before : Driven settings p) (run : p.undo v = .ok q) :
      Driven settings q
  | assertLesson {p q : Stepper} {b : Bool} (before : Driven settings p)
      (run : p.assertLesson = .ok (b, q)) : Driven settings q
  | newlyImplied {p q : Stepper} {known : IndexSet} {s s' : Store} {f : Formula}
      (before : Driven settings p) (run : p.newlyImplied known s = .ok (f, q, s')) :
      Driven settings q

theorem Driven.sound {settings : Settings} (driven : Driven settings p) : p.Sound := by
  induction driven with
  | fresh => exact .fresh settings
  | add _ run ih => exact ih.add run
  | start _ run ih => exact (ih.start run).sound
  | decide _ run ih => exact (ih.decide run).1
  | undo _ run ih => exact (ih.undo run).1
  | assertLesson _ run ih => exact (ih.assertLesson run).sound
  | newlyImplied _ run ih => exact (ih.newlyImplied run).sound

/-! Brackets. -/

/-- What a caller does between opening a level and closing it: it opens levels and closes each again,
has lessons asserted, whether or not they are unit, and asks what was implied. -/
inductive Within : Stepper → Stepper → Prop
  | done {p : Stepper} : Within p p
  | level {p q r t u : Stepper} {v : Var} {phase b : Bool} (opened : p.decide v phase = .ok (b, q))
      (inner : Within q r) (closed : r.undo v = .ok t) (rest : Within t u) : Within p u
  | lesson {p q r : Stepper} {b : Bool} (asserted : p.assertLesson = .ok (b, q))
      (rest : Within q r) : Within p r
  | report {p q r : Stepper} {known : IndexSet} {s s' : Store} {f : Formula}
      (reported : p.newlyImplied known s = .ok (f, q, s')) (rest : Within q r) : Within p r

/-- The second stepper is the first but for what was learnt, the order in stored clauses, the watch
lists, what steers the search, the levels of unassigned variables, and the notes on the last conflict
and on what is to be reported. -/
structure Restores (p q : Stepper) : Prop where
  trail : p.core.trail.Restored q.core.trail
  spares : p.Spares q

theorem Restores.continues (restores : p.Restores q) (sound : q.Sound) : p.Continues q where
  sound := sound
  grows := ⟨restores.trail.varCount_eq, restores.trail.starts_eq,
    fun _ _ here => restores.trail.lits_eq ▸ here, restores.trail.level_eq,
    fun l _ => restores.trail.reason_eq l.var⟩
  spares := restores.spares

theorem Sound.close (sound : p.Sound) (opened : p.decide v phase = .ok (b, q))
    (inner : q.Continues r) (closed : r.undo v = .ok t) : t.Sound ∧ p.Restores t := by
  obtain ⟨_, grows, spares⟩ := sound.decide opened
  obtain ⟨sound', lowered, spares'⟩ := inner.sound.undo closed
  have grows := grows.trans inner.grows
  have depth : r.core.depth - 1 = p.core.trail.depth := by
    rw [Solver.depth, grows.depth_eq, Trail.depth, Trail.openLevel, Array.size_push]
    rfl
  rw [depth] at lowered
  have wf := sound.core.trail
  refine ⟨sound', ?_, (spares.trans inner.spares).trans spares'⟩
  exact (grows.closed wf lowered).restored wf sound'.core.trail (grows.closed_size lowered)
    sound.drained sound'.drained

theorem Within.continues (within : Within p q) (sound : p.Sound) : p.Continues q := by
  induction within with
  | done => exact .refl sound
  | level opened _ closed _ inner rest =>
    obtain ⟨sound', restores⟩ := sound.close opened (inner (sound.decide opened).1) closed
    exact (restores.continues sound').trans (rest sound')
  | lesson asserted _ rest =>
    have taught := sound.assertLesson asserted
    exact taught.trans (rest taught.sound)
  | report reported _ rest =>
    have continues := sound.newlyImplied reported
    exact continues.trans (rest continues.sound)

/-- A level that is opened and closed again leaves no trace in the assignment, whatever the caller
did in between. -/
theorem Driven.restores {settings : Settings} (driven : Driven settings p)
    (opened : p.decide v phase = .ok (b, q)) (inner : Within q r) (closed : r.undo v = .ok t) :
    p.Restores t :=
  have sound := driven.sound
  (sound.close opened (inner.continues (sound.decide opened).1) closed).2

/-- Two levels, a conflict in the upper one and its lesson asserted in the lower one. -/
theorem restores_conflict : ∃ p q r t, Driven {} p ∧ p.decide ⟨0⟩ true = .ok (true, q) ∧
    Within q r ∧ r.undo ⟨0⟩ = .ok t ∧ p.Restores t ∧ t.core.learnts.size = 1 := by
  have ran : (do
      let c := Store.initial.clause [.of ⟨0⟩ false, .of ⟨1⟩ false, .of ⟨2⟩ true]
      let d := c.2.clause [.of ⟨0⟩ false, .of ⟨1⟩ false, .of ⟨2⟩ false]
      let both := d.2.conj [c.1, d.1]
      let p ← Stepper.add {} both.2 both.1
      let z₁ ← p.decide ⟨0⟩ true
      let z₂ ← z₁.2.decide ⟨1⟩ true
      let z₃ ← z₂.2.undo ⟨1⟩
      let z₄ ← z₃.assertLesson
      let z₅ ← z₄.2.undo ⟨0⟩
      return Decidable.decide (z₁.1 = true ∧ z₅.core.learnts.size = 1) : Except Fault Bool) =
        .ok true := by decide +kernel
  simp only [bind_ok, pure_ok, Prod.exists] at ran
  obtain ⟨p, added, _, z₁, first, _, z₂, second, z₃, undone, _, z₄, taught, z₅, closed, facts⟩ := ran
  obtain ⟨rfl, learnt⟩ := of_decide_eq_true facts
  have inner : Within z₁ z₄ := .level second .done undone (.lesson taught .done)
  have driven : Driven {} p := .add .fresh added
  exact ⟨p, z₁, z₄, z₅, driven, first, inner, closed, driven.restores first inner closed, learnt⟩

end Stepper

end ModelCounting
