import ModelCounting.Proofs.Numbering
import ModelCounting.Proofs.Search.Readiness
import ModelCounting.Proofs.Search.Solving
import ModelCounting.Proofs.Search.Stepping

/-!
A solver driven with care. Where no conflict is open, an unassigned variable can be decided. A
conflict leaves a lesson for a lower level. Closing levels one by one leads to that level, and there
the lesson is unit: its first literal is unassigned and its others are false, so it can be asserted.
None of these steps fails.
-/

namespace ModelCounting

namespace Stepper

variable {Γ : List (List Lit)} {p q : Stepper} {v : Var} {l : Lit} {phase : Bool} {bound : Nat}

/-- The kept lesson is unit: its first literal is unassigned, and all others are false. -/
def UnitLesson (p : Stepper) : Prop :=
  ∃ first others, p.lesson = some ⟨first :: others⟩ ∧ p.value first = .undef ∧
    ∀ l ∈ others, p.value l = .fls

structure Fit (Γ : List (List Lit)) (p : Stepper) : Prop where
  core : p.core.Poised Γ
  drained : p.core.trail.head = p.core.trail.lits.size
  count : p.core.varCount = p.names.size
  words : p.names.size ≤ 0x80000000

def Retains (Γ : List (List Lit)) (bound : Nat) (p : Stepper) : Prop :=
  (p.lesson = none ∧ p.assertionLevel = none) ∨
    ∃ lits level, p.lesson = some lits ∧ p.assertionLevel = some level ∧
      p.core.Pending Γ lits level ∧ level < bound

structure Clear (Γ : List (List Lit)) (p : Stepper) : Prop extends Fit Γ p where
  drawn : Engine.Drawn p.core.Live p.core.engine p.core.trail.head

structure Blocked (Γ : List (List Lit)) (p : Stepper) : Prop extends Fit Γ p where
  drawn : ∃ n, Engine.Drawn p.core.Live p.core.engine n ∧ ∀ m ∈ p.core.trail.starts, m ≤ n

structure Calm (Γ : List (List Lit)) (p : Stepper) : Prop extends Fit Γ p where
  drawn : Engine.Drawn p.core.Live p.core.engine p.core.trail.head
  untaught : p.lesson = none
  unleveled : p.assertionLevel = none

structure Failed (Γ : List (List Lit)) (p : Stepper) : Prop extends Fit Γ p where
  drawn : ∃ n, Engine.Drawn p.core.Live p.core.engine n ∧ ∀ m ∈ p.core.trail.starts, m ≤ n
  retains : p.Retains Γ p.core.depth

structure Recovered (Γ : List (List Lit)) (p : Stepper) : Prop extends Fit Γ p where
  drawn : Engine.Drawn p.core.Live p.core.engine p.core.trail.head
  retains : p.Retains Γ (p.core.depth + 1)

theorem Clear.blocked (clear : p.Clear Γ) : p.Blocked Γ where
  toFit := clear.toFit
  drawn := ⟨_, clear.drawn, clear.core.engine.trail.starts_le⟩

theorem Calm.clear (calm : p.Calm Γ) : p.Clear Γ := ⟨calm.toFit, calm.drawn⟩

theorem Failed.blocked (failed : p.Failed Γ) : p.Blocked Γ := ⟨failed.toFit, failed.drawn⟩

theorem Calm.failed (calm : p.Calm Γ) : p.Failed Γ where
  toFit := calm.toFit
  drawn := calm.clear.blocked.drawn
  retains := .inl ⟨calm.untaught, calm.unleveled⟩

theorem Fit.steady (fit : p.Fit Γ) (retains : p.Retains Γ bound) : p.Steady where
  core := ⟨fit.core.engine.trail, fit.core.engine.stored.inside⟩
  drained := fit.drained
  lesson lits same := by
    rcases retains with ⟨none, _⟩ | ⟨lits', _, some, _, pending, _⟩
    · rw [none] at same
      cases same
    · obtain rfl := Option.some.inj (some.symm.trans same)
      exact ⟨pending.filled, pending.inside⟩

theorem Failed.steady (failed : p.Failed Γ) : p.Steady := failed.toFit.steady failed.retains

theorem Recovered.steady (recovered : p.Recovered Γ) : p.Steady :=
  recovered.toFit.steady recovered.retains

/-! Names. -/

theorem nameOf_delivers (inside : v.id < p.names.size) : Delivers (p.nameOf v) fun _ => True := by
  unfold nameOf
  rw [Array.getElem?_eq_getElem inside]
  exact .ok trivial

theorem litOf_delivers (inside : l.var.id < p.names.size) : Delivers (p.litOf l) fun _ => True :=
  (nameOf_delivers inside).bind fun _ _ _ => .pure trivial

theorem Fit.newlyImplied {known : IndexSet} {s : Store} (fit : p.Fit Γ) :
    Delivers (p.newlyImplied known s) fun x => x.2.1 = { p with unreported := false } := by
  refine (Delivers.mapM fun l member => litOf_delivers ?_).bind fun _ _ _ => .pure rfl
  rw [← fit.count]
  refine fit.core.engine.trail.var_lt ?_
  unfold consequences at member
  split at member
  · exact Array.mem_toList_iff.mp (List.mem_of_mem_drop (List.mem_filter.mp member).1)
  · cases member

/-! Steps. -/

/-- Propagation leaves a lesson alone, unless a conflict leaves its own. -/
theorem settle_clears (core : p.core.Poised Γ)
    (drawn : Engine.Drawn p.core.Live p.core.engine p.core.trail.head)
    (count : p.core.varCount = p.names.size) (words : p.names.size ≤ 0x80000000) :
    Delivers p.settle fun x =>
      (x.1 = true → x.2.Clear Γ ∧ x.2.lesson = p.lesson ∧ x.2.assertionLevel = p.assertionLevel) ∧
        (x.1 = false → x.2.Failed Γ) := by
  refine (core.propagate drawn).bind ?_
  rintro ⟨conflict, s⟩ _ ⟨core', propagated⟩
  simp only at core' propagated
  have count' : s.varCount = p.names.size := propagated.spread.grows.varCount_eq.trans count
  obtain ⟨k, drawn', below, all⟩ := propagated.drawn
  cases conflict with
  | none =>
    have whole : Engine.Drawn s.Live s.engine s.trail.head := by
      rw [Solver.trail, propagated.settled, ← all rfl]
      exact drawn'
    exact .pure ⟨fun _ => ⟨⟨⟨core', propagated.settled, count', words⟩, whole⟩, rfl, rfl⟩,
      fun no => (Bool.false_ne_true no.symm).elim⟩
  | some r =>
    simp only
    split
    · rename_i above
      refine (core'.analyze (propagated.conflicting r rfl) above).bind ?_
      rintro ⟨lesson, s'⟩ _ ⟨core'', tunes, pending, low⟩
      refine .pure ⟨fun yes => (Bool.false_ne_true yes).elim, fun _ => ?_⟩
      have trail : s'.trail = s.trail := tunes.trail
      refine ⟨⟨core'', trail ▸ propagated.settled, ?_, words⟩, ⟨k, tunes.drawn k drawn', ?_⟩,
        .inr ⟨_, _, rfl, rfl, pending, ?_⟩⟩
      · exact (congrArg Trail.varCount trail).trans count'
      · exact trail ▸ below
      · exact Nat.lt_of_lt_of_eq low (congrArg Trail.depth trail).symm
    · exact .pure ⟨fun yes => (Bool.false_ne_true yes).elim, fun _ =>
        ⟨⟨core', propagated.settled, count', words⟩, ⟨k, drawn', below⟩, .inl ⟨rfl, rfl⟩⟩⟩

theorem settle_delivers (core : p.core.Poised Γ)
    (drawn : Engine.Drawn p.core.Live p.core.engine p.core.trail.head)
    (count : p.core.varCount = p.names.size) (words : p.names.size ≤ 0x80000000)
    (untaught : p.lesson = none) (unleveled : p.assertionLevel = none) :
    Delivers p.settle fun x => x.2.Failed Γ ∧ (x.1 = true → x.2.Calm Γ) := by
  refine (settle_clears core drawn count words).mono fun x ⟨clears, fails⟩ => ?_
  have calm (consistent : x.1 = true) : x.2.Calm Γ := by
    obtain ⟨clear, lesson, level⟩ := clears consistent
    exact ⟨clear.toFit, clear.drawn, lesson.trans untaught, level.trans unleveled⟩
  refine ⟨?_, calm⟩
  cases answer : x.1 with
  | true => exact (calm answer).failed
  | false => exact fails answer

theorem packed_eq (small : v.id < 0x80000000) : Lit.packed v phase = Lit.of v phase := by
  unfold Lit.packed Var.truncated
  rw [Nat.mod_eq_of_lt small]

/-- Deciding an unassigned variable. -/
theorem Calm.decide (calm : p.Calm Γ) (inside : v.id < p.core.varCount)
    (unassigned : p.core.trail.valueVar v = .undef) :
    Delivers (p.decide v phase) fun x => x.2.Failed Γ ∧ (x.1 = true → x.2.Calm Γ) ∧
      p.core.trail.openLevel.Grows x.2.core.trail ∧ Lit.of v phase ∈ x.2.core.trail.lits := by
  have small : v.id < 0x80000000 := Nat.lt_of_lt_of_le inside (calm.count ▸ calm.words)
  have value : p.core.openLevel.valueOf (Lit.of v phase) = .ok .undef := by
    unfold Solver.valueOf
    rw [if_pos (by rw [Lit.var_of]; exact inside)]
    exact congrArg Except.ok ((Trail.value_of_var _ _).mpr (by rw [Lit.var_of]; exact unassigned))
  unfold Stepper.decide
  simp only [packed_eq small]
  refine Delivers.bind ⟨_, value, rfl⟩ fun truth _ same => ?_
  subst same
  refine (calm.core.decide (l := .of v phase) calm.drained (by simpa using inside)
    (by simpa using unassigned)).bind fun s _ ⟨core, assigned, drawn⟩ => ?_
  have count : s.varCount = p.names.size := assigned.varCount_eq.trans calm.count
  have settled := settle_delivers (p := { p with unreported := true, core := s }) core
    (drawn calm.drawn) count calm.words calm.untaught calm.unleveled
  have steady : s.Steady := ⟨core.engine.trail, core.engine.stored.inside⟩
  refine (settled.and (settle_finishes steady fun lits same => ?_).answer).mono
    fun x ⟨⟨failed, calm'⟩, _, grows⟩ => ?_
  · rw [calm.untaught] at same
    cases same
  · exact ⟨failed, calm', assigned.toGrows.trans grows, grows.mem assigned.mem⟩

theorem Blocked.undo (blocked : p.Blocked Γ) (above : 0 < p.core.depth) :
    Delivers (p.undo v) fun q => q.Clear Γ ∧ p.core.trail.Lowered (p.core.depth - 1) q.core.trail ∧
      q.lesson = p.lesson ∧ q.assertionLevel = p.assertionLevel := by
  unfold Stepper.undo
  rw [if_neg (Nat.ne_of_gt above)]
  have below : p.core.depth - 1 < p.core.depth := by omega
  refine (blocked.core.backTo below).bind
    fun s _ ⟨core, lowered, drawn⟩ => .pure ⟨?_, lowered, rfl, rfl⟩
  obtain ⟨n, drawn_n, below⟩ := blocked.drawn
  have le : s.trail.lits.size ≤ n := below _ (Array.mem_of_getElem? lowered.start)
  exact ⟨⟨core, lowered.head_eq, lowered.varCount_eq.trans blocked.count, blocked.words⟩,
    drawn n le drawn_n⟩

theorem Retains.lowered {level : Nat} (retains : p.Retains Γ (level + 1))
    (lowered : p.core.trail.Lowered level q.core.trail) (lesson : q.lesson = p.lesson)
    (leveled : q.assertionLevel = p.assertionLevel) : q.Retains Γ (level + 1) := by
  rcases retains with ⟨none, none'⟩ | ⟨lits, k, some, some', pending, low⟩
  · exact .inl ⟨lesson.trans none, leveled.trans none'⟩
  · exact .inr ⟨lits, k, lesson.trans some, leveled.trans some',
      pending.lowered lowered (Nat.le_of_lt_succ low), low⟩

theorem Failed.undo (failed : p.Failed Γ) (above : 0 < p.core.depth) :
    Delivers (p.undo v) fun q => q.Recovered Γ ∧
      p.core.trail.Lowered (p.core.depth - 1) q.core.trail := by
  refine (failed.blocked.undo above).mono fun q ⟨clear, lowered, lesson, level⟩ => ⟨?_, lowered⟩
  have depth : q.core.depth = p.core.depth - 1 := lowered.depth_eq
  have retains : p.Retains Γ (p.core.depth - 1 + 1) := by
    rw [Nat.sub_add_cancel above]
    exact failed.retains
  exact ⟨clear.toFit, clear.drawn, depth ▸ retains.lowered lowered lesson level⟩

theorem Calm.undo (calm : p.Calm Γ) (above : 0 < p.core.depth) :
    Delivers (p.undo v) fun q => q.Calm Γ ∧
      p.core.trail.Lowered (p.core.depth - 1) q.core.trail :=
  (calm.clear.blocked.undo above).mono fun _ ⟨clear, lowered, lesson, level⟩ =>
    ⟨⟨clear.toFit, clear.drawn, lesson.trans calm.untaught, level.trans calm.unleveled⟩, lowered⟩

theorem Recovered.pending (recovered : p.Recovered Γ) (level : p.atAssertionLevel = true) :
    ∃ lits, p.lesson = some lits ∧ p.core.Pending Γ lits p.core.depth := by
  have same : p.assertionLevel = some p.core.depth := by simpa [atAssertionLevel] using level
  rcases recovered.retains with ⟨_, none⟩ | ⟨lits, k, some, some', pending, _⟩
  · rw [none] at same
    cases same
  · obtain rfl := Option.some.inj (some'.symm.trans same)
    exact ⟨lits, some, pending⟩

/-- Back at its level, a lesson is unit. -/
theorem Recovered.unitLesson (recovered : p.Recovered Γ) (level : p.atAssertionLevel = true) :
    p.UnitLesson := by
  obtain ⟨⟨lits⟩, same, pending⟩ := recovered.pending level
  have wf := recovered.core.engine.trail
  cases lits with
  | nil => exact absurd pending.filled (Nat.lt_irrefl 0)
  | cons first others =>
    refine ⟨first, others, same, ?_, fun l member => ?_⟩
    · exact (Trail.value_of_var _ _).mpr (pending.unassigned wf)
    · have apart : l ≠ first := by
        rintro rfl
        exact (List.nodup_cons.mp pending.nodup).1 member
      exact (wf.false_iff l).mpr (pending.others l (by simp [member]) apart).1

theorem Recovered.failed (recovered : p.Recovered Γ) (elsewhere : p.atAssertionLevel = false) :
    p.Failed Γ where
  toFit := recovered.toFit
  drawn := ⟨_, recovered.drawn, recovered.core.engine.trail.starts_le⟩
  retains := by
    rcases recovered.retains with none | ⟨lits, level, some, some', pending, low⟩
    · exact .inl none
    · refine .inr ⟨lits, level, some, some', pending, Nat.lt_of_le_of_ne (Nat.le_of_lt_succ low) ?_⟩
      rintro rfl
      simp [atAssertionLevel, some'] at elsewhere

/-- Asserting the lesson at its level. -/
theorem Recovered.assertLesson (recovered : p.Recovered Γ) (level : p.atAssertionLevel = true) :
    Delivers p.assertLesson fun x => x.2.Failed Γ ∧ (x.1 = true → x.2.Calm Γ) := by
  obtain ⟨lits, same, pending⟩ := recovered.pending level
  unfold Stepper.assertLesson
  rw [level, same]
  refine (recovered.core.learn pending).bind
    fun s _ ⟨core, drawn, _, assigned⟩ => ?_
  have decayed := core.toKnows.congr s.decay rfl rfl rfl rfl rfl rfl
  exact settle_delivers (p := { p with
      unreported := true, core := s.decay, assertionLevel := none, lesson := none })
    ⟨decayed.knows, core.ranked, core.led⟩ (decayed.drawn _ (drawn recovered.drawn))
    (assigned.varCount_eq.trans recovered.count) recovered.words rfl rfl

end Stepper

/-! A stepper that is given its clauses. -/

theorem Solver.addClause_branching {s s' : Solver} {ls : List Lit} {answer : Bool}
    (inside : ∀ l ∈ ls, l.var.id < s.varCount) (run : s.addClause ls = .ok (answer, s')) :
    s'.branching = s.branching := by
  obtain ⟨_, ⟨_, rfl⟩ | ⟨_, t, reserved, takes⟩⟩ := addClause_takes run
  · rfl
  cases (reserve_inside inside).symm.trans reserved
  cases takes with
  | satisfied | falsified | stored => rfl
  | unit simplified assigned propagated =>
    simp only [Solver.assign, Solver.propagate, bind_ok, pure_ok, Prod.exists, Prod.mk.injEq]
      at assigned propagated
    obtain ⟨_, _, rfl⟩ := assigned
    obtain ⟨_, _, _, rfl, rfl⟩ := propagated
    rfl

namespace Stepper

variable {Γ : List (List Lit)} {p q : Stepper} {v : Var}

structure Given (p : Stepper) : Prop extends Numbered p where
  rest : ∃ Γ, p.core.AtRest Γ
  ranked : p.core.branching.activity.size = p.core.varCount
  paired : ∀ (i : Nat) (v : Var), p.names[i]? = some v → p.numbers[v]? = some ⟨i⟩
  unleveled : p.assertionLevel = none

theorem Given.fresh (settings : Settings) : Given { core := { settings } } where
  toNumbered := .fresh settings
  rest := ⟨_, .fresh settings⟩
  ranked := rfl
  paired i v here := by simp at here
  unleveled := rfl

def Renames (p q : Stepper) : Prop := ∀ v i : Var, p.numbers[v]? = some i → q.numbers[v]? = some i

theorem number_renames {i : Var} (run : p.number v = .ok (i, q)) :
    p.Renames q ∧ q.numbers[v]? = some i := by
  unfold Stepper.number at run
  split at run
  · rename_i known
    cases run
    exact ⟨fun _ _ same => same, known⟩
  · rename_i new
    simp only [bind_ok, pure_ok, Prod.exists, Prod.mk.injEq] at run
    obtain ⟨j, core, _, rfl, rfl⟩ := run
    refine ⟨fun w k known => ?_, by simp⟩
    rw [Std.TreeMap.getElem?_insert]
    split
    · rename_i same
      rw [Std.compare_eq_iff_eq] at same
      rw [same, known] at new
      cases new
    · exact known

theorem Given.number {i : Var} (given : p.Given) (run : p.number v = .ok (i, q)) : q.Given := by
  have numbered := (given.toNumbered.number run).1
  have renames := number_renames run
  unfold Stepper.number at run
  split at run
  · cases run
    exact given
  · simp only [bind_ok, pure_ok, Prod.exists, Prod.mk.injEq] at run
    obtain ⟨w, core, added, rfl, rfl⟩ := run
    obtain ⟨Γ, rest⟩ := given.rest
    obtain ⟨_, count, new⟩ := given.core.newVar added
    refine ⟨numbered, ⟨Γ, rest.newVar added⟩, ?_, fun i u here => ?_, given.unleveled⟩
    · simp only [Solver.newVar, bind_ok, pure_ok, Prod.mk.injEq] at added
      obtain ⟨branching, pushed, rfl, rfl⟩ := added
      rw [count]
      exact Branching.addVar_ranked given.ranked pushed
    · rw [Array.getElem?_push] at here
      split at here
      · rename_i last
        cases here
        rw [renames.2, last, ← given.count, ← new]
      · exact renames.1 u _ (given.paired i u here)

theorem Given.numberLits {ls ms : List Lit} (given : p.Given)
    (run : p.numberLits ls = .ok (ms, q)) :
    q.Given ∧ p.Renames q ∧ ∀ l ∈ ls, q.numbers[l.var]? ≠ none := by
  induction ls generalizing p ms with
  | nil =>
    cases run
    exact ⟨given, fun _ _ same => same, by simp⟩
  | cons l ls ih =>
    simp only [Stepper.numberLits, bind_ok, pure_ok, Prod.exists, Prod.mk.injEq] at run
    obtain ⟨i, p₁, first, ms', p₂, rest, rfl, rfl⟩ := run
    obtain ⟨renames, here⟩ := number_renames first
    obtain ⟨given', renames', others⟩ := ih (given.number first) rest
    refine ⟨given', fun w j known => renames' w j (renames w j known), fun m member => ?_⟩
    rcases List.mem_cons.mp member with rfl | member
    · rw [renames' _ _ here]
      exact Option.some_ne_none i
    · exact others m member

theorem Given.addClause {ls : List Lit} (given : p.Given) (run : p.addClause ls = .ok q) :
    q.Given ∧ p.Renames q ∧ ∀ l ∈ ls, q.numbers[l.var]? ≠ none := by
  have numbered := given.toNumbered.addClause run
  simp only [Stepper.addClause, bind_ok, pure_ok, Prod.exists] at run
  obtain ⟨ms, p₁, renamed, answer, core, added, rfl⟩ := run
  obtain ⟨given₁, renames, known⟩ := given.numberLits renamed
  obtain ⟨_, inside, _⟩ := given.toNumbered.numberLits renamed
  obtain ⟨Γ, rest⟩ := given₁.rest
  refine ⟨⟨numbered, ⟨_, rest.addClause added⟩, ?_, given₁.paired, given₁.unleveled⟩, renames, known⟩
  rw [show _ = core.branching from rfl, Solver.addClause_branching inside added]
  exact given₁.ranked.trans (given₁.core.addClause inside added).2.symm

theorem Given.add {s : Store} {f : Formula} {cs : List (List Lit)} (given : p.Given)
    (read : s.clauses f = .ok cs) (run : p.add s f = .ok q) :
    q.Given ∧ ∀ c ∈ cs, ∀ l ∈ c, q.numbers[l.var]? ≠ none := by
  simp only [Stepper.add, read, bind_ok] at run
  obtain ⟨_, ⟨⟩, run⟩ := run
  clear read
  suffices all : q.Given ∧ p.Renames q ∧ ∀ c ∈ cs, ∀ l ∈ c, q.numbers[l.var]? ≠ none from
    ⟨all.1, all.2.2⟩
  induction cs generalizing p with
  | nil =>
    cases run
    exact ⟨given, fun _ _ same => same, by simp⟩
  | cons c cs ih =>
    simp only [List.foldlM_cons, bind_ok] at run
    obtain ⟨p₁, first, rest⟩ := run
    obtain ⟨given₁, renames, known⟩ := given.addClause first
    obtain ⟨given', renames', others⟩ := ih given₁ rest
    refine ⟨given', fun w j same => renames' w j (renames w j same), fun d member l inside => ?_⟩
    rcases List.mem_cons.mp member with rfl | member
    · obtain ⟨i, here⟩ := Option.ne_none_iff_exists'.mp (known l inside)
      rw [renames' _ _ here]
      exact nofun
    · exact others d member l inside

/-- Names are distinct, so there are no more of them than literals fit a word. -/
theorem Given.words (given : p.Given) (fits : p.NamesIn fun v => 2 * v.id + 1 < Node.wordLimit) :
    p.names.size ≤ 0x80000000 := by
  have nodup : (p.names.toList.map Var.id).Nodup := by
    rw [List.nodup_iff_pairwise_ne, List.pairwise_iff_getElem]
    intro i j hi hj before same
    simp only [List.length_map, Array.length_toList] at hi hj
    simp only [List.getElem_map, Array.getElem_toList] at same
    have first := given.paired i _ (Array.getElem?_eq_getElem hi)
    rw [Var.ext same, given.paired j _ (Array.getElem?_eq_getElem hj)] at first
    have := congrArg Var.id (Option.some.inj first)
    simp only at this
    omega
  have inside : p.names.toList.map Var.id ⊆ List.range 0x80000000 := by
    intro n member
    obtain ⟨v, here, rfl⟩ := List.mem_map.mp member
    have := fits v (by simpa using here)
    simp only [Node.wordLimit] at this
    exact List.mem_range.mpr (by omega)
  have := (nodup.subperm inside).length_le
  simpa using this

/-- Starting, a stepper finds the clauses contradictory or comes to rest. -/
theorem Given.start_calm (given : p.Given) (rest : p.core.AtRest Γ)
    (fits : p.NamesIn fun v => 2 * v.id + 1 < Node.wordLimit) :
    Delivers p.start fun x => x.1 = true → x.2.Calm Γ := by
  unfold Stepper.start
  simp only
  rcases rest with ⟨failed, _⟩ | ⟨root, settled⟩
  · rw [failed]
    exact .pure nofun
  · rw [settled.ok]
    have poised : p.core.Poised Γ := ⟨settled.toKnows, given.ranked, .root settled.engine.trail root⟩
    refine (poised.propagate settled.drawn).bind fun ⟨conflict, s⟩ _ ⟨core, propagated⟩ => .pure ?_
    simp only at core propagated
    intro consistent
    obtain rfl : conflict = none := by simpa using consistent
    obtain ⟨k, drawn, _, all⟩ := propagated.drawn
    have whole : Engine.Drawn s.Live s.engine s.trail.head := by
      rw [Solver.trail, propagated.settled, ← all rfl]
      exact drawn
    exact ⟨⟨core, propagated.settled, propagated.spread.grows.varCount_eq.trans given.count,
      given.words fits⟩, whole, given.untaught, given.unleveled⟩

theorem Given.start (given : p.Given) (fits : p.NamesIn fun v => 2 * v.id + 1 < Node.wordLimit) :
    Delivers p.start fun x => x.1 = true → ∃ Γ, x.2.Calm Γ := by
  obtain ⟨Γ, rest⟩ := given.rest
  exact (given.start_calm rest fits).mono fun x calm consistent => ⟨Γ, calm consistent⟩

theorem start_numbers {consistent : Bool} (run : p.start = .ok (consistent, q)) :
    q.numbers = p.numbers := by
  unfold Stepper.start at run
  simp only at run
  split at run
  · simp only [bind_ok, Prod.exists] at run
    obtain ⟨_, _, _, rest⟩ := run
    cases rest
    rfl
  · cases run
    rfl

end Stepper

end ModelCounting
