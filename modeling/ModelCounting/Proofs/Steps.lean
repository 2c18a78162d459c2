import ModelCounting.Proofs.Passages
import ModelCounting.Proofs.Search.Closure

/-!
The steps of a solver, wherever they are taken. Between any two of them the tables agree with each
other. Propagation is unit propagation, no more and no less. The analysis of a conflict answers with
a clause that follows from those in store and is unit once the levels it refutes are taken back.
-/

namespace ModelCounting

namespace Solver

variable {Γ : List (List Lit)} {settings : Settings} {s s' : Solver} {stage : Stage}
  {r : ClauseRef} {lesson : Lesson}

/-- Between the steps of any requests and of any compilation the tables agree with each other. -/
theorem Reached.tables_consistent (reached : Reached settings Γ stage s) : s.Consistent :=
  reached.sound.coherent.consistent

theorem tables_consistent_conflict : ∃ s r,
    Reached {} [[.of ⟨0⟩ false, .of ⟨1⟩ false, .of ⟨2⟩ false],
      [.of ⟨0⟩ false, .of ⟨1⟩ false, .of ⟨2⟩ true]] (.clash r) s ∧ 0 < s.depth ∧ s.Consistent := by
  obtain ⟨_, t, r, waiting, run, above⟩ := conflict_reached
  have reached := waiting.ensues (.clash run)
  exact ⟨t, r, reached, above, reached.tables_consistent⟩

/-! Propagation. -/

/-- Wherever propagation is called it ends. It adds what follows from the trail by unit clauses, all
of it unless a clause is false. -/
theorem Reached.propagate_saturates (reached : Reached settings Γ .waiting s) :
    ∃ conflict s', s.propagate = .ok (conflict, s') ∧ s'.Live = s.Live ∧
      s.engine.Saturates s.Live conflict s'.engine := by
  obtain ⟨poised, drawn⟩ := reached.sound
  obtain ⟨⟨conflict, s'⟩, run, _, propagated⟩ := poised.propagate drawn
  have live : s'.Live = s.Live := by
    obtain ⟨_, _, rest⟩ := bind_ok.mp run
    cases rest
    rfl
  exact ⟨conflict, s', run, live, live ▸ propagated.saturates⟩

theorem propagate_saturates_conflict : ∃ s t r,
    Reached {} [[.of ⟨0⟩ false, .of ⟨1⟩ false, .of ⟨2⟩ false],
      [.of ⟨0⟩ false, .of ⟨1⟩ false, .of ⟨2⟩ true]] .waiting s ∧ s.propagate = .ok (some r, t) ∧
        t.Live = s.Live ∧ s.engine.Saturates s.Live (some r) t.engine := by
  obtain ⟨s, t, r, waiting, run, _⟩ := conflict_reached
  obtain ⟨conflict, t', run', live, saturates⟩ := waiting.propagate_saturates
  cases run.symm.trans run'
  exact ⟨s, t, r, waiting, run, live, saturates⟩

/-! Conflicts. -/

/-- The clauses in store, with those of one literal, which are kept as literals of the root that
have no reason. -/
def database (s : Solver) : List (List Lit) :=
  ((s.added ++ s.learnts).toList.map fun r => (s.engine.bank.lits r).toList) ++
    (s.trail.lits.toList.filter fun l =>
      s.trail.level l.var = 0 ∧ s.trail.reason l.var = none).map ([·])

/-- The clause of a lesson: it follows from the clauses, all its literals are false, the first alone
at the current level, and the second at the level that the lesson names. -/
structure Instructs (Γ : List (List Lit)) (s : Solver) (lesson : Lesson) : Prop where
  stored : Entails s.database lesson.lits.toList
  entailed : Entails Γ lesson.lits.toList
  falsified : ∀ l ∈ lesson.lits, s.value l = .fls
  distinct : (lesson.lits.toList.map Lit.var).Nodup
  unfixed : ∀ l ∈ lesson.lits, 1 ≤ s.trail.level l.var
  first : ∃ first, lesson.lits[0]? = some first ∧ s.trail.level first.var = s.depth ∧
    ∀ l ∈ lesson.lits, s.trail.level l.var = s.depth → l = first
  single : lesson.lits.size = 1 → lesson.level = 0
  second : 1 < lesson.lits.size → ∃ second, lesson.lits[1]? = some second ∧
    s.trail.level second.var = lesson.level ∧
      ∀ (i : Nat) (l : Lit), 0 < i → lesson.lits[i]? = some l → s.trail.level l.var ≤ lesson.level

/-- The first literal of a clause is unassigned, and all others are false. -/
def Unit (s : Solver) (lits : Array Lit) : Prop :=
  ∃ first, lits[0]? = some first ∧ s.value first = .undef ∧
    ∀ (i : Nat) (l : Lit), 0 < i → lits[i]? = some l → s.value l = .fls

theorem Coherent.grounded (coherent : s.Coherent) {value : Var → Bool}
    (models : Models value s.database) : s.engine.Grounded s.Live value := by
  have clauses (r : ClauseRef) (live : s.Live r) : Holds value (s.engine.bank.lits r).toList := by
    refine models _ (List.mem_append_left _ (List.mem_map.mpr ⟨r, ?_, rfl⟩))
    simpa [Live] using live
  refine ⟨clauses, fun l member root => ?_⟩
  refine coherent.engine.implied (k := 0) clauses (fun m on low unreasoned => ?_) l member
    (Nat.le_of_eq root)
  refine holds_unit.mp (models _ (List.mem_append_right _ (List.mem_map.mpr ⟨m, ?_, rfl⟩)))
  have fixed : s.trail.level m.var = 0 := Nat.le_zero.mp low
  have decided : s.trail.reason m.var = none := unreasoned
  have on : m ∈ s.trail.lits := on
  simp [fixed, decided, on]

theorem ne_first {lits : Array Lit} (nodup : lits.toList.Nodup) {i : Nat} {l : Lit} (later : 0 < i)
    (here : lits[i]? = some l) : l ≠ lits.getD 0 default := by
  have inside := (Array.getElem?_eq_some_iff.mp here).1
  intro same
  have at_i : lits.getD i default = l := by rw [Array.getD_eq_getD_getElem?, here]; rfl
  have := Engine.getD_inj nodup inside (Nat.lt_trans later inside) (at_i.trans same)
  omega

theorem Knows.instructs (knows : s.Knows Γ) (teaches : Engine.Teaches s.Live s.engine lesson) :
    s.Instructs Γ lesson where
  stored value models := teaches.entailed value (knows.coherent.grounded models)
  entailed value models := teaches.entailed value (knows.grounded models)
  falsified l member := (knows.engine.trail.false_iff l).mpr (teaches.falsified l member)
  distinct := by
    refine List.Nodup.map_on (fun l member m member' same => ?_) teaches.nodup
    obtain ⟨i, at_i⟩ := Array.mem_iff_getElem?.mp (teaches.falsified l (by simpa using member))
    obtain ⟨j, at_j⟩ := Array.mem_iff_getElem?.mp (teaches.falsified m (by simpa using member'))
    obtain rfl := knows.engine.trail.distinct i j _ _ at_i at_j (by simpa using same)
    simpa using congrArg (- ·) (Option.some.inj (at_i.symm.trans at_j))
  unfixed := teaches.unfixed
  first := by
    refine ⟨_, Engine.getElem?_getD teaches.filled, teaches.first_level, fun l member level => ?_⟩
    by_contra other
    have low := teaches.others_level l member other
    have below := teaches.level_lt
    have level : s.engine.trail.level l.var = s.engine.trail.depth := level
    omega
  single := teaches.unit_level
  second long := ⟨_, Engine.getElem?_getD long, teaches.second_level long, fun i l later here =>
    teaches.others_level l (Array.mem_of_getElem? here) (ne_first teaches.nodup later here)⟩

theorem Pending.unit_clause {lits : Array Lit} (pending : s.Pending Γ lits s.depth)
    (wf : s.trail.WellFormed) : s.Unit lits := by
  refine ⟨_, Engine.getElem?_getD pending.filled, ?_, fun i l later here => ?_⟩
  · exact (Trail.value_of_var _ _).mpr (pending.unassigned wf)
  · have other := ne_first pending.nodup later here
    exact (wf.false_iff l).mpr (pending.others l (Array.mem_of_getElem? here) other).1

/-- Wherever a conflict above the root is met, its analysis ends with a lesson, and back at the level
of the lesson its clause is unit. -/
theorem Reached.analyze_instructs (reached : Reached settings Γ (.clash r) s) (above : 0 < s.depth) :
    ∃ lesson s', s.analyze r = .ok (lesson, s') ∧ s.Instructs Γ lesson ∧
      ∃ s'', s'.backTo lesson.level = .ok s'' ∧ s''.Unit lesson.lits := by
  obtain ⟨poised, conflicting⟩ := reached.sound
  obtain ⟨⟨lesson, s'⟩, run, poised', tunes, pending, low⟩ := poised.analyze conflicting above
  obtain ⟨_, teaches⟩ := poised.toKnows.analyze conflicting above run
  have below : lesson.level < s'.depth := by
    rw [depth, tunes.trail]
    exact low
  obtain ⟨s'', returned, poised'', lowered, _⟩ := poised'.backTo below
  have pending'' : s''.Pending Γ lesson.lits s''.depth := by
    have depth : s''.depth = lesson.level := lowered.depth_eq
    rw [depth]
    exact pending.lowered lowered (Nat.le_refl _)
  exact ⟨lesson, s', run, poised.toKnows.instructs teaches, s'', returned,
    pending''.unit_clause poised''.engine.trail⟩

theorem analyze_instructs_conflict : ∃ s r,
    Reached {} [[.of ⟨0⟩ false, .of ⟨1⟩ false, .of ⟨2⟩ false],
      [.of ⟨0⟩ false, .of ⟨1⟩ false, .of ⟨2⟩ true]] (.clash r) s ∧ 0 < s.depth ∧
        ∃ lesson s', s.analyze r = .ok (lesson, s') ∧
          s.Instructs [[.of ⟨0⟩ false, .of ⟨1⟩ false, .of ⟨2⟩ false],
            [.of ⟨0⟩ false, .of ⟨1⟩ false, .of ⟨2⟩ true]] lesson ∧
              ∃ s'', s'.backTo lesson.level = .ok s'' ∧ s''.Unit lesson.lits := by
  obtain ⟨_, t, r, waiting, run, above⟩ := conflict_reached
  have reached := waiting.ensues (.clash run)
  exact ⟨t, r, reached, above, reached.analyze_instructs above⟩

end Solver

end ModelCounting
