import ModelCounting.Proofs.Passages

/-!
A compilation passes nothing else. Where a decision, a lesson or a call of the recursion ends, and
where the whole compilation does, the solver is one of those that the stages of the compilation
list.
-/

namespace ModelCounting

namespace Compiler

open Compilation

variable {m : Compiler} {s s' : Store} {handler : Handler} {a : Call} {c : Compilation}
  {p q : Stepper} {v : Var} {phase consistent : Bool} {implied : Formula}

/-- The solver of a stepper is passed at some stage. -/
def Visits (m : Compiler) (s : Store) (handler : Handler) (p : Stepper) : Prop :=
  ∃ stage, m.Passes s handler stage p.core

theorem Passes.settle_visits (passes : m.Passes s handler .waiting p.core)
    (run : p.settle = .ok (consistent, q)) : m.Visits s handler q := by
  obtain ⟨⟨conflict, core⟩, ran, run⟩ := bind_ok.mp run
  cases conflict with
  | none =>
    cases run
    exact ⟨.idle, passes.ensues (.settle ran)⟩
  | some r =>
    simp only at run
    split at run
    · rename_i above
      obtain ⟨⟨lesson, core'⟩, analyzed, run⟩ := bind_ok.mp run
      cases run
      exact ⟨.taught lesson, (passes.ensues (.clash ran)).ensues (.analyze above analyzed)⟩
    · cases run
      exact ⟨.clash r, passes.ensues (.clash ran)⟩

theorem start_visits (compound : s.isAtomic m.nonUnits = false) (ok : m.solver.core.ok = true)
    (run : m.solver.start = .ok (consistent, q)) : m.Visits s handler q := by
  unfold Stepper.start at run
  simp only at run
  rw [if_pos ok] at run
  obtain ⟨⟨conflict, core⟩, ran, run⟩ := bind_ok.mp run
  cases run
  cases conflict with
  | none => exact ⟨.idle, (Passes.start compound ok).ensues (.settle ran)⟩
  | some r => exact ⟨.clash r, (Passes.start compound ok).ensues (.clash ran)⟩

/-! Calls. -/

namespace Calls

theorem decide_visits (calls : m.Calls s handler a) (before : a.Branches v phase c)
    (run : c.solver.decide v phase = .ok (consistent, q)) : m.Visits s handler q := by
  obtain ⟨value, _, run⟩ := bind_ok.mp run
  cases value with
  | fls =>
    cases run
    exact ⟨.resting, .call calls (.openLevel before)⟩
  | tru => cases run
  | undef =>
    obtain ⟨core, assigned, run⟩ := bind_ok.mp run
    exact Passes.settle_visits (p := { c.solver with unreported := true, core })
      (.call calls (.decide before assigned)) run

theorem assertLesson_visits (calls : m.Calls s handler a) (failed : a.Retries c)
    (run : c.solver.assertLesson = .ok (consistent, q)) : m.Visits s handler q := by
  unfold Stepper.assertLesson at run
  split at run
  · cases run
  rename_i level
  split at run
  · cases run
  rename_i lits lesson
  obtain ⟨core, learnt, run⟩ := bind_ok.mp run
  have passes : m.Passes s handler .learnt core :=
    .call calls (.learn failed (by simpa using level) lesson learnt)
  exact Passes.settle_visits (p := { c.solver with
    unreported := true, core := core.decay, assertionLevel := none, lesson := none })
    (passes.ensues .decay) run

theorem enter_visits (calls : m.Calls s handler a) (run : a.state.enter a.tree = .ok (implied, c)) :
    m.Visits s handler c.solver := by
  refine ⟨.idle, .call calls ?_⟩
  have same : c.solver.core = a.state.solver.core := by
    simp only [Compilation.enter] at run
    split at run
    · rename_i reported
      cases run
      simp only [Stepper.newlyImplied, bind_ok] at reported
      obtain ⟨_, _, rest⟩ := reported
      cases rest
      rfl
    · cases run
  rw [same]
  exact .enter

variable {n nested : Nat} {t part : PlacedTree} {outcome : Outcome} {c₁ c' : Compilation}

def End (m : Compiler) (s : Store) (handler : Handler) (n : Nat) : Prop :=
  ∀ {t : PlacedTree} {nested : Nat} {c c' : Compilation} {outcome : Outcome},
    m.Calls s handler ⟨n, t, nested, c⟩ → Compilation.tree n t nested c = .ok (outcome, c') →
      m.Visits s handler c'.solver

theorem part_visits (below : End m s handler n) (calls : m.Calls s handler ⟨n + 1, t, nested, c⟩)
    (parts : Call.Parts ⟨n + 1, t, nested, c⟩ part c₁) (before : m.Visits s handler c₁.solver)
    (run : Compilation.part (Compilation.tree n · 0) nested part c₁ = .ok (outcome, c')) :
    m.Visits s handler c'.solver := by
  cases part with
  | leaf l =>
    obtain ⟨⟨f, c₂⟩, leaf, run⟩ := bind_ok.mp run
    cases run
    rw [leaf_finishes.answer _ leaf]
    exact before
  | node d left right =>
    simp only [Compilation.part, cached, bind_ok] at run
    obtain ⟨_, _, run⟩ := run
    split at run
    · cases run
      exact before
    · rename_i missing
      have looked := SubproblemCache.find_query c₁.cache (c₁.key (.node d left right))
        (c₁.key (.node d left right))
      obtain ⟨⟨outcome', c₂⟩, compiled, run⟩ := bind_ok.mp run
      have visited := below (calls.next (.part parts (looked.1.symm.trans missing))) compiled
      cases outcome' with
      | cancelled =>
        cases run
        exact visited
      | compiled f =>
        cases run
        split <;> exact visited

theorem conjoin_visits {d : PlacedInner} {left right : PlacedTree} (below : End m s handler n)
    (calls : m.Calls s handler ⟨n + 1, .node d left right, nested, c⟩)
    (enter : c.enter (.node d left right) = .ok (implied, c₁))
    (apart : c₁.separator.isEmpty = true) (before : m.Visits s handler c₁.solver)
    (run : conjoin (Compilation.tree n · 0) nested implied left right c₁ = .ok (outcome, c')) :
    m.Visits s handler c'.solver := by
  unfold conjoin at run
  split at run
  · cases run
    exact before
  rename_i some
  obtain ⟨⟨outcome₂, c₂⟩, first, run⟩ := bind_ok.mp run
  have visited := part_visits below calls (.left enter apart some) before first
  cases outcome₂ with
  | cancelled =>
    cases run
    exact visited
  | compiled l =>
    simp only at run
    split at run
    · cases run
      exact visited
    rename_i some'
    obtain ⟨⟨outcome₃, c₃⟩, second, run⟩ := bind_ok.mp run
    have visited' := part_visits below calls (.right enter apart some first some') visited second
    cases outcome₃ with
    | cancelled =>
      cases run
      exact visited'
    | compiled r =>
      simp only at run
      split at run
      · cases run
        exact visited'
      · cases run
        exact visited'

theorem retry_visits (below : End m s handler n)
    (calls : m.Calls s handler ⟨n + 1, t, nested, c⟩)
    (failed : Call.Retries ⟨n + 1, t, nested, c⟩ c₁) (before : m.Visits s handler c₁.solver)
    (run : retry (Compilation.tree n t 0) c₁ = .ok (outcome, c')) :
    m.Visits s handler c'.solver := by
  unfold retry at run
  split at run
  · rename_i level
    obtain ⟨⟨consistent, p⟩, learn, run⟩ := bind_ok.mp run
    have visited := calls.assertLesson_visits failed learn
    cases consistent with
    | true => exact below (calls.next (.again failed level learn)) run
    | false =>
      cases run
      exact visited
  · cases run
    exact before

/-- Wherever a call of the recursion ends, its solver is passed. -/
theorem tree_visits : End m s handler n := by
  induction n with
  | zero => exact fun _ run => absurd run nofun
  | succ n below =>
    intro t nested c c' outcome calls run
    rw [tree_succ] at run
    obtain ⟨⟨implied, c₁⟩, enter, run⟩ := bind_ok.mp run
    have entered := calls.enter_visits enter
    unfold Compilation.frame at run
    split at run
    · rename_i apart
      cases t with
      | leaf l =>
        obtain ⟨⟨f, c₂⟩, leaf, run⟩ := bind_ok.mp run
        cases run
        exact leaf_finishes.answer _ leaf ▸ entered
      | node d left right => exact conjoin_visits below calls enter apart entered run
    rename_i shared
    obtain ⟨v, choice, run⟩ := bind_ok.mp run
    split at run
    · cases run
      exact entered
    rename_i granted
    have first : Call.Branches ⟨n + 1, t, nested, c⟩ v true c₁.counted :=
      .positive enter (Bool.eq_false_iff.mpr shared) choice (by simpa using granted)
    obtain ⟨⟨outcome₂, c₂⟩, positive, run⟩ := bind_ok.mp run
    have visited : m.Visits s handler c₂.solver := ⟨.idle, .call calls (.undo first positive)⟩
    cases outcome₂ with
    | cancelled =>
      cases run
      exact visited
    | compiled p =>
      simp only at run
      split at run
      · rename_i falsum
        subst falsum
        exact retry_visits below calls ⟨first, positive⟩ visited run
      rename_i some
      have second : Call.Branches ⟨n + 1, t, nested, c⟩ v false c₂ := .negative first positive some
      obtain ⟨⟨outcome₃, c₃⟩, negative, run⟩ := bind_ok.mp run
      have visited' : m.Visits s handler c₃.solver := ⟨.idle, .call calls (.undo second negative)⟩
      cases outcome₃ with
      | cancelled =>
        cases run
        exact visited'
      | compiled g =>
        simp only at run
        split at run
        · rename_i falsum
          subst falsum
          exact retry_visits below calls ⟨second, negative⟩ visited' run
        · rw [expansion_finishes.answer _ run]
          exact visited'

end Calls

/-- A compilation leaves its solver where it passed. -/
theorem compile_visits {m' : Compiler} {outcome : Outcome} {handler' : Handler}
    (compound : s.isAtomic m.nonUnits = false) (ok : m.solver.core.ok = true)
    (run : m.compile s handler = .ok (outcome, m', s', handler')) : m.Visits s handler m'.solver := by
  unfold Compiler.compile at run
  split at run
  · cases run
  simp only [compound, Bool.false_eq_true, if_false] at run
  obtain ⟨⟨consistent, p⟩, start, run⟩ := bind_ok.mp run
  have started : m.Visits s handler p := start_visits compound ok start
  cases consistent with
  | false =>
    cases run
    exact started
  | true =>
    simp only [Bool.not_true, Bool.false_eq_true, if_false, bind_ok, Prod.exists] at run
    obtain ⟨d, e, tree, t, place, outcome₁, c, compiled, run⟩ := run
    have first : m.Calls s handler ⟨nestingBound p t, t, 0, .first s p t handler⟩ :=
      .first start tree place
    have ended := Calls.tree_visits first compiled
    cases outcome₁ with
    | cancelled =>
      cases run
      exact ended
    | compiled f =>
      cases run
      exact ended

theorem compile_core {m' : Compiler} {outcome : Outcome} {handler' : Handler}
    (unasked : s.isAtomic m.nonUnits = true ∨ m.solver.core.ok = false)
    (run : m.compile s handler = .ok (outcome, m', s', handler')) :
    m'.solver.core = m.solver.core := by
  unfold Compiler.compile at run
  split at run
  · cases run
  simp only at run
  split at run
  · cases run
    rfl
  rename_i compound
  obtain ⟨⟨consistent, p⟩, start, run⟩ := bind_ok.mp run
  unfold Stepper.start at start
  simp only at start
  rw [if_neg (by simp [unasked.resolve_left compound])] at start
  cases start
  cases run
  rfl

/-- Whatever becomes of a compilation, the solver that it leaves is reached. -/
theorem compile_reached {s₁ : Store} {f : Formula} {settings : Settings} {m' : Compiler}
    {outcome : Outcome} {handler' : Handler} (reachable : s.Reachable) (known : f ∈ s)
    (prepared : prepare s f settings = .ok (m, s₁))
    (run : m.compile s₁ handler = .ok (outcome, m', s', handler')) :
    ∃ Γ stage, Solver.Reached settings Γ stage m'.solver.core := by
  by_cases unasked : s₁.isAtomic m.nonUnits = true ∨ m.solver.core.ok = false
  · obtain ⟨Γ, given⟩ := prepare_history prepared
    rw [compile_core unasked run]
    exact ⟨Γ, .resting, .between given⟩
  · simp only [not_or, Bool.not_eq_true, Bool.not_eq_false] at unasked
    obtain ⟨stage, passes⟩ := compile_visits unasked.1 unasked.2 run
    obtain ⟨Γ, reached⟩ := Solver.reached_of_passes reachable known prepared passes
    exact ⟨Γ, stage, reached⟩

end Compiler

end ModelCounting
