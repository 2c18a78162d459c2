import ModelCounting.Proofs.Safety
import ModelCounting.Proofs.Search.Keeping

/-!
The solvers that are reached: between two requests, on the way through a request, and in a
compilation. A compilation starts its solver with the clauses it was given; each call of its
recursion then decides a variable and closes the level again, and learns where a branch failed at
the level of its lesson. Whatever is reached has what the steps of its stage need.
-/

namespace ModelCounting

/-! The solver of a stepper. -/

namespace Stepper

variable {Γ : List (List Lit)} {settings : Settings} {p q : Stepper} {v i : Var}
  {ls ms : List Lit}

open Solver (History)

theorem number_history (history : History settings Γ p.core) (run : p.number v = .ok (i, q)) :
    History settings Γ q.core := by
  unfold Stepper.number at run
  split at run
  · cases run
    exact history
  · simp only [bind_ok, pure_ok, Prod.exists, Prod.mk.injEq] at run
    obtain ⟨_, core, added, rfl, rfl⟩ := run
    exact history.newVar added

theorem numberLits_history (history : History settings Γ p.core)
    (run : p.numberLits ls = .ok (ms, q)) : History settings Γ q.core := by
  induction ls generalizing p ms with
  | nil =>
    cases run
    exact history
  | cons l ls ih =>
    simp only [Stepper.numberLits, bind_ok, pure_ok, Prod.exists, Prod.mk.injEq] at run
    obtain ⟨_, _, first, _, _, rest, rfl, rfl⟩ := run
    exact ih (number_history history first) rest

theorem addClause_history (history : History settings Γ p.core) (run : p.addClause ls = .ok q) :
    ∃ c, History settings (c :: Γ) q.core := by
  simp only [Stepper.addClause, bind_ok, pure_ok, Prod.exists] at run
  obtain ⟨ms, _, renamed, _, _, added, rfl⟩ := run
  exact ⟨ms, (numberLits_history history renamed).addClause added⟩

theorem add_history {s : Store} {f : Formula} (history : History settings Γ p.core)
    (run : p.add s f = .ok q) : ∃ Γ', History settings Γ' q.core := by
  simp only [Stepper.add, bind_ok] at run
  obtain ⟨cs, read, run⟩ := run
  clear read
  induction cs generalizing p Γ with
  | nil =>
    cases run
    exact ⟨Γ, history⟩
  | cons c cs ih =>
    simp only [List.foldlM_cons, bind_ok] at run
    obtain ⟨_, first, rest⟩ := run
    obtain ⟨_, history'⟩ := addClause_history history first
    exact ih history' rest

end Stepper

theorem Compiler.prepare_history {s s' : Store} {f : Formula} {settings : Settings} {m : Compiler}
    (run : prepare s f settings = .ok (m, s')) : ∃ Γ, Solver.History settings Γ m.solver.core := by
  unfold Compiler.prepare at run
  split at run
  · cases run
  simp only [bind_ok, Prod.exists] at run
  obtain ⟨_, _, _, _, _, _, p, added, rest⟩ := run
  cases rest
  exact Stepper.add_history .fresh added

/-! What the stages need, whoever drives the solver. -/

namespace Solver

variable {Γ : List (List Lit)} {as : List Lit} {s : Solver} {stage : Stage}

def Stage.Sound (Γ : List (List Lit)) : Stage → Solver → Prop
  | .waiting, s | .learnt, s => s.Poised Γ ∧ Engine.Drawn s.Live s.engine s.trail.head
  | .clash r, s => s.Poised Γ ∧ Engine.Conflicting s.Live s.engine r
  | _, s => s.Coherent

theorem Stage.Sound.coherent (sound : stage.Sound Γ s) : s.Coherent := by
  cases stage with
  | waiting | learnt | clash => exact sound.1.toKnows.coherent
  | resting | idle | taught | lowered | refuted => exact sound

theorem Stage.Searches.sound (searches : stage.Searches Γ as s) : stage.Sound Γ s := by
  cases stage with
  | resting => exact searches.elim
  | waiting | learnt =>
    have underway : s.Underway Γ as := searches
    exact ⟨underway.poised, underway.drawn⟩
  | idle =>
    have idle : s.Idle Γ as := searches
    exact idle.toKnows.coherent
  | clash r =>
    have clashing : s.Clashing Γ as r := searches
    exact ⟨clashing.toPoised, clashing.conflicting⟩
  | taught | lowered => exact searches.1.toKnows.coherent
  | refuted => exact searches.1

theorem Ensues.sound {x y : Stage × Solver} (step : Ensues x y) (sound : x.1.Sound Γ x.2) :
    y.1.Sound Γ y.2 := by
  cases step with
  | @decay s =>
    obtain ⟨poised, drawn⟩ := sound
    have tunes := poised.toKnows.congr s.decay rfl rfl rfl rfl rfl rfl
    exact ⟨poised.tunes tunes rfl, tunes.drawn _ drawn⟩
  | settle ran =>
    obtain ⟨poised, drawn⟩ := sound
    exact ((poised.propagate drawn).answer ran).1.toKnows.coherent
  | clash ran =>
    obtain ⟨poised, drawn⟩ := sound
    obtain ⟨poised', propagated⟩ := (poised.propagate drawn).answer ran
    exact ⟨poised', propagated.conflicting _ rfl⟩
  | analyze above ran =>
    obtain ⟨poised, conflicting⟩ := sound
    exact ((poised.analyze conflicting above).answer ran).1.toKnows.coherent

end Solver

/-! Compilations. -/

namespace Compilation.Call

open Solver (Stage)

variable {Γ : List (List Lit)} {a : Call} {stage : Stage} {s : Solver}

/-- The solver at the stages of a call's own steps. What follows a new literal, and the calls that
the call makes, come on top. -/
inductive Passes : Call → Stage → Solver → Prop
  | enter {a : Call} : Passes a .idle a.state.solver.core
  | openLevel {a : Call} {v : Var} {phase : Bool} {c : Compilation}
      (before : a.Branches v phase c) : Passes a .resting c.solver.core.openLevel
  | decide {a : Call} {v : Var} {phase : Bool} {c : Compilation} {s : Solver}
      (before : a.Branches v phase c)
      (assigned : c.solver.core.openLevel.assign (.packed v phase) none = .ok s) :
      Passes a .waiting s
  | undo {c c₁ c₂ : Compilation} {t : PlacedTree} {n nested : Nat} {v : Var} {phase : Bool}
      {result : Outcome} (before : Branches ⟨n + 1, t, nested, c⟩ v phase c₁)
      (ran : branch (Compilation.tree n t (nested + 1)) v phase c₁ = .ok (result, c₂)) :
      Passes ⟨n + 1, t, nested, c⟩ .idle c₂.solver.core
  | learn {a : Call} {c : Compilation} {lits : Array Lit} {s : Solver} (failed : a.Retries c)
      (level : c.solver.atAssertionLevel = true) (lesson : c.solver.lesson = some lits)
      (learnt : c.solver.core.learn lits = .ok s) : Passes a .learnt s

theorem Passes.sound (passes : a.Passes stage s) (safe : a.Safe Γ) : stage.Sound Γ s := by
  cases passes with
  | enter => exact safe.admits.calm.core.toKnows.coherent
  | openLevel before =>
    have calm := (before.admits safe).1.calm
    exact (calm.core.toKnows.openLevel calm.drained).knows.coherent
  | @decide _ v phase c _ before assigned =>
    obtain ⟨admits, candidate, _⟩ := before.admits safe
    have calm := admits.calm
    have small : v.id < 0x80000000 :=
      Nat.lt_of_lt_of_le candidate.inside (calm.count ▸ calm.words)
    rw [Stepper.packed_eq small] at assigned
    obtain ⟨poised, _, drawn⟩ := (calm.core.decide (l := .of v phase) calm.drained
      (by rw [Lit.var_of]; exact candidate.inside)
      (by rw [Lit.var_of]; exact candidate.free)).answer assigned
    exact ⟨poised, drawn calm.drawn⟩
  | undo before ran =>
    obtain ⟨admits, candidate, le⟩ := before.admits safe
    have closes := (branch_delivers admits candidate le (safe.again _)).answer ran
    exact closes.recovered.core.toKnows.coherent
  | learn failed level lesson learnt =>
    obtain ⟨_, _, _, closes⟩ := failed.closes safe
    obtain ⟨lits', same, pending⟩ := closes.recovered.pending level
    obtain rfl := Option.some.inj (lesson.symm.trans same)
    obtain ⟨poised, drawn, _⟩ :=
      (closes.recovered.core.learn pending).answer learnt
    exact ⟨poised, drawn closes.recovered.drawn⟩

end Compilation.Call

namespace Compiler

open Compilation Solver

variable {Γ : List (List Lit)} {m : Compiler} {s : Store} {handler : Handler} {a : Call}

/-- The calls of the recursion in a compilation. -/
inductive Calls (m : Compiler) (s : Store) (handler : Handler) : Call → Prop
  | first {p : Stepper} {d : ClauseTree} {e : Elimination} {t : PlacedTree}
      (start : m.solver.start = .ok (true, p)) (tree : Dtree.minFill s m.nonUnits = .ok (d, e))
      (place : d.place p = .ok t) : Calls m s handler ⟨nestingBound p t, t, 0, .first s p t handler⟩
  | next {a b : Call} (before : Calls m s handler a) (makes : a.Makes b) : Calls m s handler b

theorem Calls.path (calls : m.Calls s handler a) :
    ∃ p d e t, m.solver.start = .ok (true, p) ∧ Dtree.minFill s m.nonUnits = .ok (d, e) ∧
      d.place p = .ok t ∧
        Relation.ReflTransGen Call.Makes ⟨nestingBound p t, t, 0, .first s p t handler⟩ a := by
  induction calls with
  | first start tree place => exact ⟨_, _, _, _, start, tree, place, .refl⟩
  | next _ makes ih =>
    obtain ⟨p, d, e, t, start, tree, place, path⟩ := ih
    exact ⟨p, d, e, t, start, tree, place, path.tail makes⟩

theorem Calls.reaches {b : Call} (calls : m.Calls s handler a)
    (path : Relation.ReflTransGen Call.Makes a b) : m.Calls s handler b := by
  induction path with
  | refl => exact calls
  | tail _ makes ih => exact ih.next makes

/-- The solver at the stages of a compilation. -/
inductive Passes (m : Compiler) (s : Store) (handler : Handler) : Stage → Solver → Prop
  | start (compound : s.isAtomic m.nonUnits = false) (ok : m.solver.core.ok = true) :
      Passes m s handler .waiting m.solver.core
  | call {a : Call} {stage : Stage} {t : Solver} (calls : m.Calls s handler a)
      (passes : a.Passes stage t) : Passes m s handler stage t
  | ensues {stage stage' : Stage} {t u : Solver} (before : Passes m s handler stage t)
      (step : Ensues (stage, t) (stage', u)) : Passes m s handler stage' u

theorem Calls.safe (ready : m.Ready s) (rest : m.solver.core.AtRest Γ)
    (calls : m.Calls s handler a) : a.Safe Γ := by
  induction calls with
  | first start tree place =>
    have calm := (ready.given.start_calm rest ready.fits).answer start rfl
    exact ready.first_safe start calm tree place handler
  | next _ makes ih => exact makes.safe ih

theorem Passes.sound {stage : Stage} {t : Solver} (ready : m.Ready s)
    (rest : m.solver.core.AtRest Γ) (passes : m.Passes s handler stage t) : stage.Sound Γ t := by
  induction passes with
  | start compound ok =>
    obtain ⟨root, settled⟩ := rest.resolve_left (by simp [ok])
    exact ⟨⟨settled.toKnows, ready.given.ranked, .root settled.engine.trail root⟩, settled.drawn⟩
  | call calls passes => exact passes.sound (calls.safe ready rest)
  | ensues _ step ih => exact step.sound ih

end Compiler

/-! All that is reached. -/

namespace Solver

open Relation (ReflTransGen)

variable {Γ : List (List Lit)} {s : Solver} {stage : Stage} {settings : Settings}

/-- The solvers at the stages of their use, with the clauses that were added, latest first: between
two requests, on the way through a request, and in the compilation of prepared clauses. -/
inductive Reached (settings : Settings) : List (List Lit) → Stage → Solver → Prop
  | between {Γ : List (List Lit)} {s : Solver} (history : History settings Γ s) :
      Reached settings Γ .resting s
  /-- A request for a model creates the variables that it needs. -/
  | widened {Γ : List (List Lit)} {s t : Solver} {n : Nat} (history : History settings Γ s)
      (created : addVars n { s with model := none } = .ok t) : Reached settings Γ .resting t
  | request {Γ : List (List Lit)} {as : List Lit} {s t : Solver} {stage : Stage}
      (begins : Begins settings Γ as s)
      (path : ReflTransGen (Moves as) (.waiting, s) (stage, t)) : Reached settings Γ stage t
  | compilation {Γ : List (List Lit)} {store store' : Store} {f : Formula} {m : Compiler}
      {handler : Handler} {stage : Stage} {s : Solver} (reachable : store.Reachable)
      (known : f ∈ store) (prepared : Compiler.prepare store f settings = .ok (m, store'))
      (given : History settings Γ m.solver.core) (passes : m.Passes store' handler stage s) :
      Reached settings Γ stage s

theorem Reached.sound (reached : Reached settings Γ stage s) : stage.Sound Γ s := by
  cases reached with
  | between history => exact history.stands.coherent
  | widened history created => exact (history.stands.forget.addVars created).coherent
  | request begins path => exact (searches_of_path path begins.underway).sound
  | compilation reachable known prepared given passes =>
    exact passes.sound (Compiler.prepare_ready reachable.wellFormed known prepared) given.atRest

theorem reached_of_passes {store store' : Store} {f : Formula} {m : Compiler} {handler : Handler}
    (reachable : store.Reachable) (known : f ∈ store)
    (prepared : Compiler.prepare store f settings = .ok (m, store'))
    (passes : m.Passes store' handler stage s) : ∃ Γ, Reached settings Γ stage s := by
  obtain ⟨Γ, given⟩ := Compiler.prepare_history prepared
  exact ⟨Γ, .compilation reachable known prepared given passes⟩

theorem Reached.ensues {s' : Solver} {stage' : Stage} (reached : Reached settings Γ stage s)
    (step : Ensues (stage, s) (stage', s')) : Reached settings Γ stage' s' := by
  cases reached with
  | between | widened => cases step
  | request begins path => exact .request begins (path.tail (.ensues step))
  | compilation reachable known prepared given passes =>
    exact .compilation reachable known prepared given (passes.ensues step)

/-! Three variables of which the first two determine the third both ways: under both, propagation
meets a conflict at the second level. -/

theorem conflict_reached : ∃ s t r,
    Reached {} [[.of ⟨0⟩ false, .of ⟨1⟩ false, .of ⟨2⟩ false],
      [.of ⟨0⟩ false, .of ⟨1⟩ false, .of ⟨2⟩ true]] .waiting s ∧
        s.propagate = .ok (some r, t) ∧ 0 < t.depth := by
  have ran : (do
      let x₁ ← ({} : Solver).addClause [.of ⟨0⟩ false, .of ⟨1⟩ false, .of ⟨2⟩ true]
      let x₂ ← x₁.2.addClause [.of ⟨0⟩ false, .of ⟨1⟩ false, .of ⟨2⟩ false]
      let t ← ({ x₂.2 with model := none } : Solver).reserve [.of ⟨0⟩ true, .of ⟨1⟩ true]
      let y₁ ← ({ t with maxLearnts := 0 } : Solver).propagate
      let s₁ ← y₁.2.branch (.of ⟨0⟩ true)
      let y₂ ← s₁.propagate
      let s₂ ← y₂.2.branch (.of ⟨1⟩ true)
      let y₃ ← s₂.propagate
      return (y₃.1, decide (x₂.2.ok = true ∧
        (y₁.1 = none ∧ y₁.2.depth = 0 ∧ y₁.2.value (.of ⟨0⟩ true) = .undef) ∧
        (y₂.1 = none ∧ y₂.2.depth = 1 ∧ y₂.2.value (.of ⟨1⟩ true) = .undef) ∧ y₃.2.depth = 2)) :
          Except Fault (Option ClauseRef × Bool)) = .ok (some ⟨1⟩, true) := by
    decide +kernel
  simp only [bind_ok, pure_ok, Prod.exists, Prod.mk.injEq] at ran
  obtain ⟨_, x₁, added₁, _, x₂, added₂, t, reserved, _, u, first, s₁, opened₁, _, v, second, s₂,
    opened₂, _, w, third, rfl, facts⟩ := ran
  obtain ⟨ok, ⟨rfl, depth₁, free₁⟩, ⟨rfl, depth₂, free₂⟩, depth₃⟩ := of_decide_eq_true facts
  have history := (History.fresh.addClause added₁).addClause added₂
  have assumed₁ : Solver.assume (List.drop u.depth [.of ⟨0⟩ true, .of ⟨1⟩ true]) u =
      (.decide (.of ⟨0⟩ true), u) := by
    rw [depth₁]
    simp [Solver.assume, free₁]
  have assumed₂ : Solver.assume (List.drop v.depth [.of ⟨0⟩ true, .of ⟨1⟩ true]) v =
      (.decide (.of ⟨1⟩ true), v) := by
    rw [depth₂]
    simp [Solver.assume, free₂]
  have path := ReflTransGen.single (Moves.ensues (.settle first))
    |>.tail (.decide assumed₁ opened₁) |>.tail (.ensues (.settle second))
    |>.tail (.decide assumed₂ opened₂)
  exact ⟨s₂, w, ⟨1⟩, .request (.model history ok reserved 0) path, third, by omega⟩

end Solver

end ModelCounting
