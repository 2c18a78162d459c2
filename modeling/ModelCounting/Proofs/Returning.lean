import ModelCounting.Proofs.CallTree
import ModelCounting.Proofs.Repetition
import ModelCounting.Proofs.Search.Confluence

/-!
Calls return, and none meets a fault. However a call of the recursion ends, by a circuit, by a branch that
failed or by a cancellation on the way, it has closed the levels that it opened. What it leaves on the
trail stands behind what it found there and belongs to the level it was called at. A lesson that is
asserted is unit where that happens.
-/

namespace ModelCounting

/-- The levels of the first solver are those of the second, and what the second has assigned on top
was assigned at the last of them. -/
structure Solver.Stays (s s' : Solver) : Prop where
  depth_eq : s'.depth = s.depth
  starts_eq : s'.trail.starts = s.trail.starts
  lits_eq : ∃ added, s'.trail.lits.toList = s.trail.lits.toList ++ added ∧
    ∀ l ∈ added, s'.trail.level l.var = s.depth

theorem Compilation.Leads.stays {c c' : Compilation} (leads : c.Leads c')
    (wf : c.solver.core.trail.WellFormed) : c.solver.core.Stays c'.solver.core where
  depth_eq := leads.grows.depth_eq
  starts_eq := leads.grows.starts_eq
  lits_eq := leads.grows.appended wf leads.steady.core.trail

namespace Compiler

open Store Compilation

variable {s s' s₂ s₃ : Store} {f : Formula} {settings : Settings} {m : Compiler} {handler : Handler}
  {a : Call} {value value₁ value₂ : Var → Bool}

/-- Each call in the compilation of prepared clauses has an answer, and whether that is a circuit or a
cancellation, the levels are those of before. -/
theorem Calls.returns (reachable : s.Reachable) (known : f ∈ s)
    (prepared : prepare s f settings = .ok (m, s')) (calls : m.Calls s' handler a) :
    Delivers (tree a.bound a.tree a.nested a.state) fun x =>
      a.state.solver.core.Stays x.2.solver.core := by
  obtain ⟨Γ, history⟩ := prepare_history prepared
  have ready := prepare_ready reachable.wellFormed known prepared
  have safe : a.Safe Γ := calls.safe ready history.atRest
  exact safe.delivers.mono fun x ends => ends.leads.stays safe.admits.calm.core.engine.trail

/-- A call that has a lesson asserted on its way, and one that is cancelled below a branch. -/
theorem calls_return_knot : ∃ m s', prepare knot.2 knot.1 {} = .ok (m, s') ∧
    (∃ a c, m.Calls s' .never a ∧ a.Retries c ∧ c.solver.atAssertionLevel = true ∧
      Delivers (tree a.bound a.tree a.nested a.state) fun x =>
        x.1 ≠ .cancelled ∧ a.state.solver.core.Stays x.2.solver.core) ∧
    ∃ a v c, m.Calls s' (.answers (· < 2) 0) a ∧ a.Branches v true c ∧
      Delivers (tree a.bound a.tree a.nested a.state) fun x =>
        x.1 = .cancelled ∧ a.state.solver.core.Stays x.2.solver.core := by
  have ran : Delivers (prepare knot.2 knot.1 {}) fun x =>
      (∃ a ∈ x.1.calls x.2 .never, (∃ c ∈ a.retries, c.solver.atAssertionLevel = true) ∧
        Delivers (tree a.bound a.tree a.nested a.state) fun y => y.1 ≠ .cancelled) ∧
      ∃ a ∈ x.1.calls x.2 (.answers (· < 2) 0), (∃ y ∈ a.branches, y.2.1 = true) ∧
        Delivers (tree a.bound a.tree a.nested a.state) fun y => y.1 = .cancelled := by decide +kernel
  obtain ⟨⟨m, s'⟩, prepared, ⟨a, listed, ⟨c, retry, level⟩, goes⟩, b, listed', ⟨⟨v, phase, c'⟩, branch, rfl⟩,
    stops⟩ := ran
  have calls := mem_calls.mp listed
  have calls' := mem_calls.mp listed'
  have returns := calls.returns knot_reachable knot_mem prepared
  have returns' := calls'.returns knot_reachable knot_mem prepared
  exact ⟨m, s', prepared,
    ⟨a, c, calls, Call.mem_retries.mp retry, level, goes.and fun _ run => returns.answer run⟩,
    b, v, c', calls', Call.mem_branches.mp branch, stops.and fun _ run => returns'.answer run⟩

theorem prepare_equivalent (wf : s.WellFormed) (known : f ∈ s)
    (prepared : prepare s f settings = .ok (m, s')) : ∃ s₂ s₃, m.Simplified s₂ s₃ s' ∧
      Stepper.add { core := { settings } } s₂ m.cnf = .ok m.solver ∧
        ∀ value, s₂.eval value m.cnf = s.eval value f := by
  obtain ⟨s₂, s₃, _, simplified, _, added, r, fixed, same⟩ := prepare_simplified wf known prepared
  exact ⟨s₂, s₃, simplified, added, fun value =>
    (same value).trans (wf.fixBackbone_eval known (prepare_ok prepared).1 fixed value)⟩

theorem start_of_model (wf : s.WellFormed) (known : f ∈ s)
    (added : Stepper.add { core := { settings } } s f = .ok m.solver)
    (holds : s.eval value f = true) : ∃ p, m.solver.start = .ok (true, p) := by
  obtain ⟨cs, read, added⟩ := bind_ok.mp added
  obtain ⟨⟨answer, p⟩, run, answers⟩ := Stepper.addAll_start settings cs
  rw [show Stepper.addAll cs { core := { settings } } = .ok m.solver from added] at run
  have models := ((wf.clauses_ok known read).1 value).mp holds
  have going : answer = true := answers.mpr fun refutes => refutes.refuted value models
  exact ⟨p, going ▸ run⟩

end Compiler

end ModelCounting
