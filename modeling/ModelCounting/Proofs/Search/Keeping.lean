import ModelCounting.Proofs.Search.Stages

/-!
Requests keep the tables. Between two requests, whatever they were, the tables of a solver are
coherent and a further request can begin. Propagation begins in a request with a clause of which one
literal is left or with the search for a model, and from there on the request is a path of moves.
-/

namespace ModelCounting

namespace Solver

open Relation (ReflTransGen)

variable {Γ : List (List Lit)} {as ls : List Lit} {s s' t u : Solver} {l : Lit} {v : Var}
  {answer : Bool} {settings : Settings}

/-! Clauses. -/

/-- The literal that is left of a clause is asserted: all there is to know before propagation. -/
theorem Settled.asserted (settled : s.Settled Γ) (poised : s.Poised Γ) (root : s.depth = 0)
    (inside : l.var.id < s.varCount) (unassigned : s.value l = .undef)
    (entails : Entails (ls :: Γ) [l]) (member : l ∈ ls) (run : s.assign l none = .ok t) :
    t.Underway (ls :: Γ) [] := by
  have free : s.trail.valueVar l.var = .undef := (Trail.value_of_var _ _).mp unassigned
  have queue := (assign_delivers free).answer run
  obtain ⟨keeps, assigned, _, _, drawn⟩ :=
    settled.toKnows.cons.assign inside (by simp) (fun _ _ => entails) run
  have root' : t.depth = 0 := assigned.depth_eq.trans root
  have trail : t.trail.WellFormed := keeps.knows.engine.trail
  have level : t.trail.level l.var = 0 :=
    Nat.le_zero.mp (root' ▸ trail.level_le_depth assigned.mem)
  have covers (c : List Lit) (listed : c ∈ ls :: Γ) : t.Covered c := by
    rcases List.mem_cons.mp listed with rfl | listed
    · exact .inr (.inl ⟨l, member, assigned.mem, level⟩)
    · exact keeps.covers c (settled.covers c listed)
  have ranked : t.branching.activity.size = t.varCount := by
    rw [queue]
    exact poised.ranked.trans assigned.varCount_eq.symm
  exact ⟨⟨keeps.knows, covers, drawn settled.drawn, .root trail root', by simp⟩, ranked,
    .root trail root', .root root'⟩

theorem addClause_reserved (root : s.depth = 0) (ok : s.ok = true) (root' : t.depth = 0)
    (ok' : t.ok = true) (inside : ∀ l ∈ ls, l.var.id < t.varCount)
    (reserved : s.reserve ls = .ok t) : s.addClause ls = t.addClause ls := by
  unfold Solver.addClause
  rw [if_neg (by omega), if_neg (by rw [ok]; decide), if_neg (by omega), if_neg (by rw [ok']; decide),
    reserved, reserve_inside inside]

theorem Available.reserve (available : s.Available Γ) :
    Delivers (s.reserve ls) (Available Γ) :=
  .foldlM (fun _ before _ _ => before.addVars.mono fun _ after => after.1) available

theorem Available.reserved (available : s.Available Γ) (ok : s.ok = true)
    (run : s.reserve ls = .ok t) :
    t.Available Γ ∧ t.Settled Γ ∧ t.Poised Γ ∧ ∀ l ∈ ls, l.var.id < t.varCount := by
  have widened := available.reserve.answer run
  obtain ⟨settled, poised⟩ := (available.rest.poised available.ranked).resolve_left (by simp [ok])
  obtain ⟨keeps, _, inside⟩ := settled.toKnows.reserve run
  obtain ⟨settled', poised'⟩ :=
    (widened.rest.poised widened.ranked).resolve_left (by simp [keeps.knows.ok])
  exact ⟨widened, settled', poised', inside⟩

theorem Settled.addClause_coherent (settled : s.Settled Γ) (poised : s.Poised Γ)
    (root : s.depth = 0) (inside : ∀ l ∈ ls, l.var.id < s.varCount)
    (run : s.addClause ls = .ok (answer, s')) : s'.Coherent := by
  have rest := AtRest.addClause (.inr ⟨root, settled⟩) run
  obtain ⟨_, ⟨_, rfl⟩ | ⟨_, t, reserved, takes⟩⟩ := addClause_takes run
  · exact settled.toKnows.coherent
  cases (reserve_inside inside).symm.trans reserved
  cases takes with
  | satisfied => exact settled.toKnows.coherent
  | falsified => exact settled.toKnows.coherent.withOk false
  | unit simplified assigned propagated =>
    obtain ⟨entails, unassigned, within⟩ := settled.simplified root simplified
    have member := within _ List.mem_cons_self
    have underway := settled.asserted poised root (inside _ member)
      (unassigned _ List.mem_cons_self) entails member assigned
    obtain ⟨keeps, _⟩ := underway.toKnows.propagate underway.drawn propagated
    exact keeps.knows.coherent.withOk _
  | stored =>
    obtain ⟨_, settled'⟩ := rest.resolve_left (by simp [settled.ok])
    exact settled'.toKnows.coherent

/-! Requests. -/

structure Stands (Γ : List (List Lit)) (s : Solver) : Prop extends Available Γ s where
  coherent : s.Coherent

theorem Stands.fresh (settings : Settings) : ({ settings } : Solver).Stands [] where
  toAvailable := .fresh settings
  coherent := by
    rcases AtRest.fresh settings with ⟨failed, _⟩ | ⟨_, settled⟩
    · cases failed
    · exact settled.toKnows.coherent

theorem Stands.newVar (stands : s.Stands Γ) (run : s.newVar = .ok (v, s')) : s'.Stands Γ :=
  ⟨(stands.toAvailable.newVar.answer run).1, stands.coherent.newVar run⟩

theorem Stands.addVars {n : Nat} (stands : s.Stands Γ) (run : addVars n s = .ok s') :
    s'.Stands Γ :=
  addVars_ok (fun _ _ _ before created => before.newVar created) stands run

theorem Stands.forget (stands : s.Stands Γ) : ({ s with model := none } : Solver).Stands Γ where
  rest := stands.rest.imp_right fun ⟨root, settled⟩ =>
    ⟨root, settled.tunes (settled.toKnows.congr _ rfl rfl rfl rfl rfl rfl)⟩
  root := stands.root
  ranked := ⟨stands.ranked.waits, stands.ranked.ranked⟩
  coherent := stands.coherent.congr _ rfl rfl rfl rfl rfl

theorem Stands.addClause (stands : s.Stands Γ) (run : s.addClause ls = .ok (answer, s')) :
    s'.Stands (ls :: Γ) := by
  obtain ⟨root, ⟨_, rfl⟩ | ⟨ok, t, reserved, _⟩⟩ := addClause_takes run
  · exact ⟨⟨stands.rest.addClause run, root, stands.ranked⟩, stands.coherent⟩
  · obtain ⟨available, settled, poised, inside⟩ := stands.toAvailable.reserved ok reserved
    rw [addClause_reserved root ok available.root settled.ok inside reserved] at run
    exact ⟨((available.addClause inside).answer run).1,
      settled.addClause_coherent poised available.root inside run⟩

/-- The solvers with which propagation begins in a request, with the clauses that were added and the
literals that are assumed. -/
inductive Begins (settings : Settings) : List (List Lit) → List Lit → Solver → Prop
  /-- One literal is left of a clause. -/
  | clause {Γ : List (List Lit)} {s t u : Solver} {ls : List Lit} {l : Lit}
      (history : History settings Γ s) (ok : s.ok = true) (reserved : s.reserve ls = .ok t)
      (single : simplify? t.value none (sortLits ls) = some [l])
      (assigned : t.assign l none = .ok u) : Begins settings (ls :: Γ) [] u
  | model {Γ : List (List Lit)} {s t : Solver} {as : List Lit} (history : History settings Γ s)
      (ok : s.ok = true) (reserved : ({ s with model := none } : Solver).reserve as = .ok t)
      (maxLearnts : Float) : Begins settings Γ as { t with maxLearnts }

theorem Stands.underway {maxLearnts : Float} (stands : s.Stands Γ) (ok : s.ok = true)
    (reserved : ({ s with model := none } : Solver).reserve as = .ok t) :
    ({ t with maxLearnts } : Solver).Underway Γ as := by
  obtain ⟨available, settled, poised, named⟩ := stands.forget.toAvailable.reserved ok reserved
  have tunes := settled.toKnows.congr { t with maxLearnts } rfl rfl rfl rfl rfl rfl
  exact (settled.tunes tunes).underway (poised.tunes tunes rfl) available.root named

theorem Stands.solve (stands : s.Stands Γ) (run : s.solve as = .ok (answer, s')) :
    s'.Stands Γ := by
  have rest := (stands.rest.solve run).1
  by_cases ok : s.ok = true
  · obtain ⟨t, maxLearnts, status, reserved, ⟨stage, path, finish⟩, root⟩ := solve_leads ok run
    have underway : ({ t with maxLearnts } : Solver).Underway Γ as := stands.underway ok reserved
    have ends := searches_of_path path underway
    cases finish with
    | idle => exact ⟨⟨rest, root, ends.poised.toRanked⟩, ends.toKnows.coherent⟩
    | refuted =>
      obtain ⟨coherent, ranked, _⟩ := ends
      exact ⟨⟨rest, root, ranked⟩, coherent⟩
  · unfold Solver.solve at run
    simp only at run
    rw [if_pos (by simp [ok])] at run
    cases run
    exact stands.forget

theorem History.stands (history : History settings Γ s) : s.Stands Γ := by
  induction history with
  | fresh => exact .fresh settings
  | newVar _ run ih => exact ih.newVar run
  | addClause _ run ih => exact ih.addClause run
  | solve _ run ih => exact ih.solve run

theorem Begins.underway (begins : Begins settings Γ as s) : s.Underway Γ as := by
  cases begins with
  | clause history ok reserved single assigned =>
    obtain ⟨available, settled, poised, inside⟩ := history.stands.toAvailable.reserved ok reserved
    obtain ⟨entails, unassigned, within⟩ := settled.simplified available.root single
    have member := within _ List.mem_cons_self
    exact settled.asserted poised available.root (inside _ member)
      (unassigned _ List.mem_cons_self) entails member assigned
  | model history ok reserved maxLearnts => exact history.stands.underway ok reserved

end Solver

end ModelCounting
