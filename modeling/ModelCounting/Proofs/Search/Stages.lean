import Mathlib.Logic.Relation
import ModelCounting.Proofs.Search.Requests
import ModelCounting.Proofs.Search.Tables

/-!
The stages of a search. Between two of its steps a solver stands at a stage that says which step
comes next. A new literal is followed by propagation and a conflict by its analysis, whoever drives
the solver; a search also goes back, learns, forgets and decides. Whatever path it takes, it keeps
what each stage needs, and whole searches are such paths.
-/

namespace ModelCounting

namespace Solver

open Relation (ReflTransGen)

variable {Γ : List (List Lit)} {as ls : List Lit} {s s' : Solver} {l : Lit} {r : ClauseRef}
  {lesson : Lesson}

/-- Where the use of a solver stands between two of its steps. -/
inductive Stage where
  /-- No propagation follows. -/
  | resting
  | waiting
  /-- Nothing is left to propagate. -/
  | idle
  /-- Propagation has met a clause in conflict. -/
  | clash (r : ClauseRef)
  /-- The conflict is analysed. -/
  | taught (lesson : Lesson)
  /-- The levels that the lesson refutes are taken back. -/
  | lowered (lesson : Lesson)
  | learnt
  | refuted

/-- The steps that follow a new literal, whoever drives the solver. -/
inductive Ensues : Stage × Solver → Stage × Solver → Prop
  | decay {s : Solver} : Ensues (.learnt, s) (.waiting, s.decay)
  | settle {s t : Solver} (ran : s.propagate = .ok (none, t)) : Ensues (.waiting, s) (.idle, t)
  | clash {s t : Solver} {r : ClauseRef} (ran : s.propagate = .ok (some r, t)) :
    Ensues (.waiting, s) (.clash r, t)
  | analyze {s t : Solver} {r : ClauseRef} {lesson : Lesson} (above : 0 < s.depth)
    (ran : s.analyze r = .ok (lesson, t)) : Ensues (.clash r, s) (.taught lesson, t)

/-- The moves of a search, each as its loop makes it. What only counts, limits or keeps a model may
change at any time that nothing is left to propagate. A variable that the queue offers has left it,
so it is decided in the same move. -/
inductive Moves (as : List Lit) : Stage × Solver → Stage × Solver → Prop
  | ensues {x y : Stage × Solver} (step : Ensues x y) : Moves as x y
  | count {s : Solver} {r : ClauseRef} :
    Moves as (.clash r, s) (.clash r, { s with conflicts := s.conflicts + 1 })
  | refute {s : Solver} {r : ClauseRef} (root : s.depth = 0) :
    Moves as (.clash r, s) (.refuted, { s with ok := false })
  | lower {s t : Solver} {lesson : Lesson} (ran : s.backTo lesson.level = .ok t) :
    Moves as (.taught lesson, s) (.lowered lesson, t)
  | learn {s t : Solver} {lesson : Lesson} (ran : s.learn lesson.lits = .ok t) :
    Moves as (.lowered lesson, s) (.learnt, t)
  | reduce {s : Solver} : Moves as (.idle, s) (.idle, s.reduce)
  | assume {s t : Solver} {choice : Choice}
    (ran : Solver.assume (as.drop s.depth) s = (choice, t)) : Moves as (.idle, s) (.idle, t)
  | decide {s t u : Solver} {l : Lit} (ran : Solver.assume (as.drop s.depth) s = (.decide l, t))
    (opened : t.branch l = .ok u) : Moves as (.idle, s) (.waiting, u)
  | pick {s t u : Solver} {l : Lit} {branching : Branching}
    (ran : Solver.assume (as.drop s.depth) s = (.free, t))
    (picked : t.branching.pick t.trail.valueVar (t.branching.queue.size + 1) =
      .ok (some l, branching))
    (opened : { t with decisions := t.decisions + 1, branching }.branch l = .ok u) :
    Moves as (.idle, s) (.waiting, u)
  | exhaust {s t : Solver} {branching : Branching}
    (ran : Solver.assume (as.drop s.depth) s = (.free, t))
    (picked : t.branching.pick t.trail.valueVar (t.branching.queue.size + 1) =
      .ok (none, branching)) :
    Moves as (.idle, s) (.idle, { t with decisions := t.decisions + 1, branching })
  | back {s t : Solver} (ran : s.backTo 0 = .ok t) : Moves as (.idle, s) (.idle, t)
  | again {s : Solver} (root : s.depth = 0) : Moves as (.idle, s) (.waiting, s)
  | note {s : Solver} (restarts : Nat) (maxLearnts : Float) (model : Option (Array Bool)) :
    Moves as (.idle, s) (.idle, { s with restarts, maxLearnts, model })
  | limit {s : Solver} (maxLearnts : Float) : Moves as (.refuted, s) (.refuted, { s with maxLearnts })

/-! What a stage of a search needs. -/

structure Carries (Γ : List (List Lit)) (as : List Lit) (s : Solver) : Prop extends Poised Γ s where
  covers : ∀ c ∈ Γ, s.Covered c
  follows : s.trail.Follows as
  named : ∀ l ∈ as, l.var.id < s.varCount
  climbs : s.trail.Climbs as.length

def DrawnBelow (s : Solver) : Prop :=
  ∃ k, Engine.Drawn s.Live s.engine k ∧ ∀ n ∈ s.trail.starts, n ≤ k

/-- The solver has what its search needs at a stage. -/
def Stage.Searches (Γ : List (List Lit)) (as : List Lit) : Stage → Solver → Prop
  | .resting, _ => False
  | .waiting, s => s.Underway Γ as
  | .idle, s => s.Idle Γ as
  | .clash r, s => s.Clashing Γ as r
  | .taught lesson, s => s.Carries Γ as ∧ s.Pending Γ lesson.lits lesson.level ∧
      lesson.level < s.depth ∧ s.DrawnBelow
  | .lowered lesson, s => s.Carries Γ as ∧ s.Pending Γ lesson.lits s.depth ∧
      Engine.Drawn s.Live s.engine s.trail.head
  | .learnt, s => s.Underway Γ as
  | .refuted, s => s.Coherent ∧ s.Ranked ∧ s.depth = 0

theorem Clashing.analyze (clashing : s.Clashing Γ as r) (above : 0 < s.depth)
    (run : s.analyze r = .ok (lesson, s')) : (Stage.taught lesson).Searches Γ as s' := by
  obtain ⟨poised, tunes, pending, low⟩ :=
    (clashing.toPoised.analyze clashing.conflicting above).answer run
  obtain ⟨k, drawn, starts_le⟩ := clashing.drawn
  have trail : s'.trail = s.trail := tunes.trail
  have carries : s'.Carries Γ as := {
    toPoised := poised
    covers := fun c member => tunes.covers c (clashing.covers c member)
    follows := trail ▸ clashing.follows
    named := by
      rw [varCount, trail]
      exact clashing.named
    climbs := trail ▸ clashing.climbs }
  have below : lesson.level < s'.depth := by
    rw [depth, trail]
    exact low
  exact ⟨carries, pending, below, k, tunes.drawn k drawn, trail ▸ starts_le⟩

theorem Carries.lower (carries : s.Carries Γ as) (pending : s.Pending Γ lesson.lits lesson.level)
    (below : lesson.level < s.depth) (drawn : s.DrawnBelow) (run : s.backTo lesson.level = .ok s') :
    (Stage.lowered lesson).Searches Γ as s' := by
  obtain ⟨poised, lowered, drawn'⟩ := (carries.toPoised.backTo below).answer run
  have keeps := (carries.toKnows.backTo below run).1
  have carries' : s'.Carries Γ as := {
    toPoised := poised
    covers := fun c member => keeps.covers c (carries.covers c member)
    follows := carries.follows.lowered lowered (Nat.le_of_lt below)
    named := by
      rw [varCount, lowered.varCount_eq]
      exact carries.named
    climbs := carries.climbs.lowered lowered }
  have pending' : s'.Pending Γ lesson.lits s'.depth := by
    have level : s'.depth = lesson.level := lowered.depth_eq
    rw [level]
    exact pending.lowered lowered (Nat.le_refl _)
  obtain ⟨k, drawn, starts_le⟩ := drawn
  have start : s'.trail.lits.size ≤ k := starts_le _ (Array.mem_of_getElem? lowered.start)
  exact ⟨carries', pending', drawn' k start drawn⟩

theorem Carries.learn {lits : Array Lit} (carries : s.Carries Γ as)
    (pending : s.Pending Γ lits s.depth) (drawn : Engine.Drawn s.Live s.engine s.trail.head)
    (run : s.learn lits = .ok s') : s'.Underway Γ as := by
  obtain ⟨poised, drawn', _⟩ := (carries.toPoised.learn pending).answer run
  obtain ⟨keeps, _, reason, assigned, rooted⟩ := carries.toKnows.learn pending.filled
    pending.nodup pending.inside pending.entailed
    (fun l member other => (pending.others l member other).1) pending.second pending.unit run
  -- The asserted literal has a reason or lies at the root, so it is taken for no assumption.
  have follows : s'.trail.Follows as := by
    apply carries.follows.grows assigned.toGrows
    intro l member
    rcases assigned.mem_iff.mp member with old | rfl
    · exact .inl old
    · rw [assigned.reason_self, assigned.level_self]
      by_cases unreasoned : reason = none
      · exact .inr (.inr (rooted unreasoned))
      · exact .inr (.inl unreasoned)
  have named (l : Lit) (member : l ∈ as) : l.var.id < s'.varCount := by
    rw [varCount, assigned.varCount_eq]
    exact carries.named l member
  have covers (c : List Lit) (member : c ∈ Γ) : s'.Covered c :=
    keeps.covers c (carries.covers c member)
  exact ⟨⟨keeps.knows, covers, drawn' drawn, follows, named⟩, poised.ranked, poised.led,
    carries.climbs.grows assigned.toGrows⟩

theorem Underway.congr (underway : s.Underway Γ as) (tunes : Tunes Γ s s')
    (queue : s'.branching.activity.size = s.branching.activity.size) : s'.Underway Γ as := by
  have poised := underway.poised.tunes tunes queue
  refine ⟨underway.toSearching.tunes tunes, poised.ranked, poised.led, ?_⟩
  rw [tunes.trail]
  exact underway.climbs

theorem Idle.back (idle : s.Idle Γ as) (run : s.backTo 0 = .ok s') : s'.Idle Γ as := by
  obtain ⟨settled, root, count⟩ := idle.settled.backToRoot run
  obtain ⟨poised, _⟩ := idle.poised.backToRoot.answer run
  have named (l : Lit) (member : l ∈ as) : l.var.id < s'.varCount := count ▸ idle.named l member
  exact ⟨settled.underway poised root named, settled.drained⟩

theorem Idle.exhaust {branching : Branching} (idle : s.Idle Γ as)
    (picked : s.branching.pick s.trail.valueVar (s.branching.queue.size + 1) =
      .ok (none, branching)) :
    { s with decisions := s.decisions + 1, branching }.Idle Γ as := by
  have idle := idle.counted
  have settled := (idle.settled.pickNone picked).1
  have ranked := idle.pick.answer picked
  exact ⟨⟨⟨settled.toKnows, settled.covers, settled.drawn, idle.follows, idle.named⟩,
    (congrArg Array.size ranked).trans idle.ranked, idle.led, idle.climbs⟩, settled.drained⟩

theorem Idle.noted (idle : s.Idle Γ as) (restarts : Nat) (maxLearnts : Float)
    (model : Option (Array Bool)) : { s with restarts, maxLearnts, model }.Idle Γ as :=
  idle.tunes (idle.toKnows.congr _ rfl rfl rfl rfl rfl rfl) rfl

theorem Ensues.searches {x y : Stage × Solver} (step : Ensues x y)
    (holds : x.1.Searches Γ as x.2) : y.1.Searches Γ as y.2 := by
  cases step with
  | decay => exact holds.congr (holds.toKnows.congr _ rfl rfl rfl rfl rfl rfl) rfl
  | settle ran => exact (holds.propagate.answer ran).2.2.1 rfl
  | clash ran => exact (holds.propagate.answer ran).2.2.2 _ rfl
  | analyze above ran => exact holds.analyze above ran

theorem Moves.searches {x y : Stage × Solver} (moves : Moves as x y)
    (holds : x.1.Searches Γ as x.2) : y.1.Searches Γ as y.2 := by
  cases moves with
  | ensues step => exact step.searches holds
  | count => exact holds.counted
  | refute root =>
    have ranked := holds.toPoised.toRanked
    exact ⟨holds.toKnows.coherent.withOk false, ⟨ranked.waits, ranked.ranked⟩, root⟩
  | lower ran =>
    obtain ⟨carries, pending, below, drawn⟩ := holds
    exact carries.lower pending below drawn ran
  | learn ran =>
    obtain ⟨carries, pending, drawn⟩ := holds
    exact carries.learn pending drawn ran
  | reduce => exact holds.tunes holds.toKnows.reduce rfl
  | assume ran => exact (holds.assume ran).1
  | decide ran opened =>
    obtain ⟨idle, _, fits, free⟩ := holds.assume ran
    exact ((idle.branch (free _ rfl) fits).answer opened).underway
  | pick ran picked opened =>
    obtain ⟨idle, _, fits, _⟩ := holds.assume ran
    exact ((idle.counted.branchPicked fits picked (idle.pick.answer picked)).answer opened).underway
  | exhaust ran picked => exact (holds.assume ran).1.exhaust picked
  | back ran => exact holds.back ran
  | again root => exact holds.toUnderway
  | note restarts maxLearnts model => exact holds.noted restarts maxLearnts model
  | limit maxLearnts =>
    obtain ⟨coherent, ranked, root⟩ := holds
    exact ⟨coherent.congr _ rfl rfl rfl rfl rfl, ⟨ranked.waits, ranked.ranked⟩, root⟩

theorem searches_of_path {x y : Stage × Solver} (path : ReflTransGen (Moves as) x y)
    (holds : x.1.Searches Γ as x.2) : y.1.Searches Γ as y.2 := by
  induction path with
  | refl => exact holds
  | tail _ moves ih => exact moves.searches ih

/-! A search is a path of its moves. -/

/-- How a search ends: nothing is left to propagate, or the clauses are refuted. -/
inductive Finish : Truth → Stage → Solver → Prop
  | idle {status : Truth} {s : Solver} (root : status = .undef → s.depth = 0) : Finish status .idle s
  | refuted {s : Solver} (root : s.depth = 0) : Finish .fls .refuted s

/-- A path of moves leads from a stage to an answer. -/
def Leads (as : List Lit) (x : Stage × Solver) (status : Truth) (s' : Solver) : Prop :=
  ∃ stage, ReflTransGen (Moves as) x (stage, s') ∧ Finish status stage s'

variable {status : Truth}

theorem Leads.after {x y : Stage × Solver} (moves : Moves as x y) (leads : Leads as y status s') :
    Leads as x status s' := by
  obtain ⟨stage, path, finish⟩ := leads
  exact ⟨stage, .head moves path, finish⟩

theorem backTo_root (run : s.backTo 0 = .ok s') : s'.depth = 0 := by
  unfold Solver.backTo at run
  split at run
  · simp only [bind_ok, pure_ok, Prod.exists] at run
    obtain ⟨trail, branching, _, rfl⟩ := run
    simp [depth, Solver.trail, Trail.depth]
  · rename_i root
    cases run
    omega

theorem respond_leads {next : Solver → Except Fault (Truth × Solver)}
    (run : s.respond next r = .ok (status, s'))
    (rest : ∀ t, next t = .ok (status, s') → Leads as (.waiting, t) status s') :
    Leads as (.clash r, s) status s' := by
  unfold respond at run
  split at run
  · rename_i root
    cases run
    exact ⟨.refuted, .single (.refute root), .refuted root⟩
  · rename_i above
    obtain ⟨t, recovered, run⟩ := bind_ok.mp run
    unfold Solver.recover at recovered
    simp only [bind_ok, pure_ok, Prod.exists] at recovered
    obtain ⟨lesson, u, analyzed, v, lowered, w, learnt, rfl⟩ := recovered
    refine .after (.ensues (.analyze (Nat.pos_of_ne_zero above) analyzed)) ?_
    refine .after (.lower lowered) (.after (.learn learnt) ?_)
    exact (rest _ run).after (.ensues .decay)

theorem proceed_leads {next : Solver → Except Fault (Truth × Solver)}
    (run : s.proceed as next = .ok (status, s'))
    (rest : ∀ t, next t = .ok (status, s') → Leads as (.waiting, t) status s') :
    Leads as (.idle, s) status s' := by
  unfold proceed at run
  generalize assumed : Solver.assume (as.drop s.depth) s = result at run
  obtain ⟨choice, t⟩ := result
  cases choice with
  | refuted =>
    cases run
    exact ⟨.idle, .single (.assume assumed), .idle nofun⟩
  | decide l =>
    obtain ⟨u, opened, run⟩ := bind_ok.mp run
    exact (rest u run).after (.decide assumed opened)
  | free =>
    obtain ⟨⟨choice, branching⟩, picked, run⟩ := bind_ok.mp run
    cases choice with
    | none =>
      cases run
      exact ⟨.idle, .single (.exhaust assumed picked), .idle nofun⟩
    | some l =>
      obtain ⟨u, opened, run⟩ := bind_ok.mp run
      exact (rest u run).after (.pick assumed picked opened)

theorem searchWithin_leads {limit n met : Nat}
    (run : searchWithin limit as n met s = .ok (status, s')) :
    Leads as (.waiting, s) status s' := by
  induction n generalizing s met with
  | zero => cases run
  | succ n ih =>
    rw [searchWithin_succ] at run
    obtain ⟨⟨conflict, t⟩, ran, run⟩ := bind_ok.mp run
    cases conflict with
    | some r => exact ((respond_leads run fun u => ih).after .count).after (.ensues (.clash ran))
    | none =>
      refine .after (.ensues (.settle ran)) ?_
      simp only at run
      split at run
      · obtain ⟨u, returned, run⟩ := bind_ok.mp run
        have root : u.depth = 0 := backTo_root returned
        cases run
        exact ⟨.idle, .head (.back returned) (.single (.note _ _ _)), .idle fun _ => root⟩
      · split at run
        · exact (proceed_leads run fun u => ih).after .reduce
        · exact proceed_leads run fun u => ih

theorem Leads.limited {x : Stage × Solver} (leads : Leads as x status s') (maxLearnts : Float) :
    Leads as x status { s' with maxLearnts } := by
  obtain ⟨stage, path, finish⟩ := leads
  cases finish with
  | idle root => exact ⟨.idle, path.tail (.note _ _ _), .idle root⟩
  | refuted root => exact ⟨.refuted, path.tail (.limit _), .refuted root⟩

theorem Leads.again {x : Stage × Solver} {t : Solver} (leads : Leads as x .undef t)
    (rest : Leads as (.waiting, t) status s') : Leads as x status s' := by
  obtain ⟨stage, path, finish⟩ := leads
  obtain ⟨stage', path', finish'⟩ := rest
  cases finish with
  | idle root => exact ⟨stage', (path.tail (.again (root rfl))).trans path', finish'⟩

theorem solveFrom_leads {n restart : Nat}
    (run : solveFrom as n restart s = .ok (status, s')) :
    Leads as (.waiting, s) status s' := by
  induction n generalizing s restart with
  | zero => cases run
  | succ n ih =>
    unfold solveFrom at run
    simp only [bind_ok, Prod.exists] at run
    obtain ⟨limit, _, answer, t, searched, run⟩ := run
    have leads := (searchWithin_leads searched).limited (t.maxLearnts * t.settings.learntGrowth)
    cases answer with
    | undef => exact leads.again (ih run)
    | tru =>
      cases run
      exact leads
    | fls =>
      cases run
      exact leads

/-- A request for a model is a path of moves, from the solver with all assumed variables. -/
theorem solve_leads {answer : Bool} (ok : s.ok = true) (run : s.solve as = .ok (answer, s')) :
    ∃ t maxLearnts status, ({ s with model := none } : Solver).reserve as = .ok t ∧
      Leads as (.waiting, { t with maxLearnts }) status s' ∧ s'.depth = 0 := by
  unfold Solver.solve at run
  simp only at run
  rw [if_neg (by rw [ok]; decide)] at run
  simp only [bind_ok, pure_ok, Prod.exists, Prod.mk.injEq] at run
  obtain ⟨t, reserved, status, u, searched, v, returned, rfl, rfl⟩ := run
  obtain ⟨stage, path, finish⟩ := solveFrom_leads searched
  refine ⟨t, atLeast 10 (t.added.size.toFloat * t.settings.learntShare), status, reserved, ?_,
    backTo_root returned⟩
  cases finish with
  | idle =>
    have noted : ReflTransGen (Moves as) (.idle, u) (.idle, if status = .tru then
        { u with model := some (u.trail.values.map (· == .tru)) } else u) := by
      split
      · exact .single (.note _ _ _)
      · exact .refl
    exact ⟨.idle, (path.trans noted).tail (.back returned), .idle fun _ => backTo_root returned⟩
  | refuted root =>
    rw [if_neg (by decide), backTo_same (Nat.le_of_eq root)] at returned
    cases returned
    exact ⟨.refuted, path, .refuted root⟩

end Solver

end ModelCounting
