import ModelCounting.Proofs.Search.Keeping

/-!
The rounds of a search, whatever the activities say. Activities, increments and the limit on learnt
clauses only decide which variable is branched on and which learnt clauses are forgotten. With these
choices left open, each round still raises the potential of the trail. So no search goes on for more
rounds than its bound, and none fails, even if the clauses are known to be refuted.
-/

namespace ModelCounting

namespace Solver

variable {Γ : List (List Lit)} {as ls : List Lit} {s s' t u : Solver} {l : Lit} {r : ClauseRef}
  {n : Nat}

/-! Whether the clauses are refuted plays no part in a search. -/

def reopen (s : Solver) : Solver := { s with ok := true }

theorem reopen_propagate (s : Solver) :
    s.reopen.propagate = (fun x => (x.1, x.2.reopen)) <$> s.propagate := by
  unfold propagate
  rw [map_bind]
  rfl

theorem reopen_assign (s : Solver) (l : Lit) (reason : Option ClauseRef) :
    s.reopen.assign l reason = reopen <$> s.assign l reason := by
  unfold assign
  rw [map_bind]
  rfl

theorem reopen_branch (s : Solver) (l : Lit) : s.reopen.branch l = reopen <$> s.branch l :=
  reopen_assign s.openLevel l none

theorem reopen_backTo (s : Solver) (level : Nat) :
    s.reopen.backTo level = reopen <$> s.backTo level := by
  unfold backTo
  change (if level < s.depth then _ else _) = _
  split
  · simp only [map_bind]
    rfl
  · rfl

theorem reopen_bumpClause (s : Solver) (r : ClauseRef) :
    s.reopen.bumpClause r = (s.bumpClause r).reopen := by
  unfold bumpClause reopen
  simp only
  split <;> rfl

theorem reopen_bumpClauses (s : Solver) (rs : Array ClauseRef) :
    rs.foldl bumpClause s.reopen = (rs.foldl bumpClause s).reopen := by
  rw [← Array.foldl_toList, ← Array.foldl_toList]
  generalize rs.toList = rs
  induction rs generalizing s with
  | nil => rfl
  | cons r rs ih => rw [List.foldl_cons, List.foldl_cons, reopen_bumpClause, ih]

theorem reopen_analyze (s : Solver) (r : ClauseRef) :
    s.reopen.analyze r = (fun x => (x.1, x.2.reopen)) <$> s.analyze r := by
  unfold analyze
  simp only [map_bind]
  refine bind_congr fun ⟨lesson, a⟩ => ?_
  have bumped : a.clauses.foldl bumpClause { s.reopen with seen := a.seen } = _ :=
    reopen_bumpClauses { s with seen := a.seen } a.clauses
  simp only [bumped]
  rfl

theorem reopen_record (s : Solver) (engine : Engine) (r : ClauseRef) :
    s.reopen.record engine r = (s.record engine r).reopen := by
  have bumped : { s.reopen with engine }.bumpClause r = _ := reopen_bumpClause { s with engine } r
  unfold record
  rw [bumped]
  rfl

theorem reopen_learn (s : Solver) (lits : Array Lit) :
    s.reopen.learn lits = reopen <$> s.learn lits := by
  unfold learn
  simp only
  split
  · exact reopen_assign s _ none
  · rw [map_bind]
    refine bind_congr fun engine => ?_
    change (s.reopen.record engine _).assign _ _ = reopen <$> (s.record engine _).assign _ _
    rw [reopen_record]
    exact reopen_assign _ _ _

theorem reopen_recover (s : Solver) (r : ClauseRef) :
    s.reopen.recover r = reopen <$> s.recover r := by
  unfold recover
  simp only [map_bind, reopen_analyze, bind_map_left, reopen_backTo, reopen_learn]
  rfl

theorem Forgets.reopen (forgets : Forgets s t) : Forgets s.reopen t.reopen := by
  induction forgets with
  | refl => exact .refl
  | reorder _ perm ih => exact ih.reorder perm
  | remove _ here unlocked ih => exact ih.remove here unlocked

theorem Forgets.branching_eq (forgets : Forgets s t) : t.branching = s.branching := by
  induction forgets with
  | refl => rfl
  | reorder _ _ ih => exact ih
  | remove _ _ _ ih => exact ih

/-! What a search needs to go on. -/

/-- Each step of a search has an answer, whether or not the clauses are refuted. -/
structure Engaged (as : List Lit) (s : Solver) : Prop where
  coherent : s.Coherent
  ranked : s.branching.activity.size = s.varCount
  led : s.trail.Led
  named : ∀ l ∈ as, l.var.id < s.varCount
  climbs : s.trail.Climbs as.length

def Drained (s : Solver) : Prop := s.trail.head = s.trail.lits.size

namespace Engaged

theorem poised (engaged : s.Engaged as) : s.reopen.Poised [[]] :=
  ⟨(engaged.coherent.withOk true).knows rfl, engaged.ranked, engaged.led⟩

theorem of_poised (poised : s.reopen.Poised Γ) (named : ∀ l ∈ as, l.var.id < s.varCount)
    (climbs : s.trail.Climbs as.length) : s.Engaged as :=
  ⟨poised.toKnows.coherent.withOk s.ok, poised.ranked, poised.led, named, climbs⟩

theorem propagate (engaged : s.Engaged as) :
    Delivers s.propagate fun x => x.2.Engaged as ∧ s.trail.Grows x.2.trail ∧ x.2.Drained ∧
      ∀ r, x.1 = some r → Engine.Conflicting x.2.Live x.2.engine r := by
  -- No consequence is known to be drawn.
  have nothing : Engine.Drawn (fun _ => False) s.reopen.engine s.reopen.trail.head := nofun
  have delivers := engaged.poised.propagate_due nofun nothing
  rw [reopen_propagate] at delivers
  refine delivers.of_map.mono fun ⟨conflict, t⟩ ⟨poised, emptied⟩ => ?_
  have grows : s.trail.Grows t.trail := emptied.spread.grows
  refine ⟨.of_poised poised (fun l member => ?_) (engaged.climbs.grows grows), grows,
    emptied.settled, emptied.conflicting⟩
  exact Nat.lt_of_lt_of_eq (engaged.named l member) grows.varCount_eq.symm

theorem recover (engaged : s.Engaged as) (conflicting : Engine.Conflicting s.Live s.engine r)
    (above : 0 < s.depth) :
    Delivers (s.recover r) fun t => t.Engaged as ∧ t.varCount = s.varCount ∧
      s.trail.weight < t.trail.weight := by
  have delivers := engaged.poised.recover conflicting above engaged.climbs
  rw [reopen_recover] at delivers
  refine delivers.of_map.mono fun t ⟨poised, climbs, rises, continues⟩ => ?_
  refine ⟨.of_poised poised (fun l member => ?_) climbs, continues.varCount_eq, rises⟩
  exact Nat.lt_of_lt_of_eq (engaged.named l member) continues.varCount_eq.symm

theorem backToRoot (engaged : s.Engaged as) : Delivers (s.backTo 0) fun _ => True := by
  have delivers := engaged.poised.backToRoot
  rw [reopen_backTo] at delivers
  exact delivers.of_map.mono fun _ _ => trivial

theorem forgets (engaged : s.Engaged as) (forgets : Forgets s t) :
    t.Engaged as ∧ t.trail = s.trail := by
  have tunes := engaged.poised.toKnows.forgets forgets.reopen
  have trail : t.trail = s.trail := tunes.trail
  have count : t.varCount = s.varCount := congrArg Trail.varCount trail
  refine ⟨⟨tunes.knows.coherent.withOk t.ok, ?_, trail ▸ engaged.led, count ▸ engaged.named,
    trail ▸ engaged.climbs⟩, trail⟩
  rw [forgets.branching_eq, count]
  exact engaged.ranked

theorem openLevel (engaged : s.Engaged as) (drained : s.Drained) (room : s.depth < as.length) :
    s.openLevel.Engaged as where
  coherent := (engaged.poised.toKnows.openLevel drained).knows.coherent.withOk s.ok
  ranked := engaged.ranked
  led := engaged.led.openLevel
  named := engaged.named
  climbs := engaged.climbs.openLevel room

theorem assume {choice : Choice} (engaged : s.Engaged as) (drained : s.Drained)
    (next : ls = as.drop s.depth) (run : Solver.assume ls s = (choice, t)) :
    t.Engaged as ∧ t.Drained := by
  induction ls generalizing s with
  | nil =>
    cases run
    exact ⟨engaged, drained⟩
  | cons l ls ih =>
    unfold Solver.assume at run
    split at run
    · have room : s.depth < as.length := by
        by_contra full
        rw [List.drop_eq_nil_of_le (Nat.le_of_not_lt full)] at next
        cases next
      have depth : s.openLevel.depth = s.depth + 1 := Array.size_push ..
      apply ih (engaged.openLevel drained room) drained ?_ run
      rw [depth, ← List.drop_drop, ← next]
      rfl
    · cases run
      exact ⟨engaged, drained⟩
    · cases run
      exact ⟨engaged, drained⟩

theorem branch (engaged : s.Engaged as) (drained : s.Drained) (inside : l.var.id < s.varCount)
    (free : s.value l = .undef) :
    Delivers (s.branch l) fun t => t.Engaged as ∧ t.varCount = s.varCount ∧
      s.trail.openLevel.Assigned l none t.trail := by
  have delivers := engaged.poised.decide drained inside ((Trail.value_of_var _ _).mp free)
  change Delivers (s.reopen.branch l) _ at delivers
  rw [reopen_branch] at delivers
  refine delivers.of_map.mono fun t ⟨poised, assigned, _⟩ => ?_
  have count : t.varCount = s.varCount := assigned.varCount_eq
  exact ⟨.of_poised poised (count ▸ engaged.named) (engaged.climbs.decide assigned), count, assigned⟩

end Engaged

/-! Rounds. -/

/-- What activities may change: themselves and whatever is ranked by them. The queue still holds
every unassigned variable. -/
inductive Steers : Solver → Solver → Prop
  | mk {s : Solver} {bank : ClauseBank} {branching : Branching}
      (clauses : s.engine.bank.SameLits bank)
      (waits : branching.Awaits s.varCount fun v => v.id < s.varCount ∧ s.trail.valueVar v = .undef)
      (ranked : branching.activity.size = s.varCount) (clauseIncrement maxLearnts : Float)
      (model : Option (Array Bool)) (conflicts decisions restarts : Nat) :
      Steers s { s with
        engine.bank := bank, branching, clauseIncrement, maxLearnts, model, conflicts, decisions,
        restarts }

/-- A literal that may be branched on: the next assumption, or any unassigned literal once all
assumptions hold. -/
def Choice.Allows (s : Solver) : Choice → Lit → Prop
  | .refuted, _ => False
  | .decide m, l => l = m
  | .free, l => s.value l = .undef ∧ l.var.id < s.varCount

/-- A round of a search that is not its last, with the choices that activities make left open. -/
inductive Round (as : List Lit) : Solver → Solver → Prop
  /-- A conflict above the root is learnt from. -/
  | learn {s t u v : Solver} {r : ClauseRef} (met : s.propagate = .ok (some r, t))
      (above : 0 < t.depth)
      (recovered : { t with conflicts := t.conflicts + 1 }.recover r = .ok u)
      (steers : Steers u v) : Round as s v
  /-- Learnt clauses are forgotten, and a literal is decided. -/
  | decide {s t u v w x : Solver} {choice : Choice} {l : Lit}
      (done : s.propagate = .ok (none, t)) (forgets : Forgets t u)
      (assumed : assume (as.drop u.depth) u = (choice, v)) (allows : choice.Allows v l)
      (branched : v.branch l = .ok w) (steers : Steers w x) : Round as s x

inductive Rounds (as : List Lit) : Nat → Solver → Solver → Prop
  | none {s : Solver} : Rounds as 0 s s
  | next {n : Nat} {s t u : Solver} (round : Round as s t) (rest : Rounds as n t u) :
      Rounds as (n + 1) s u

theorem Steers.reopen (steers : Steers s t) : Steers s.reopen t.reopen := by
  cases steers with
  | mk clauses waits ranked => exact .mk (s := s.reopen) clauses waits ranked _ _ _ _ _ _

theorem Knows.steers (knows : s.Knows Γ) (steers : Steers s t) : Tunes Γ s t := by
  cases steers with
  | @mk bank branching clauses waits ranked x =>
    have tuned : Tunes Γ s { s with engine.bank := bank, clauseIncrement := x, branching } :=
      ⟨knows.tuned clauses waits knows.marks, rfl, fun n drawn =>
        drawn.mono (fun _ alive => alive) (fun r _ => clauses.lits_eq r) rfl (Nat.le_refl _)⟩
    exact tuned.trans (tuned.knows.congr _ rfl rfl rfl rfl rfl rfl)

theorem Steers.ranked (steers : Steers s t) : t.branching.activity.size = s.varCount := by
  cases steers with
  | mk _ _ ranked => exact ranked

theorem Engaged.steers (engaged : s.Engaged as) (steers : Steers s t) :
    t.Engaged as ∧ t.trail = s.trail := by
  have tunes := engaged.poised.toKnows.steers steers.reopen
  have trail : t.trail = s.trail := tunes.trail
  have count : t.varCount = s.varCount := congrArg Trail.varCount trail
  exact ⟨⟨tunes.knows.coherent.withOk t.ok, steers.ranked.trans count.symm, trail ▸ engaged.led,
    count ▸ engaged.named, trail ▸ engaged.climbs⟩, trail⟩

theorem Engaged.steers_refl (engaged : s.Engaged as) : Steers s s :=
  .mk (.refl _) engaged.coherent.waits engaged.ranked _ _ _ _ _ _

structure Ascends (as : List Lit) (s t : Solver) : Prop where
  engaged : t.Engaged as
  varCount_eq : t.varCount = s.varCount
  potential_lt : s.trail.potential as.length < t.trail.potential as.length

theorem assume_mem (run : assume ls s = (.decide l, t)) : l ∈ ls := by
  induction ls generalizing s with
  | nil => cases run
  | cons m ls ih =>
    unfold assume at run
    split at run
    · exact List.mem_cons_of_mem _ (ih run)
    · cases run
    · cases run
      exact List.mem_cons_self

theorem Engaged.allowed {choice : Choice} (engaged : s.Engaged as)
    (assumed : Solver.assume (as.drop s.depth) s = (choice, t)) (allows : choice.Allows t l) :
    t.value l = .undef ∧ l.var.id < t.varCount := by
  obtain ⟨opens, unassigned⟩ := assume_opens rfl assumed
  cases choice with
  | refuted => exact allows.elim
  | free => exact allows
  | decide m =>
    obtain rfl : l = m := allows
    refine ⟨unassigned l rfl, ?_⟩
    rw [opens.continues.varCount_eq]
    exact engaged.named l (List.mem_of_mem_drop (assume_mem assumed))

/-- Each round raises the potential of the trail. -/
theorem Round.ascends (round : Round as s u) (engaged : s.Engaged as) : Ascends as s u := by
  have faithful := engaged.coherent.engine.trail.toFaithful
  cases round with
  | @learn t _ _ r met above recovered steers =>
    obtain ⟨engaged₁, grows, _, conflicting⟩ := engaged.propagate.answer met
    have counted : { t with conflicts := t.conflicts + 1 }.Engaged as :=
      (engaged₁.steers (.mk (.refl _) engaged₁.coherent.waits engaged₁.ranked _ _ _ _ _ _)).1
    obtain ⟨engaged₂, count, rises⟩ := (counted.recover (conflicting r rfl) above).answer recovered
    obtain ⟨engaged₃, trail⟩ := engaged₂.steers steers
    have count : u.varCount = s.varCount :=
      (congrArg Trail.varCount trail).trans (count.trans grows.varCount_eq)
    refine ⟨engaged₃, count, engaged.climbs.potential_of_weight faithful count ?_⟩
    rw [trail]
    exact Nat.lt_of_le_of_lt grows.weight_le rises
  | @decide t v w _ _ choice l done forgets assumed allows branched steers =>
    obtain ⟨engaged₁, grows, drained₁, _⟩ := engaged.propagate.answer done
    obtain ⟨engaged₂, trail₂⟩ := engaged₁.forgets forgets
    have drained₂ : v.Drained := by
      unfold Drained
      rw [trail₂]
      exact drained₁
    obtain ⟨engaged₃, drained₃⟩ := engaged₂.assume drained₂ rfl assumed
    obtain ⟨opens, _⟩ := assume_opens rfl assumed
    obtain ⟨free, inside⟩ := engaged₂.allowed assumed allows
    obtain ⟨engaged₄, count₄, assigned⟩ := (engaged₃.branch drained₃ inside free).answer branched
    obtain ⟨engaged₅, trail₅⟩ := engaged₄.steers steers
    have count : u.varCount = s.varCount := (congrArg Trail.varCount trail₅).trans (count₄.trans
      (opens.continues.varCount_eq.trans ((congrArg Trail.varCount trail₂).trans grows.varCount_eq)))
    refine ⟨engaged₅, count, Trail.potential_of_depth count ?_ ?_⟩
    · calc s.trail.weight ≤ t.trail.weight := grows.weight_le
        _ = w.trail.weight := by rw [opens.weight_eq, trail₂]
        _ = w.trail.openLevel.weight := (w.trail.weight_openLevel).symm
        _ ≤ u.trail.weight := trail₅ ▸ assigned.toGrows.weight_le
    · have opened : w.trail.openLevel.depth = w.depth + 1 := Array.size_push ..
      have start : v.depth = s.depth := (congrArg Trail.depth trail₂).trans grows.depth_eq
      have := opens.depth_le
      change s.depth < u.trail.depth
      rw [trail₅, assigned.depth_eq]
      omega

theorem Rounds.ascends (rounds : Rounds as n s u) (engaged : s.Engaged as) :
    u.Engaged as ∧ u.varCount = s.varCount ∧
      s.trail.potential as.length + n ≤ u.trail.potential as.length := by
  induction rounds with
  | none => exact ⟨engaged, rfl, Nat.le_refl _⟩
  | next round _ ih =>
    obtain ⟨engaged₁, count₁, rises⟩ := round.ascends engaged
    obtain ⟨engaged', count', le⟩ := ih engaged₁
    exact ⟨engaged', count'.trans count₁, by omega⟩

/-- No sequence of rounds is as long as the bound on them. -/
theorem Rounds.lt_bound (rounds : Rounds as n s u) (engaged : s.Engaged as) :
    s.trail.potential as.length + n < roundBound s.varCount as.length := by
  obtain ⟨engaged', count, le⟩ := rounds.ascends engaged
  have below := engaged'.climbs.potential_lt engaged'.coherent.engine.trail.toFaithful
  rw [show u.trail.varCount = s.varCount from count] at below
  have := potential_le_roundBound s.varCount as.length
  omega

/-! A search follows the rounds. -/

def Turns (as : List Lit) (s : Solver) (next : Solver → Except Fault (Truth × Solver))
    (run : Except Fault (Truth × Solver)) : Prop :=
  (∃ x, run = .ok x) ∨ ∃ t, Round as s t ∧ run = next t

variable {next : Solver → Except Fault (Truth × Solver)}

theorem Engaged.respond (engaged : t.Engaged as) (met : s.propagate = .ok (some r, t))
    (conflicting : Engine.Conflicting t.Live t.engine r) :
    Turns as s next ({ t with conflicts := t.conflicts + 1 }.respond next r) := by
  unfold Solver.respond
  split
  · exact .inl ⟨_, rfl⟩
  · rename_i above
    have above : 0 < t.depth := Nat.pos_of_ne_zero above
    have counted : { t with conflicts := t.conflicts + 1 }.Engaged as :=
      (engaged.steers (.mk (.refl _) engaged.coherent.waits engaged.ranked _ _ _ _ _ _)).1
    obtain ⟨u, recovered, engaged', _⟩ := counted.recover conflicting above
    rw [recovered]
    exact .inr ⟨u, .learn met above recovered engaged'.steers_refl, rfl⟩

theorem branch_beside {branching : Branching} (run : s.branch l = .ok t) :
    { s with decisions := n, branching }.branch l = .ok { t with decisions := n, branching } := by
  simp only [branch, assign, bind_ok, pure_ok] at run ⊢
  obtain ⟨engine, assigned, rfl⟩ := run
  exact ⟨engine, assigned, rfl⟩

theorem Engaged.steers_picked {branching : Branching} {k : Nat} (engaged : s.Engaged as)
    (picked : s.branching.pick s.trail.valueVar k = .ok (some l, branching))
    (ranked : branching.activity = s.branching.activity)
    (assigned : s.trail.openLevel.Assigned l none t.trail) (after : t.Engaged as) :
    Steers t { t with decisions := n, branching } := by
  have count : t.varCount = s.varCount := assigned.varCount_eq
  obtain ⟨waits, _⟩ := Branching.pick_awaits engaged.coherent.waits picked
  refine .mk (.refl _) ?_ ?_ _ _ _ _ _ _
  · rw [count]
    refine waits.mono fun v ⟨inside, free⟩ => ?_
    have unassigned := (after.coherent.engine.trail.undef_iff v).mp free
    refine ⟨inside, ?_, fun m same => ?_⟩
    · exact (engaged.coherent.engine.trail.undef_iff v).mpr fun m member =>
        unassigned m (assigned.toGrows.mem member)
    · cases same
      exact unassigned l assigned.mem
  · rw [ranked, count]
    exact engaged.ranked

theorem Engaged.proceed (engaged : u.Engaged as) (drained : u.Drained)
    (done : s.propagate = .ok (none, t)) (forgets : Forgets t u) :
    Turns as s next (u.proceed as next) := by
  unfold Solver.proceed
  generalize assumed : Solver.assume (as.drop u.depth) u = result
  obtain ⟨choice, v⟩ := result
  obtain ⟨engaged₁, drained₁⟩ := engaged.assume drained rfl assumed
  cases choice with
  | refuted => exact .inl ⟨_, rfl⟩
  | decide l =>
    obtain ⟨free, inside⟩ := engaged.allowed assumed (show (Choice.decide l).Allows v l from rfl)
    obtain ⟨w, branched, engaged₂, _⟩ := engaged₁.branch drained₁ inside free
    simp only [branched]
    exact .inr ⟨w, .decide done forgets assumed rfl branched engaged₂.steers_refl, rfl⟩
  | free =>
    have awaits : v.branching.Awaits v.branching.activity.size fun _ => False :=
      engaged₁.ranked ▸ engaged₁.coherent.waits.mono nofun
    obtain ⟨⟨choice, branching⟩, picked, ranked⟩ :=
      show Delivers (v.branching.pick v.trail.valueVar (v.branching.queue.size + 1)) _ from
        Branching.pick_delivers awaits (Nat.lt_succ_self _)
    simp only [picked]
    cases choice with
    | none => exact .inl ⟨_, rfl⟩
    | some l =>
      obtain ⟨free, inside⟩ :=
        (Branching.pick_awaits engaged₁.coherent.waits picked).2.2 l rfl
      have free : v.value l = .undef := (Trail.value_of_var _ _).mpr free
      obtain ⟨w, branched, engaged₂, _, assigned⟩ := engaged₁.branch drained₁ inside free
      have steers := engaged₁.steers_picked (n := v.decisions + 1) picked ranked assigned engaged₂
      refine .inr ⟨_, .decide done forgets assumed ⟨free, inside⟩ branched steers, ?_⟩
      change Solver.branch { v with decisions := v.decisions + 1, branching } l >>= next = _
      rw [branch_beside branched]
      rfl

/-- A search ends with this round, or goes on where a round leads. -/
theorem Engaged.searchWithin_turns (engaged : s.Engaged as) (n limit met : Nat) :
    ∃ met', Turns as s (searchWithin limit as n met') (searchWithin limit as (n + 1) met s) := by
  rw [searchWithin_succ]
  obtain ⟨⟨conflict, t⟩, ran, engaged₁, grows, drained₁, conflicting⟩ := engaged.propagate
  rw [ran]
  cases conflict with
  | some r => exact ⟨met + 1, engaged₁.respond ran (conflicting r rfl)⟩
  | none =>
    refine ⟨met, ?_⟩
    change Turns as s _ (if limit ≤ met then _ else _)
    split
    · obtain ⟨u, returned, _⟩ := engaged₁.backToRoot
      rw [returned]
      exact .inl ⟨_, rfl⟩
    · split
      · obtain ⟨engaged₂, trail₂⟩ := engaged₁.forgets (reduce_forgets t)
        have drained₂ : t.reduce.Drained := by
          unfold Drained
          rw [trail₂]
          exact drained₁
        exact engaged₂.proceed drained₂ ran (reduce_forgets t)
      · exact engaged₁.proceed drained₁ ran .refl

theorem Engaged.searchWithin_follows {limit met : Nat} (engaged : s.Engaged as) :
    (∃ x, searchWithin limit as n met s = .ok x) ∨ ∃ u, Rounds as n s u := by
  induction n generalizing s met with
  | zero => exact .inr ⟨s, .none⟩
  | succ n ih =>
    obtain ⟨met', answered | ⟨t, round, goes_on⟩⟩ := engaged.searchWithin_turns n limit met
    · exact .inl answered
    · rw [goes_on]
      exact (ih (round.ascends engaged).engaged).imp_right fun ⟨u, rounds⟩ => ⟨u, .next round rounds⟩

/-- Nothing about a search of these assumptions is endless: each has an answer, and it goes through
rounds, of which there are fewer than the bound even if activities make other choices. Wherever these
choices lead, a search that goes on from there has an answer too. -/
structure Halts (as : List Lit) (s : Solver) : Prop where
  answers : ∀ limit, ∃ status t, s.search limit as = .ok (status, t)
  follows : ∀ n limit met, (∃ x, searchWithin limit as n met s = .ok x) ∨ ∃ t, Rounds as n s t
  bounded : ∀ n t, Rounds as n s t → n < roundBound s.varCount as.length
  resumes : ∀ n t limit met, Rounds as n s t →
    ∃ x, searchWithin limit as (roundBound s.varCount as.length - n) met t = .ok x

theorem Engaged.halts (engaged : s.Engaged as) : s.Halts as := by
  -- From every state that is reached, fewer rounds are left than the bound allows.
  have resumes {n : Nat} {t : Solver} (limit met : Nat) (rounds : Rounds as n s t) :
      ∃ x, searchWithin limit as (roundBound s.varCount as.length - n) met t = .ok x := by
    obtain ⟨engaged', count, le⟩ := rounds.ascends engaged
    refine (engaged'.searchWithin_follows).resolve_right ?_
    rintro ⟨u, rest⟩
    have := rest.lt_bound engaged'
    rw [count] at this
    omega
  refine ⟨fun limit => ?_, fun n limit met => engaged.searchWithin_follows, fun n t rounds => ?_,
    fun n t limit met rounds => resumes limit met rounds⟩
  · obtain ⟨⟨status, t⟩, found⟩ := resumes limit 0 .none
    exact ⟨status, t, found⟩
  · have := rounds.lt_bound engaged
    omega

/-! Where searches begin. -/

/-- The solvers at the root that requests and searches lead to, with the clauses that were added on
the way. At any time the activities may change, as if numbers compared otherwise. -/
inductive Rested (settings : Settings) : List (List Lit) → Solver → Prop
  | fresh : Rested settings [] { settings }
  | newVar {Γ : List (List Lit)} {s t : Solver} {v : Var} (rested : Rested settings Γ s)
      (run : s.newVar = .ok (v, t)) : Rested settings Γ t
  | addClause {Γ : List (List Lit)} {s t : Solver} {ls : List Lit} {answer : Bool}
      (rested : Rested settings Γ s) (run : s.addClause ls = .ok (answer, t)) :
      Rested settings (ls :: Γ) t
  | solve {Γ : List (List Lit)} {s t : Solver} {as : List Lit} {answer : Bool}
      (rested : Rested settings Γ s) (run : s.solve as = .ok (answer, t)) : Rested settings Γ t
  /-- A search that is part of a request gives up, and the next one begins. -/
  | search {Γ : List (List Lit)} {s t : Solver} {as : List Lit} {limit : Nat}
      (rested : Rested settings Γ s) (ok : s.ok = true) (named : ∀ l ∈ as, l.var.id < s.varCount)
      (run : s.search limit as = .ok (.undef, t)) : Rested settings Γ t
  | steer {Γ : List (List Lit)} {s t : Solver} (rested : Rested settings Γ s)
      (steers : Steers s t) : Rested settings Γ t

theorem Stands.reserve (stands : s.Stands Γ) :
    Delivers (s.reserve ls) fun t => t.Stands Γ ∧ s.varCount ≤ t.varCount ∧
      ∀ l ∈ ls, l.var.id < t.varCount := by
  unfold Solver.reserve
  induction ls generalizing s with
  | nil => exact .pure ⟨stands, Nat.le_refl _, nofun⟩
  | cons l ls ih =>
    rw [List.foldlM_cons]
    refine ((stands.toAvailable.addVars).and fun t run => stands.addVars run).bind
      fun t _ ⟨⟨_, count, _⟩, stands'⟩ => ?_
    refine (ih stands').mono fun u ⟨stands'', le, named⟩ => ⟨stands'', by omega, fun m member => ?_⟩
    rcases List.mem_cons.mp member with rfl | member
    · omega
    · exact named m member

theorem Stands.engaged (stands : s.Stands Γ) (named : ∀ l ∈ as, l.var.id < s.varCount) :
    s.Engaged as :=
  ⟨stands.coherent, stands.ranked.ranked, .root stands.coherent.engine.trail stands.root, named,
    .root stands.root⟩

theorem Stands.steers (stands : s.Stands Γ) (steers : Steers s t) : t.Stands Γ := by
  have rested : s.Engaged [] := stands.engaged nofun
  obtain ⟨engaged, trail⟩ := rested.steers steers
  have root : t.depth = 0 := (congrArg Trail.depth trail).trans stands.root
  refine ⟨⟨?_, root, ⟨engaged.coherent.waits.mono nofun, engaged.ranked⟩⟩, engaged.coherent⟩
  rcases stands.rest with ⟨failed, refuted⟩ | ⟨_, settled⟩
  · cases steers
    exact .inl ⟨failed, refuted⟩
  · exact .inr ⟨root, settled.tunes (settled.toKnows.steers steers)⟩

theorem Stands.search {limit : Nat} (stands : s.Stands Γ) (ok : s.ok = true)
    (named : ∀ l ∈ as, l.var.id < s.varCount) (run : s.search limit as = .ok (.undef, t)) :
    t.Stands Γ := by
  obtain ⟨settled, poised⟩ := (stands.rest.poised stands.ranked).resolve_left (by simp [ok])
  have underway := settled.underway poised stands.root named
  obtain ⟨⟨settled', root⟩, _⟩ := underway.toSearching.searchWithin run
  have ranked := (underway.search.answer run).ranked
  exact ⟨⟨.inr ⟨root, settled'⟩, root, ranked⟩, settled'.toKnows.coherent⟩

theorem Rested.stands {settings : Settings} (rested : Rested settings Γ s) : s.Stands Γ := by
  induction rested with
  | fresh => exact .fresh settings
  | newVar _ run ih => exact ih.newVar run
  | addClause _ run ih => exact ih.addClause run
  | solve _ run ih => exact ih.solve run
  | search _ ok named run ih => exact ih.search ok named run
  | steer _ steers ih => exact ih.steers steers

/-- From the root no search goes on forever, whatever is assumed, wherever its limit lies, and
whatever the activities say. -/
theorem Rested.search_halts {settings : Settings} (rested : Rested settings Γ s) (as : List Lit) :
    Delivers (s.reserve as) (Halts as) :=
  rested.stands.reserve.mono fun _ ⟨stands, _, named⟩ => (stands.engaged named).halts

/-- Four clauses that have no model in which the first variable is true. The search for one learns from
two conflicts until the assumption is false. Where one conflict is the limit it gives up. -/
theorem search_halts_conflicts : ∃ Γ s t u w, Rested {} Γ s ∧ Γ.length = 4 ∧
    s.reserve [.of ⟨0⟩ true] = .ok t ∧ t.Halts [.of ⟨0⟩ true] ∧
      t.search 10 [.of ⟨0⟩ true] = .ok (.fls, u) ∧ u.conflicts = 2 ∧ u.learnts.size = 1 ∧
        t.search 1 [.of ⟨0⟩ true] = .ok (.undef, w) ∧ w.restarts = 1 := by
  have ran : (do
      let x₁ ← ({} : Solver).addClause [.of ⟨0⟩ false, .of ⟨1⟩ false, .of ⟨2⟩ false]
      let x₂ ← x₁.2.addClause [.of ⟨0⟩ false, .of ⟨1⟩ false, .of ⟨2⟩ true]
      let x₃ ← x₂.2.addClause [.of ⟨0⟩ false, .of ⟨1⟩ true, .of ⟨2⟩ false]
      let x₄ ← x₃.2.addClause [.of ⟨0⟩ false, .of ⟨1⟩ true, .of ⟨2⟩ true]
      let t ← x₄.2.reserve [.of ⟨0⟩ true]
      let u ← t.search 10 [.of ⟨0⟩ true]
      let w ← t.search 1 [.of ⟨0⟩ true]
      return decide ((u.1 = .fls ∧ u.2.conflicts = 2 ∧ u.2.learnts.size = 1) ∧
        w.1 = .undef ∧ w.2.restarts = 1) : Except Fault Bool) = .ok true := by
    decide +kernel
  simp only [bind_ok, pure_ok, Prod.exists] at ran
  obtain ⟨_, s₁, first, _, s₂, second, _, s₃, third, _, s₄, fourth, t, reserved, _, u, found, _, w,
    gave, facts⟩ := ran
  obtain ⟨⟨rfl, conflicts, learnts⟩, rfl, restarts⟩ := of_decide_eq_true facts
  have rested : Rested {} _ s₄ :=
    (((Rested.fresh.addClause first).addClause second).addClause third).addClause fourth
  exact ⟨_, s₄, t, u, w, rested, rfl, reserved, (rested.search_halts _).answer reserved, found, conflicts,
    learnts, gave, restarts⟩

end Solver

end ModelCounting
