import ModelCounting.Proofs.Search.Answering

/-!
Requests to a solver. Whatever was asked before, a variable or a clause can be added, and whether
the clauses have a model is answered, with the model, unless the restarts are exhausted. With the
default settings that takes more conflicts than a word can count, hence many variables.
-/

namespace ModelCounting

def Settings.Exhaustible (settings : Settings) (vars : Nat) : Prop :=
  ∀ x limit, x + 1 < Luby.wordLimit →
    Luby.limit settings.restartGrowth settings.restartFirst x = .ok limit → limit < 2 ^ vars

theorem Settings.Exhaustible.many {vars : Nat} (exhaustible : ({} : Settings).Exhaustible vars) :
    64 ≤ vars := by
  have late : Luby.limit ({} : Settings).restartGrowth ({} : Settings).restartFirst (2 ^ 58 - 2) =
      .ok (100 * 2 ^ 57) := by decide +kernel
  have below : 100 * 2 ^ 57 < 2 ^ vars := exhaustible _ _ (by decide) late
  have : 2 ^ 63 < 2 ^ vars := Nat.lt_trans (by decide) below
  exact (Nat.pow_lt_pow_iff_right (by decide)).mp this

namespace Solver

variable {Γ : List (List Lit)} {as ls : List Lit} {s s' : Solver}

theorem Satisfies.holds {model : Array Bool} {l : Lit} (satisfies : Satisfies model l) :
    l.holds (fun v => model.getD v.id false) = true := by
  have here : model.getD l.var.id false = l.phase := by
    rw [Array.getD_eq_getD_getElem?, satisfies]
    rfl
  rw [Lit.holds, here, beq_self_eq_true]

structure Available (Γ : List (List Lit)) (s : Solver) : Prop where
  rest : s.AtRest Γ
  root : s.depth = 0
  ranked : s.Ranked

theorem Available.fresh (settings : Settings) : ({ settings } : Solver).Available [] where
  rest := .fresh settings
  root := rfl
  ranked := by
    refine ⟨⟨fun v i found => ?_, nofun, nofun⟩, rfl⟩
    simp [VarQueue.place?] at found

theorem Ranked.addVar (ranked : s.Ranked) :
    Delivers (s.branching.addVar ⟨s.varCount⟩) fun b =>
      b.Awaits (s.varCount + 1) (fun _ => False) ∧ b.activity.size = s.varCount + 1 := by
  obtain ⟨waits, ranked⟩ := ranked
  have inserts : Delivers (s.branching.addVar ⟨s.varCount⟩) fun _ => True := by
    refine (VarQueue.insert_delivers (fun w member => ?_) ?_).bind fun _ _ _ => .pure trivial
    · have := waits.inside w member
      simp only [Array.size_push]
      omega
    · simp only [Array.size_push]
      omega
  refine (inserts.and fun b run => And.intro
    (Branching.addVar_awaits waits (Nat.le_succ _) (Nat.lt_succ_self _) run)
    (Branching.addVar_ranked ranked run)).mono fun b ⟨_, waits', ranked'⟩ => ?_
  exact ⟨waits'.mono nofun, ranked'⟩

theorem Available.newVar (available : s.Available Γ) :
    Delivers s.newVar fun x => x.2.Available Γ ∧ x.1 = ⟨s.varCount⟩ ∧
      x.2.varCount = s.varCount + 1 ∧ x.2.settings = s.settings := by
  have count : s.engine.addVar.trail.varCount = s.varCount + 1 := Trail.addVar_varCount _
  have created : Delivers s.newVar fun x => x.1 = ⟨s.varCount⟩ ∧ x.2.varCount = s.varCount + 1 ∧
      x.2.settings = s.settings ∧ x.2.depth = 0 ∧
      x.2.branching.Awaits (s.varCount + 1) (fun _ => False) ∧
      x.2.branching.activity.size = s.varCount + 1 :=
    available.ranked.addVar.bind fun b _ ⟨waits, ranked⟩ =>
      .pure ⟨rfl, count, rfl, available.root, waits, ranked⟩
  refine (created.and fun x run => available.rest.newVar (v := x.1) run).mono ?_
  rintro ⟨v, s'⟩ ⟨⟨new, count', settings, root, waits, ranked⟩, rest⟩
  exact ⟨⟨rest, root, ⟨count'.symm ▸ waits, ranked.trans count'.symm⟩⟩, new, count', settings⟩

theorem Available.addVars {n : Nat} (available : s.Available Γ) :
    Delivers (addVars n s) fun s' => s'.Available Γ ∧ s'.varCount = s.varCount + n ∧
      s'.settings = s.settings := by
  induction n generalizing s with
  | zero => exact .ok ⟨available, rfl, rfl⟩
  | succ n ih =>
    refine available.newVar.bind fun ⟨v, s₁⟩ _ ⟨available₁, _, count₁, settings₁⟩ => ?_
    refine (ih available₁).mono fun s' ⟨available', count', settings'⟩ => ?_
    exact ⟨available', by omega, settings'.trans settings₁⟩

/-! Clauses. -/

theorem AtRest.poised (rest : s.AtRest Γ) (ranked : s.Ranked) :
    s.ok = false ∨ (s.Settled Γ ∧ s.Poised Γ) := by
  rcases rest with ⟨failed, _⟩ | ⟨root, settled⟩
  · exact .inl failed
  · exact .inr ⟨settled, settled.toKnows, ranked.ranked, .root settled.engine.trail root⟩

theorem Settled.assert_delivers (settled : s.Settled Γ) (poised : s.Poised Γ) (root : s.depth = 0)
    (within : l.var.id < s.varCount) (unassigned : s.value l = .undef) (entails : Entails (ls :: Γ) [l]) :
    Delivers (s.assign l none >>= Solver.propagate) fun x => x.2.depth = 0 ∧
      x.2.varCount = s.varCount ∧ x.2.settings = s.settings := by
  have free : s.trail.valueVar l.var = .undef := (Trail.value_of_var _ _).mp unassigned
  refine Delivers.bind ((assign_delivers free).and fun s₁ run => And.intro run
    (settled.toKnows.cons.assign within (by simp) (fun _ _ => entails) run)) ?_
  rintro s₁ - ⟨queue, run, keeps, assigned, _, _, drawn⟩
  have root₁ : s₁.depth = 0 := assigned.depth_eq.trans root
  have poised₁ : s₁.Poised (ls :: Γ) := by
    refine ⟨keeps.knows, ?_, .root keeps.knows.engine.trail root₁⟩
    rw [queue]
    exact poised.ranked.trans assigned.varCount_eq.symm
  refine ((poised₁.propagate (drawn settled.drawn)).and fun x run => propagate_frame run).mono ?_
  rintro ⟨conflict, s₂⟩ ⟨⟨_, done⟩, frame⟩
  have frame : s₂.frame = s.frame := frame.trans (assign_frame run)
  exact ⟨done.spread.grows.depth_eq.trans root₁,
    done.spread.grows.varCount_eq.trans assigned.varCount_eq, congrArg Prod.fst frame⟩

theorem Poised.store_delivers (poised : s.Poised Γ) {ks : List Lit} (long : 1 < ks.length) {r : ClauseRef}
    {bank : ClauseBank} (allocated : s.engine.bank.alloc ks.toArray false = (r, bank)) :
    Delivers (Engine.attach { s.engine with bank } r) fun e => e.trail = s.engine.trail := by
  have own : bank.lits r = ks.toArray := by
    rw [(poised.booked.alloc (fun q alive => ClauseBank.slot_lt
      (Nat.lt_of_succ_lt (poised.engine.stored.long q alive))) allocated).lits_eq, if_pos rfl]
  unfold Engine.attach
  simp only [own]
  rw [if_pos (by simpa using long)]
  exact .ok rfl

/-- A clause of existing variables is stored, asserted or dropped. -/
theorem Available.addClause_stays (available : s.Available Γ)
    (inside : ∀ l ∈ ls, l.var.id < s.varCount) :
    Delivers (s.addClause ls) fun x => x.2.depth = 0 ∧ x.2.varCount = s.varCount ∧
      x.2.settings = s.settings := by
  unfold Solver.addClause
  rw [if_neg (by rw [available.root]; simp)]
  rcases available.rest.poised available.ranked with failed | ⟨settled, poised⟩
  · rw [failed]
    exact .ok ⟨available.root, rfl, rfl⟩
  rw [settled.ok]
  simp only [reserve_inside inside, Bool.not_true, Bool.false_eq_true, if_false]
  obtain ⟨_, members⟩ := sortLits_ok ls
  refine Delivers.bind ⟨s, rfl, rfl⟩ fun s' _ same => ?_
  subst same
  split
  · exact .pure ⟨available.root, rfl, rfl⟩
  · exact .pure ⟨available.root, rfl, rfl⟩
  · rename_i l simplified
    obtain ⟨sub, unassigned, others⟩ := simplify_some simplified
    have entails : Entails (ls :: Γ) [l] := settled.entails_simplified available.root
      fun m member => others m ((members m).mpr member)
    obtain ⟨⟨conflict, s₂⟩, ran, stays⟩ := settled.assert_delivers poised available.root
      (inside l ((members l).mp (sub.subset List.mem_cons_self)))
      (unassigned l List.mem_cons_self) entails
    obtain ⟨s₁, assigned, propagated⟩ := bind_ok.mp ran
    exact ⟨_, bind_ok.mpr ⟨s₁, assigned, bind_ok.mpr ⟨_, propagated, rfl⟩⟩, stays⟩
  · rename_i ks empty single simplified
    have long : 1 < ks.length := by
      match ks, empty, single with
      | [], empty, _ => exact absurd rfl empty
      | [l], _, single => exact absurd rfl (single l)
      | _ :: _ :: _, _, _ => simp
    refine (poised.store_delivers long rfl).bind fun engine _ trail => .pure ?_
    exact ⟨(congrArg Trail.depth trail).trans available.root, congrArg Trail.varCount trail, rfl⟩

theorem Available.addClause (available : s.Available Γ)
    (inside : ∀ l ∈ ls, l.var.id < s.varCount) :
    Delivers (s.addClause ls) fun x => x.2.Available (ls :: Γ) ∧ x.2.varCount = s.varCount ∧
      x.2.settings = s.settings := by
  refine ((available.addClause_stays inside).and fun x run => run).mono
    fun ⟨answer, s'⟩ ⟨⟨root, count, settings⟩, run⟩ => ?_
  have queue := addClause_branching inside run
  refine ⟨⟨available.rest.addClause run, root, ?_, ?_⟩, count, settings⟩
  · rw [count, queue]
    exact available.ranked.waits
  · rw [count, queue]
    exact available.ranked.ranked

/-! Models. -/

theorem Settled.underway (settled : s.Settled Γ) (poised : s.Poised Γ) (root : s.depth = 0)
    (named : ∀ l ∈ as, l.var.id < s.varCount) : s.Underway Γ as where
  toSearching := { settled with follows := .root settled.engine.trail root, named }
  ranked := poised.ranked
  led := poised.led
  climbs := .root root

theorem Underway.search {limit : Nat} (underway : s.Underway Γ as) :
    Delivers (s.search limit as) fun x => Concludes Γ limit s x.1 x.2 := by
  apply underway.searchWithin (Nat.zero_le _)
  exact Nat.le_trans (potential_le_roundBound _ _) (Nat.le_add_right _ _)

structure Stopped (Γ : List (List Lit)) (s : Solver) : Prop where
  ranked : s.Ranked
  left : s.Poised Γ ∨ s.ok = false ∧ s.depth = 0

/-- The searches of a request end, unless each gives up, which needs more assignments than every
limit has conflicts. -/
theorem Settled.solveFrom_strives {n restart : Nat} (settled : s.Settled Γ) (poised : s.Poised Γ)
    (root : s.depth = 0) (named : ∀ l ∈ as, l.var.id < s.varCount)
    (words : restart + n < Luby.wordLimit) :
    Strives (∀ x limit, restart ≤ x → x < restart + n →
        Luby.limit s.settings.restartGrowth s.settings.restartFirst x = .ok limit →
          limit < 2 ^ s.varCount)
      (Solver.solveFrom as n restart s) fun x =>
        s.Continues x.2 ∧ x.2.Stopped Γ := by
  induction n generalizing s restart with
  | zero => exact .inr ⟨fun x _ low high => absurd low (by omega), rfl⟩
  | succ n ih =>
    unfold Solver.solveFrom
    have small : restart + 1 < Luby.wordLimit := by omega
    refine (Luby.limit_delivers small).strives.bind fun limit found _ => ?_
    have underway := settled.underway poised root named
    refine underway.search.strives.bind ?_
    rintro ⟨status, s₁⟩ searched ⟨continues, ranked, left, given_up⟩
    obtain ⟨ends, _⟩ := underway.toSearching.searchWithin searched
    have tuned (knows : s₁.Knows Γ) := knows.congr
      { s₁ with maxLearnts := s₁.maxLearnts * s₁.settings.learntGrowth } rfl rfl rfl rfl rfl rfl
    have continues' : s.Continues
        { s₁ with maxLearnts := s₁.maxLearnts * s₁.settings.learntGrowth } :=
      ⟨continues.varCount_eq, continues.frame_eq⟩
    have settings : s₁.settings = s.settings := congrArg Prod.fst continues.frame_eq
    have left' : { s₁ with maxLearnts := s₁.maxLearnts * s₁.settings.learntGrowth }.Poised Γ ∨
        s₁.ok = false ∧ s₁.depth = 0 :=
      left.imp_left fun poised₁ => poised₁.tunes (tuned poised₁.toKnows) rfl
    cases status with
    | undef =>
      obtain ⟨settled₁, root₁⟩ := ends
      have poised₁ := left'.resolve_right fun failed => by
        rw [settled₁.ok] at failed
        cases failed.1
      have rest := ih (settled₁.tunes (tuned settled₁.toKnows)) poised₁ root₁
        (fun l member => Nat.lt_of_lt_of_eq (named l member) continues.varCount_eq.symm)
        (show restart + 1 + n < Luby.wordLimit by omega)
      refine rest.mono (fun later x limit' low high found' => ?_)
        fun x ends => ⟨continues'.trans ends.1, ends.2⟩
      rcases Nat.eq_or_lt_of_le low with rfl | above
      · obtain rfl := Except.ok.inj (found.symm.trans found')
        exact given_up rfl
      · have := later x limit' above (by omega) (settings ▸ found')
        exact Nat.lt_of_lt_of_eq this (congrArg (2 ^ ·) continues.varCount_eq)
    | tru => exact .inl (.pure ⟨continues', ⟨⟨ranked.waits, ranked.ranked⟩, left'⟩⟩)
    | fls => exact .inl (.pure ⟨continues', ⟨⟨ranked.waits, ranked.ranked⟩, left'⟩⟩)

theorem Stopped.withModel (stopped : s.Stopped Γ) {model : Option (Array Bool)} :
    { s with model }.Stopped Γ where
  ranked := ⟨stopped.ranked.waits, stopped.ranked.ranked⟩
  left := stopped.left.imp_left fun poised =>
    poised.tunes (poised.toKnows.congr _ rfl rfl rfl rfl rfl rfl) rfl

theorem Stopped.backToRoot (stopped : s.Stopped Γ) :
    Delivers (s.backTo 0) fun s' => s'.Ranked ∧ s.Continues s' ∧ s'.depth = 0 := by
  rcases stopped.left with poised | ⟨_, root⟩
  · exact poised.backToRoot.mono fun s' ⟨poised', continues, root⟩ =>
      ⟨poised'.toRanked, continues, root⟩
  · rw [backTo_same (Nat.le_of_eq root)]
    exact .ok ⟨stopped.ranked, ⟨rfl, rfl⟩, root⟩

theorem Stopped.readOff (stopped : s.Stopped Γ) (status : Truth) :
    Delivers ((if status = .tru then { s with model := some (s.trail.values.map (· == .tru)) } else s).backTo 0)
      fun s' => s'.Ranked ∧ s'.varCount = s.varCount ∧ s'.settings = s.settings ∧ s'.depth = 0 ∧
        (status ≠ .tru → s'.model = s.model) := by
  split
  · rename_i yes
    refine stopped.withModel.backToRoot.mono fun s' ⟨ranked, continues, root⟩ => ?_
    exact ⟨ranked, continues.varCount_eq, congrArg Prod.fst continues.frame_eq, root,
      fun no => absurd yes no⟩
  · refine stopped.backToRoot.mono fun s' ⟨ranked, continues, root⟩ => ?_
    exact ⟨ranked, continues.varCount_eq, congrArg Prod.fst continues.frame_eq, root,
      fun _ => congrArg Prod.snd continues.frame_eq⟩

/-- A request is answered, unless its searches give up; without a yes there is no model. -/
theorem Available.solve_strives (available : s.Available Γ) (named : ∀ l ∈ as, l.var.id < s.varCount) :
    Strives (s.settings.Exhaustible s.varCount) (s.solve as) fun x =>
      x.2.depth = 0 ∧ x.2.Ranked ∧ x.2.varCount = s.varCount ∧ x.2.settings = s.settings ∧
        (x.1 = false → x.2.model = none) := by
  unfold Solver.solve
  simp only
  rcases available.rest.poised available.ranked with failed | ⟨settled, poised⟩
  · rw [if_pos (by rw [failed]; rfl)]
    exact .inl (.ok ⟨available.root, ⟨available.ranked.waits, available.ranked.ranked⟩, rfl, rfl,
      fun _ => rfl⟩)
  rw [if_neg (by rw [settled.ok]; decide)]
  have inside : ({ s with model := none } : Solver).reserve as = .ok { s with model := none } :=
    reserve_inside named
  refine Strives.bind (.inl ⟨_, inside, rfl⟩) fun s₁ _ same => ?_
  subst same
  simp only
  generalize limited : ({ s with
    model := none
    maxLearnts := atLeast 10 (s.added.size.toFloat * s.settings.learntShare) } : Solver) = s₁
  obtain ⟨tunes, frame, queue⟩ : Tunes Γ s s₁ ∧ s₁.frame = (s.settings, none) ∧
      s₁.branching = s.branching := by
    subst limited
    exact ⟨settled.toKnows.congr _ rfl rfl rfl rfl rfl rfl, rfl, rfl⟩
  have count : s₁.varCount = s.varCount := congrArg Trail.varCount tunes.trail
  have settings : s₁.settings = s.settings := congrArg Prod.fst frame
  have words : 0 + (Luby.wordLimit - 1) < Luby.wordLimit := by
    rw [Nat.zero_add]
    decide
  have searches := (settled.tunes tunes).solveFrom_strives (poised.tunes tunes (queue ▸ rfl))
    ((congrArg Trail.depth tunes.trail).trans available.root)
    (fun l member => Nat.lt_of_lt_of_eq (named l member) count.symm) words
  refine (searches.mono (fun exhausted x limit small found => ?_) fun x post => post).bind
    fun ⟨status, s₂⟩ _ ⟨continues, stopped⟩ => ?_
  · have := exhausted x limit (Nat.zero_le x) (by omega) (settings ▸ found)
    exact Nat.lt_of_lt_of_eq this (congrArg (2 ^ ·) count)
  have frame₂ : s₂.frame = (s.settings, none) := continues.frame_eq.trans frame
  refine ((stopped.readOff status).bind
    fun s₃ _ ⟨ranked, count₃, settings₃, root, nothing⟩ => .pure ?_).strives
  exact ⟨root, ranked, count₃.trans (continues.varCount_eq.trans count),
    settings₃.trans (congrArg Prod.fst frame₂),
    fun no => (nothing (of_decide_eq_false no)).trans (congrArg Prod.snd frame₂)⟩

/-- Whether the clauses have a model in which the assumptions hold is answered, and rightly; there
is a model to read off just when the answer is yes. -/
theorem Available.solve (available : s.Available Γ) (named : ∀ l ∈ as, l.var.id < s.varCount) :
    Strives (s.settings.Exhaustible s.varCount) (s.solve as) fun x =>
      x.2.Available Γ ∧ x.2.Answers Γ as x.1 ∧ x.2.varCount = s.varCount ∧
        x.2.settings = s.settings ∧ (x.1 = false → x.2.model = none) := by
  rcases available.solve_strives named with delivers | exhausted
  · refine .inl ((delivers.and fun x run =>
      available.rest.solve (show s.solve as = .ok (x.1, x.2) from run)).mono ?_)
    rintro x ⟨⟨root, ranked, count, settings, none⟩, rest, answers⟩
    exact ⟨⟨rest, root, ranked⟩, answers, count, settings, none⟩
  · exact .inr exhausted

end Solver

end ModelCounting
