import ModelCounting.Proofs.Finishing
import ModelCounting.Proofs.Search.Adding

/-!
Steps of a solver that cannot fail. The queue finds a rank for every variable, and every literal
above the root that was not implied opens its level, so the walk of conflict analysis meets a reason
wherever it needs one. Of a solver in this order every step has an answer, and leaves it in order.
-/

namespace ModelCounting

/-! The queue. -/

namespace VarQueue

variable {α : Type} {ranks : Array α} {q : VarQueue} {v : Var} {i : Nat}

theorem rank_of_lt (known : v.id < ranks.size) : rank ranks v = .ok (ranks[v.id]) := by
  unfold rank
  rw [Array.getElem?_eq_getElem known]

variable [LE α] [DecidableLE α]

theorem siftUp_delivers (known : ∀ v ∈ q.heap, v.id < ranks.size) (inside : i < q.size) :
    Delivers (q.siftUp ranks i) fun _ => True := by
  have ranked {q : VarQueue} {k : Nat} (known : ∀ v ∈ q.heap, v.id < ranks.size)
      (inside : k < q.size) : ∃ r, rank ranks (q.slot k) = .ok r :=
    ⟨_, rank_of_lt (known _ (Array.mem_of_getElem? (slot_eq inside)))⟩
  fun_induction siftUp ranks q i with
  | case1 => exact .ok trivial
  | case2 => exact .ok trivial
  | case3 q i root parent r p _ _ unordered ih =>
    have inside' : parent < q.size := by omega
    refine ih (fun v member => known v ((mem_swap inside inside').mp member)) ?_
    rw [size_swap]
    exact inside'
  | case4 q i root e failed =>
    obtain ⟨r, found⟩ := ranked known inside
    rw [found] at failed
    cases failed
  | case5 q i root parent e failed =>
    obtain ⟨r, found⟩ := ranked known (show parent < q.size by omega)
    rw [found] at failed
    cases failed

theorem insert_delivers (known : ∀ w ∈ q.heap, w.id < ranks.size) (new : v.id < ranks.size) :
    Delivers (q.insert ranks v) fun _ => True := by
  unfold insert
  simp only
  split
  · exact .ok trivial
  · refine siftUp_delivers (fun w member => ?_) (by simp [size, setPlace])
    rcases Array.mem_push.mp member with member | rfl
    · exact known w member
    · exact new

theorem bump_delivers (placed : q.Placed) (known : ∀ w ∈ q.heap, w.id < ranks.size) :
    Delivers (q.bump ranks v) fun _ => True := by
  unfold bump
  split
  · rename_i i found
    exact siftUp_delivers known (Array.getElem?_eq_some_iff.mp (placed v i found)).1
  · exact .ok trivial

end VarQueue

namespace VarQueue

variable {α : Type} {ranks : Array α} {q : VarQueue} {i j : Nat} [LT α] [DecidableLT α]

theorem higher_delivers (known : ∀ v ∈ q.heap, v.id < ranks.size) (inside : i < q.size) :
    Delivers (q.higher ranks i j) (· < q.size) := by
  unfold higher
  split
  · rename_i there
    rw [rank_of_lt (known _ (Array.mem_of_getElem? (slot_eq there))),
      rank_of_lt (known _ (Array.mem_of_getElem? (slot_eq inside)))]
    refine .ok ?_
    split
    · exact there
    · exact inside
  · exact .ok inside

theorem siftDown_delivers (known : ∀ v ∈ q.heap, v.id < ranks.size) (inside : i < q.size) :
    Delivers (q.siftDown ranks i) fun q' => q'.size = q.size := by
  fun_induction siftDown ranks q i with
  | case1 q i e failed =>
    obtain ⟨top, found, _⟩ := (higher_delivers (j := 2 * i + 1) known inside).bind
      fun k _ inside' => higher_delivers (j := 2 * i + 2) known inside'
    rw [found] at failed
    cases failed
  | case2 q i top _ lower ih =>
    refine (ih (fun v member => known v ((mem_swap inside lower.2).mp member)) ?_).mono
      fun q' same => same.trans (size_swap q i top)
    rw [size_swap]
    exact lower.2
  | case3 => exact .ok rfl

theorem pop_delivers (known : ∀ v ∈ q.heap, v.id < ranks.size) :
    Delivers (q.pop ranks) fun x => x.1 ≠ none → x.2.size < q.size := by
  unfold pop
  split
  · exact .ok fun some => absurd rfl some
  rename_i filled
  have filled : 0 < q.size := by
    simp only [isEmpty, Array.isEmpty_iff, ← Array.size_eq_zero_iff] at filled
    exact Nat.pos_of_ne_zero filled
  have shorter : (q.heap.swapIfInBounds 0 (q.size - 1)).pop.size < q.size := by
    unfold size at *
    simp
    omega
  have known' : ∀ v ∈ (q.heap.swapIfInBounds 0 (q.size - 1)).pop, v.id < ranks.size := by
    intro v member
    obtain ⟨k, found⟩ := Array.mem_iff_getElem?.mp member
    rw [heap_pop filled] at found
    split at found
    · exact known v (Array.mem_of_getElem? found)
    · cases found
  simp only
  generalize (q.heap.swapIfInBounds 0 (q.size - 1)).pop = heap at shorter known'
  split
  · exact .ok fun _ => shorter
  · rename_i filled'
    have inside : 0 < heap.size := by
      simp only [isEmpty, setPlace, Array.isEmpty_iff, ← Array.size_eq_zero_iff] at filled'
      exact Nat.pos_of_ne_zero filled'
    generalize sunk : VarQueue.setPlace _ _ (some 0) = q₁
    have heap_eq : q₁.heap = heap := by rw [← sunk]; rfl
    obtain ⟨q₂, run, same⟩ := siftDown_delivers (q := q₁) (i := 0)
      (heap_eq ▸ known') (by unfold size; rw [heap_eq]; exact inside)
    rw [run]
    refine .ok fun _ => ?_
    rw [same, size, heap_eq]
    exact shorter

end VarQueue

namespace Branching

variable {b : Branching} {v : Var} {n : Nat} {waiting : Var → Prop}

theorem release_delivers {l : Lit} (awaits : b.Awaits n waiting) (ranked : b.activity.size = n)
    (known : l.var.id < n) :
    Delivers (b.release l) fun b' =>
      b'.Awaits n (fun w => w = l.var ∨ waiting w) ∧ b'.activity.size = n := by
  have delivers : Delivers (b.release l) fun b' => b'.activity.size = n := by
    refine Delivers.bind (VarQueue.insert_delivers (fun w member => ?_) (ranked ▸ known))
      fun queue _ _ => .pure ranked
    exact ranked ▸ awaits.inside w member
  exact (delivers.and fun b' run => release_awaits awaits known run).mono fun _ both => both.symm

theorem bump_delivers (awaits : b.Awaits n waiting) (ranked : b.activity.size = n) :
    Delivers (b.bump v) fun b' => b'.Awaits n waiting ∧ b'.activity.size = n := by
  have delivers : Delivers (b.bump v) fun b' => b'.activity.size = n := by
    unfold bump
    simp only
    split
    · have ranked' : ((b.activity.modify v.id (· + b.increment)).map (· * 1e-100)).size = n := by
        simpa using ranked
      exact Delivers.bind (VarQueue.bump_delivers awaits.placed fun w member =>
        ranked' ▸ awaits.inside w member) fun queue _ _ => .pure ranked'
    · have ranked' : (b.activity.modify v.id (· + b.increment)).size = n := by simpa using ranked
      exact Delivers.bind (VarQueue.bump_delivers awaits.placed fun w member =>
        ranked' ▸ awaits.inside w member) fun queue _ _ => .pure ranked'
  exact (delivers.and fun b' run => bump_awaits awaits run).mono fun _ both => both.symm

theorem pick_delivers {value : Var → Truth} (awaits : b.Awaits b.activity.size waiting)
    (room : b.queue.size < n) :
    Delivers (b.pick value n) fun x => x.2.activity = b.activity := by
  induction n generalizing b waiting with
  | zero => exact absurd room (Nat.not_lt_zero _)
  | succ n ih =>
    unfold pick
    refine (VarQueue.pop_delivers awaits.inside).bind ?_
    rintro ⟨top, queue⟩ popped shorter
    obtain ⟨placed, _, known, _⟩ := VarQueue.pop_placed awaits.placed popped
    cases top with
    | none => exact .pure rfl
    | some v =>
      have := shorter (Option.some_ne_none v)
      simp only
      split
      · exact .pure rfl
      · have awaits' : { b with queue }.Awaits b.activity.size fun _ => False :=
          ⟨placed, fun _ no => no.elim, fun w member => awaits.inside w (known w member)⟩
        exact ih awaits' (Nat.lt_of_lt_of_le this (Nat.le_of_lt_succ room))

theorem addVar_ranked {b' : Branching} (ranked : b.activity.size = n) (run : b.addVar v = .ok b') :
    b'.activity.size = n + 1 := by
  simp only [addVar, bind_ok, pure_ok] at run
  obtain ⟨queue, _, rfl⟩ := run
  simpa using ranked

end Branching

/-! The trail. -/

namespace Trail

variable {t t' : Trail} {l : Lit} {k : Nat}

def Led (t : Trail) : Prop :=
  ∀ (i : Nat) (l : Lit), t.lits[i]? = some l → t.reason l.var = none → 0 < t.level l.var →
    t.starts[t.level l.var - 1]? = some i

namespace Led

theorem root (wf : t.WellFormed) (root : t.depth = 0) : t.Led := by
  intro i l here _ above
  have := wf.level_le_depth (Array.mem_of_getElem? here)
  omega

theorem grows (led : t.Led) (grows : t.Grows t') (wf' : t'.WellFormed)
    (implied : ∀ l ∈ t'.lits, l ∈ t.lits ∨ t'.reason l.var ≠ none ∨ t'.level l.var = 0) :
    t'.Led := by
  intro i l here reason above
  rcases implied l (Array.mem_of_getElem? here) with old | reasoned | root
  · obtain ⟨j, at_j⟩ := Array.mem_iff_getElem?.mp old
    obtain rfl := wf'.distinct i j l l here (grows.keeps j l at_j) rfl
    rw [grows.reason_eq l old] at reason
    rw [grows.level_eq l old] at above ⊢
    rw [grows.starts_eq]
    exact led i l at_j reason above
  · exact absurd reason reasoned
  · omega

theorem decide (led : t.Led) (wf : t.WellFormed) (assigned : t.openLevel.Assigned l none t') :
    t'.Led := by
  intro i m here reason above
  have opened : t.openLevel.depth = t.depth + 1 := Array.size_push ..
  rw [assigned.lits_eq, Array.getElem?_push] at here
  rw [assigned.starts_eq, Trail.openLevel, Array.getElem?_push]
  split at here
  -- The decision itself stands where its level starts.
  · rename_i last
    cases here
    rw [assigned.level_self, opened]
    exact last ▸ if_pos rfl
  · have old := Array.mem_of_getElem? here
    rw [assigned.reason_eq m old] at reason
    have level : t'.level m.var = t.level m.var := assigned.level_eq m old
    rw [level] at above ⊢
    have low := wf.level_le_depth old
    rw [if_neg (show ¬ t.level m.var - 1 = t.starts.size by unfold depth at low; omega)]
    exact led i m here reason above

theorem lowered (led : t.Led) (lowered : t.Lowered k t') : t'.Led := by
  intro i l here reason above
  obtain ⟨here', low⟩ := (lowered.keeps i l).mp here
  rw [lowered.reason_eq l (Array.mem_of_getElem? here)] at reason
  rw [lowered.level_eq] at above ⊢
  have inside := (Array.getElem?_eq_some_iff.mp lowered.start).1
  rw [lowered.starts_eq, Array.take_eq_extract, Array.getElem?_extract, if_pos (by omega),
    Nat.zero_add]
  exact led i l here' reason above

end Led

end Trail

/-! Conflict analysis. -/

namespace Analysis

variable {live : ClauseRef → Prop} {e : Engine} {a : Analysis} {current : List Lit} {n : Nat}
  {p : Lit}

theorem Tracks.reason_ne_none (tracks : Tracks e.trail n current a) (wf : e.trail.WellFormed)
    (led : e.trail.Led) (above : 0 < e.trail.depth) (left : current ≠ [])
    (here : e.trail.lits[n]? = some p) (level : e.trail.level p.var = e.trail.depth) :
    e.trail.reason p.var ≠ none := by
  intro reason
  have start := led n p here reason (level ▸ above)
  rw [level] at start
  obtain ⟨c, member⟩ := List.exists_mem_of_ne_nil _ left
  obtain ⟨same, i, before, at_i⟩ := tracks.current_on c member
  have low := (wf.levelAt_le_iff start).mpr before
  have at_level := wf.level_eq i _ at_i
  rw [Lit.var_neg] at at_level
  omega

theorem resolve_delivers (wf : e.WellFormed live) (led : e.trail.Led) (above : 0 < e.trail.depth)
    (tracks : Tracks e.trail n current a) (left : current ≠ []) (le : n ≤ e.trail.lits.size) :
    Delivers (a.resolve e n) fun _ => True := by
  induction n generalizing a current with
  | zero =>
    obtain ⟨c, member⟩ := List.exists_mem_of_ne_nil _ left
    obtain ⟨_, i, before, _⟩ := tracks.current_on c member
    exact absurd before (Nat.not_lt_zero i)
  | succ n ih =>
    have here : e.trail.lits[n]? = some (e.trail.lits.getD n default) := Engine.getElem?_getD le
    have le' := Nat.le_of_succ_le le
    unfold Analysis.resolve
    simp only
    generalize e.trail.lits.getD n default = p at here ⊢
    have level := tracks.level_eq wf.trail left here
    split
    · rename_i seen
      have member := tracks.mem_current wf.trail.toFaithful (Array.mem_of_getElem? here) level seen
      have unmarked := tracks.unmark here member
      split
      · exact .ok trivial
      · rename_i some_left
        have left' : current.erase (-p) ≠ [] := fun empty => some_left (by
          have := unmarked.pending
          rwa [empty] at this)
        split
        · rename_i r reason
          obtain ⟨current', marked⟩ := unmarked.markReason wf here reason
          obtain ⟨c, still⟩ := List.exists_mem_of_ne_nil _ left'
          exact ih marked.tracks (List.ne_nil_of_mem (marked.keeps still)) le'
        · rename_i reason
          exact absurd reason (unmarked.reason_ne_none wf.trail led above left' here level)
    · rename_i unseen
      exact ih (tracks.pass here unseen) left le'

end Analysis

theorem Engine.WellFormed.analyze_delivers {live : ClauseRef → Prop} {e : Engine}
    (wf : e.WellFormed live) (led : e.trail.Led) {seen : Array Bool} {minimize : Bool}
    {r : ClauseRef} (unmarked : Engine.Unmarked seen e.trail.varCount)
    (conflicting : Engine.Conflicting live e r) (above : 0 < e.trail.depth) :
    Delivers (e.analyze minimize seen r) fun _ => True := by
  obtain ⟨current, left, marked⟩ := wf.markConflict unmarked conflicting above
  exact (Analysis.resolve_delivers wf led above marked.tracks left (Nat.le_refl _)).bind
    fun _ _ _ => .pure trivial

/-! The solver. -/

namespace Solver

variable {Γ : List (List Lit)} {s : Solver} {l : Lit} {r : ClauseRef} {lits : Array Lit}
  {level n : Nat}

theorem unwind_delivers {t : Trail} {b : Branching} {waiting : Var → Prop} (faithful : t.Faithful)
    (awaits : b.Awaits t.varCount waiting) (ranked : b.activity.size = t.varCount) :
    Delivers (unwind n t b) fun x => x.2.activity.size = t.varCount := by
  induction n generalizing t b waiting with
  | zero => exact .ok ranked
  | succ n ih =>
    unfold unwind
    split
    · exact .ok ranked
    · rename_i l last
      have cut := faithful.retract last
      rw [Array.back?_eq_getElem?] at last
      refine (Branching.release_delivers awaits ranked
        (faithful.var_lt (Array.mem_of_getElem? last))).bind fun b' _ ⟨awaits', ranked'⟩ => ?_
      rw [← cut.varCount_eq] at awaits' ranked' ⊢
      exact ih cut.toFaithful awaits' ranked'

structure Poised (Γ : List (List Lit)) (s : Solver) : Prop extends Knows Γ s where
  ranked : s.branching.activity.size = s.varCount
  led : s.trail.Led

/-- A clause that can be learnt once the solver is back at a level: there its first literal is
unassigned, and the others are false. -/
structure Pending (Γ : List (List Lit)) (s : Solver) (lits : Array Lit) (level : Nat) : Prop where
  filled : 0 < lits.size
  nodup : lits.toList.Nodup
  inside : ∀ l ∈ lits, l.var.id < s.varCount
  entailed : Entails Γ lits.toList
  first : ∀ l ∈ s.trail.lits, l.var = (lits.getD 0 default).var → level < s.trail.level l.var
  others : ∀ l ∈ lits, l ≠ lits.getD 0 default → -l ∈ s.trail.lits ∧ s.trail.level l.var ≤ level
  second : 1 < lits.size → s.trail.level (lits.getD 1 default).var = level
  unit : lits.size = 1 → level = 0

theorem Knows.pending (knows : s.Knows Γ) {lesson : Lesson}
    (teaches : Engine.Teaches s.Live s.engine lesson) : s.Pending Γ lesson.lits lesson.level where
  filled := teaches.filled
  nodup := teaches.nodup
  inside l member := by
    have := knows.engine.trail.var_lt (teaches.falsified l member)
    rwa [Lit.var_neg] at this
  entailed value models := teaches.entailed value (knows.grounded models)
  first l _ same := by
    rw [same, trail, teaches.first_level]
    exact teaches.level_lt
  others l member other :=
    ⟨teaches.falsified l member, teaches.others_level l member other⟩
  second := teaches.second_level
  unit := teaches.unit_level

theorem Pending.congr {s' : Solver} (pending : s.Pending Γ lits level)
    (same : s'.trail = s.trail) : s'.Pending Γ lits level where
  filled := pending.filled
  nodup := pending.nodup
  inside := by
    rw [varCount, same]
    exact pending.inside
  entailed := pending.entailed
  first := same ▸ pending.first
  others := same ▸ pending.others
  second := same ▸ pending.second
  unit := pending.unit

theorem Pending.lowered {s' : Solver} {k : Nat} (pending : s.Pending Γ lits level)
    (lowered : s.trail.Lowered k s'.trail) (le : level ≤ k) : s'.Pending Γ lits level where
  filled := pending.filled
  nodup := pending.nodup
  inside := by
    rw [varCount, lowered.varCount_eq]
    exact pending.inside
  entailed := pending.entailed
  first l member same := by
    rw [lowered.level_eq]
    exact pending.first l (lowered.mem member) same
  others l member other := by
    obtain ⟨on, low⟩ := pending.others l member other
    rw [lowered.level_eq]
    refine ⟨lowered.mem_iff.mpr ⟨on, ?_⟩, low⟩
    rw [Lit.var_neg]
    exact Nat.le_trans low le
  second long := (lowered.level_eq _).trans (pending.second long)
  unit := pending.unit

theorem Pending.unassigned (pending : s.Pending Γ lits s.depth) (wf : s.trail.WellFormed) :
    s.trail.valueVar (lits.getD 0 default).var = .undef := by
  refine (wf.undef_iff _).mpr fun l member same => ?_
  have above := pending.first l member same
  have := wf.level_le_depth member
  simp only [depth] at above
  omega

theorem assign_delivers {reason : Option ClauseRef} (unassigned : s.trail.valueVar l.var = .undef) :
    Delivers (s.assign l reason) fun s' => s'.branching = s.branching := by
  have unassigned : s.engine.trail.valueVar l.var = .undef := unassigned
  unfold Solver.assign Engine.assign Trail.assign
  rw [if_pos unassigned]
  exact .ok rfl

theorem Poised.propagate_due {due : ClauseRef → Prop} (poised : s.Poised Γ)
    (owed : ∀ r, due r → s.Live r) (drawn : Engine.Drawn due s.engine s.trail.head) :
    Delivers s.propagate fun x => x.2.Poised Γ ∧ Engine.Emptied x.2.Live s.engine x.1 x.2.engine := by
  obtain ⟨conflict, engine, ran, _⟩ := poised.engine.propagate_due owed drawn
  have run : s.propagate = .ok (conflict, { s with engine }) := by
    unfold Solver.propagate
    rw [ran]
    rfl
  obtain ⟨keeps, emptied, _⟩ := poised.toKnows.propagate_due owed drawn run
  refine ⟨_, run, ⟨keeps.knows, ?_, ?_⟩, emptied⟩
  · exact poised.ranked.trans emptied.spread.grows.varCount_eq.symm
  · exact poised.led.grows emptied.spread.grows emptied.wellFormed.trail fun l member =>
      (emptied.spread.implied l member).imp_right .inl

theorem Poised.propagate (poised : s.Poised Γ)
    (drawn : Engine.Drawn s.Live s.engine s.trail.head) :
    Delivers s.propagate fun x =>
      x.2.Poised Γ ∧ Engine.Propagated x.2.Live s.engine x.1 x.2.engine :=
  ((poised.propagate_due (fun _ alive => alive) drawn).and fun _ run =>
    (poised.toKnows.propagate drawn run).2).mono fun _ ⟨⟨poised', _⟩, propagated⟩ =>
      ⟨poised', propagated⟩

theorem Poised.analyze (poised : s.Poised Γ) (conflicting : Engine.Conflicting s.Live s.engine r)
    (above : 0 < s.depth) :
    Delivers (s.analyze r) fun x =>
      x.2.Poised Γ ∧ Tunes Γ s x.2 ∧ x.2.Pending Γ x.1.lits x.1.level ∧ x.1.level < s.depth := by
  have ranked : Delivers (s.analyze r) fun x => x.2.branching.activity.size = s.varCount := by
    refine (poised.engine.analyze_delivers poised.led poised.marks conflicting above).bind
      fun ⟨lesson, a⟩ _ _ => ?_
    have bumps : Delivers (a.vars.foldlM Branching.bump s.branching) fun b =>
        b.Awaits s.varCount (fun _ => False) ∧ b.activity.size = s.varCount := by
      rw [← Array.foldlM_toList]
      exact .foldlM (fun b ⟨awaits, ranked⟩ v _ => Branching.bump_delivers awaits ranked)
        ⟨poised.waits.mono nofun, poised.ranked⟩
    obtain ⟨bank, x, same, _⟩ := bumpClauses_eq { s with seen := a.seen } a.clauses.toList
    simp only [← Array.foldl_toList, same]
    exact bumps.bind fun b _ ⟨_, ranked⟩ => .pure ranked
  refine (ranked.and fun x run => poised.toKnows.analyze conflicting above run).mono
    fun x ⟨ranked, tunes, teaches⟩ => ?_
  have count : x.2.varCount = s.varCount := congrArg Trail.varCount tunes.trail
  refine ⟨⟨tunes.knows, ranked.trans count.symm, ?_⟩, tunes, ?_, teaches.level_lt⟩
  · rw [tunes.trail]
    exact poised.led
  · exact (poised.toKnows.pending teaches).congr tunes.trail

theorem Poised.decide (poised : s.Poised Γ) (drained : s.trail.head = s.trail.lits.size)
    (inside : l.var.id < s.varCount)
    (unassigned : s.trail.valueVar l.var = .undef) :
    Delivers (s.openLevel.assign l none) fun s' => s'.Poised Γ ∧
      s.trail.openLevel.Assigned l none s'.trail ∧ (Engine.Drawn s.Live s.engine s.trail.head →
        Engine.Drawn s'.Live s'.engine s'.trail.head) := by
  have opened := poised.toKnows.openLevel drained
  refine ((assign_delivers (s := s.openLevel) unassigned).and fun s' run =>
    opened.knows.assign inside (by simp) (fun _ root => ?_) run).mono
    fun s' ⟨branching, keeps, assigned, _, _, drawn'⟩ => ?_
  · exact absurd root (by simp [openLevel, depth, Solver.trail, Trail.openLevel, Trail.depth])
  · refine ⟨⟨keeps.knows, ?_, poised.led.decide poised.engine.trail assigned⟩, assigned, drawn'⟩
    rw [branching]
    exact poised.ranked.trans assigned.varCount_eq.symm

theorem Poised.backTo (poised : s.Poised Γ) (below : level < s.depth) :
    Delivers (s.backTo level) fun s' => s'.Poised Γ ∧ s.trail.Lowered level s'.trail ∧
      ∀ n, s'.trail.lits.size ≤ n → Engine.Drawn s.Live s.engine n →
        Engine.Drawn s'.Live s'.engine s'.trail.head := by
  have ranked : Delivers (s.backTo level) fun s' => s'.branching.activity.size = s.varCount := by
    unfold Solver.backTo
    rw [if_pos below]
    exact (unwind_delivers poised.engine.trail.toFaithful poised.waits poised.ranked).bind
      fun x _ ranked => .pure ranked
  refine (ranked.and fun s' run => poised.toKnows.backTo below run).mono
    fun s' ⟨ranked, keeps, lowered, drawn⟩ => ?_
  exact ⟨⟨keeps.knows, ranked.trans lowered.varCount_eq.symm, poised.led.lowered lowered⟩, lowered,
    drawn⟩

theorem learn_delivers (knows : s.Knows Γ) (pending : s.Pending Γ lits s.depth) :
    Delivers (s.learn lits) fun s' => s'.branching = s.branching := by
  have unassigned := pending.unassigned knows.engine.trail
  unfold Solver.learn
  split
  · exact assign_delivers unassigned
  · rename_i several
    have long : 1 < lits.size := by
      have := pending.filled
      omega
    generalize allocated : s.engine.bank.alloc lits true = allocation
    obtain ⟨r, bank⟩ := allocation
    have own : bank.lits r = lits := by
      rw [(knows.booked.alloc (fun q alive => ClauseBank.slot_lt
        (Nat.lt_of_succ_lt (knows.engine.stored.long q alive))) allocated).lits_eq, if_pos rfl]
    have attached : Delivers (Engine.attach { s.engine with bank } r) fun e =>
        e.trail = s.engine.trail := by
      unfold Engine.attach
      simp only [own]
      rw [if_pos long]
      exact .ok rfl
    refine attached.bind fun engine _ trail => ?_
    obtain ⟨bank', x, bumped, _⟩ := bumpClause_eq { s with engine } r
    simp only [bumped]
    refine (assign_delivers ?_).mono fun s' same => same.trans rfl
    change engine.trail.valueVar _ = _
    rw [trail]
    exact unassigned

theorem Poised.learn (poised : s.Poised Γ) (pending : s.Pending Γ lits s.depth) :
    Delivers (s.learn lits) fun s' => s'.Poised Γ ∧ (Engine.Drawn s.Live s.engine s.trail.head →
        Engine.Drawn s'.Live s'.engine s'.trail.head) ∧
      ∃ reason, s.trail.Assigned (lits.getD 0 default) reason s'.trail := by
  refine ((learn_delivers poised.toKnows pending).and fun s' run =>
    poised.toKnows.learn pending.filled pending.nodup pending.inside pending.entailed
      (fun l member other => (pending.others l member other).1) pending.second pending.unit run).mono
    fun s' ⟨branching, keeps, drawn', reason, assigned, rooted⟩ => ?_
  refine ⟨⟨keeps.knows, ?_, ?_⟩, drawn', reason, assigned⟩
  · rw [branching]
    exact poised.ranked.trans assigned.varCount_eq.symm
  · refine poised.led.grows assigned.toGrows keeps.knows.engine.trail fun l member => ?_
    rcases assigned.mem_iff.mp member with old | rfl
    · exact .inl old
    -- Only a clause of one literal, learnt at the root, is no reason for its literal.
    · refine .inr ?_
      rw [assigned.reason_self, assigned.level_self]
      by_cases none : reason = none
      · exact .inr (rooted none)
      · exact .inl none

end Solver

end ModelCounting
