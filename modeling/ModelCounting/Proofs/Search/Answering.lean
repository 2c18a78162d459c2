import ModelCounting.Proofs.Search.Driving
import ModelCounting.Proofs.Search.Progress
import ModelCounting.Proofs.Search.Restarts

/-!
A solver answers. Between two requests every variable has a rank, so that variables and clauses can
be added. In a search no step fails, and no round is its last for want of rounds. A search gives up
only after as many conflicts as its limit says, and there are fewer conflicts than assignments to
the variables. So the restarts are exhausted only if no limit that they reach is that high.
-/

namespace ModelCounting

namespace Trail

theorem Led.openLevel {t : Trail} (led : t.Led) : t.openLevel.Led := by
  intro i l here reason above
  have start := led i l here reason above
  have inside := (Array.getElem?_eq_some_iff.mp start).1
  change (t.starts.push t.lits.size)[t.level l.var - 1]? = some i
  rw [Array.getElem?_push, if_neg (Nat.ne_of_lt inside)]
  exact start

end Trail

namespace Solver

variable {Γ : List (List Lit)} {as ls : List Lit} {s s' s'' : Solver} {l : Lit} {r : ClauseRef}

def frame (s : Solver) : Settings × Option (Array Bool) := (s.settings, s.model)

structure Continues (s s' : Solver) : Prop where
  varCount_eq : s'.varCount = s.varCount
  frame_eq : s'.frame = s.frame

theorem Continues.trans (first : s.Continues s') (second : s'.Continues s'') : s.Continues s'' :=
  ⟨second.varCount_eq.trans first.varCount_eq, second.frame_eq.trans first.frame_eq⟩

theorem assign_frame {reason : Option ClauseRef} (run : s.assign l reason = .ok s') :
    s'.frame = s.frame := by
  simp only [Solver.assign, bind_ok, pure_ok] at run
  obtain ⟨_, _, rfl⟩ := run
  rfl

theorem propagate_frame {conflict : Option ClauseRef} (run : s.propagate = .ok (conflict, s')) :
    s'.frame = s.frame := by
  simp only [Solver.propagate, bind_ok, pure_ok, Prod.exists, Prod.mk.injEq] at run
  obtain ⟨_, _, _, rfl, rfl⟩ := run
  rfl

theorem analyze_frame {lesson : Lesson} (run : s.analyze r = .ok (lesson, s')) :
    s'.frame = s.frame := by
  simp only [Solver.analyze, bind_ok, pure_ok, Prod.exists, Prod.mk.injEq] at run
  obtain ⟨_, a, _, _, _, rfl, rfl⟩ := run
  obtain ⟨bank, x, same, _⟩ := bumpClauses_eq { s with seen := a.seen } a.clauses.toList
  rw [← Array.foldl_toList, same]
  rfl

theorem backTo_frame {level : Nat} (run : s.backTo level = .ok s') :
    s'.frame = s.frame := by
  unfold Solver.backTo at run
  split at run
  · simp only [bind_ok, pure_ok, Prod.exists] at run
    obtain ⟨_, _, _, rfl⟩ := run
    rfl
  · cases run
    rfl

theorem learn_frame {lits : Array Lit} (run : s.learn lits = .ok s') :
    s'.frame = s.frame := by
  unfold Solver.learn at run
  split at run
  · exact assign_frame run
  · simp only [bind_ok] at run
    obtain ⟨engine, _, run⟩ := run
    obtain ⟨bank, x, same, _⟩ := bumpClause_eq { s with engine } (s.engine.bank.alloc lits true).1
    rw [same] at run
    exact (assign_frame run).trans rfl

/-! One round. -/

structure Underway (Γ : List (List Lit)) (as : List Lit) (s : Solver) : Prop
    extends Searching Γ as s where
  ranked : s.branching.activity.size = s.varCount
  led : s.trail.Led
  climbs : s.trail.Climbs as.length

theorem Underway.poised (underway : s.Underway Γ as) : s.Poised Γ :=
  ⟨underway.toKnows, underway.ranked, underway.led⟩

theorem Pending.filled_level {lits : Array Lit} {level : Nat} (pending : s.Pending Γ lits level)
    (above : 0 < level) : ∃ m ∈ s.trail.lits, s.trail.level m.var = level := by
  have long : 1 < lits.size := by
    have := pending.filled
    have : lits.size ≠ 1 := fun single => by
      have := pending.unit single
      omega
    omega
  have apart : lits.getD 1 default ≠ lits.getD 0 default := fun same =>
    absurd (Engine.getD_inj pending.nodup long pending.filled same) (by decide)
  refine ⟨-lits.getD 1 default, (pending.others _ (Engine.getD_mem long) apart).1, ?_⟩
  rw [Lit.var_neg]
  exact pending.second long

/-- A conflict is met, and what it needs to be analysed is there. -/
structure Clashing (Γ : List (List Lit)) (as : List Lit) (r : ClauseRef) (s : Solver) : Prop
    extends Poised Γ s where
  covers : ∀ c ∈ Γ, s.Covered c
  follows : s.trail.Follows as
  named : ∀ l ∈ as, l.var.id < s.varCount
  climbs : s.trail.Climbs as.length
  conflicting : Engine.Conflicting s.Live s.engine r
  drawn : ∃ k, Engine.Drawn s.Live s.engine k ∧ ∀ n ∈ s.trail.starts, n ≤ k

structure Idle (Γ : List (List Lit)) (as : List Lit) (s : Solver) : Prop
    extends Underway Γ as s where
  drained : s.trail.head = s.trail.lits.size

theorem Idle.settled (idle : s.Idle Γ as) : s.Settled Γ :=
  ⟨idle.toKnows, idle.covers, idle.drawn, idle.drained⟩

theorem Underway.propagate (underway : s.Underway Γ as) :
    Delivers s.propagate fun x => s.Continues x.2 ∧ s.trail.Grows x.2.trail ∧
      (x.1 = none → x.2.Idle Γ as) ∧ ∀ r, x.1 = some r → x.2.Clashing Γ as r := by
  refine ((underway.poised.propagate underway.drawn).and fun x run =>
    And.intro (underway.toKnows.propagate underway.drawn run).1 (propagate_frame run)).mono ?_
  rintro ⟨conflict, s'⟩ ⟨⟨poised, done⟩, keeps, frame⟩
  have grows : s.trail.Grows s'.trail := done.spread.grows
  have covers (c : List Lit) (member : c ∈ Γ) := keeps.covers c (underway.covers c member)
  have follows : s'.trail.Follows as := underway.follows.grows grows fun l member =>
    (done.spread.implied l member).imp_right .inl
  have named (l : Lit) (member : l ∈ as) : l.var.id < s'.varCount :=
    Nat.lt_of_lt_of_eq (underway.named l member) grows.varCount_eq.symm
  have climbs := underway.climbs.grows grows
  obtain ⟨k, drawn, starts_le, all⟩ := done.drawn
  refine ⟨⟨grows.varCount_eq, frame⟩, grows, fun quiet => ?_, fun r met => ?_⟩
  · have whole : Engine.Drawn s'.Live s'.engine s'.trail.head := by
      rw [trail, done.settled, ← all quiet]
      exact drawn
    exact ⟨⟨⟨keeps.knows, covers, whole, follows, named⟩, poised.ranked, poised.led, climbs⟩,
      done.settled⟩
  · exact ⟨poised, covers, follows, named, climbs, done.conflicting r met, k, drawn, starts_le⟩

theorem Clashing.counted (clashing : s.Clashing Γ as r) :
    { s with conflicts := s.conflicts + 1 }.Clashing Γ as r where
  toKnows := (clashing.toKnows.congr { s with conflicts := s.conflicts + 1 }
    rfl rfl rfl rfl rfl rfl).knows
  ranked := clashing.ranked
  led := clashing.led
  covers := clashing.covers
  follows := clashing.follows
  named := clashing.named
  climbs := clashing.climbs
  conflicting := clashing.conflicting
  drawn := clashing.drawn

/-- A conflict above the root raises the weight of the trail. -/
theorem Poised.recover {extra : Nat} (poised : s.Poised Γ)
    (conflicting : Engine.Conflicting s.Live s.engine r) (above : 0 < s.depth)
    (climbs : s.trail.Climbs extra) :
    Delivers (s.recover r) fun s' => s'.Poised Γ ∧ s'.trail.Climbs extra ∧
      s.trail.weight < s'.trail.weight ∧ s.Continues s' := by
  unfold Solver.recover
  refine (poised.analyze conflicting above).bind
    fun ⟨lesson, s₁⟩ analyzed ⟨poised₁, tunes, pending, low⟩ => ?_
  have trail₁ : s₁.trail = s.trail := tunes.trail
  have below : lesson.level < s₁.depth := Nat.lt_of_lt_of_eq low (congrArg Trail.depth trail₁).symm
  refine (poised₁.backTo below).bind fun s₂ returned ⟨poised₂, lowered, _⟩ => ?_
  have depth₂ : s₂.depth = lesson.level := lowered.depth_eq
  have pending₂ : s₂.Pending Γ lesson.lits s₂.depth :=
    depth₂ ▸ pending.lowered lowered (Nat.le_refl _)
  refine (poised₂.learn pending₂).bind fun s₃ learnt ⟨poised₃, _, _, assigned⟩ => .pure ?_
  have decayed := poised₃.toKnows.congr s₃.decay rfl rfl rfl rfl rfl rfl
  have frame : s₃.frame = s.frame :=
    (learn_frame learnt).trans ((backTo_frame returned).trans (analyze_frame analyzed))
  have count : s₃.varCount = s.varCount := assigned.varCount_eq.trans
    (lowered.varCount_eq.trans (congrArg Trail.varCount trail₁))
  refine ⟨⟨decayed.knows, poised₃.ranked, poised₃.led⟩, ?_, ?_, ⟨count, frame⟩⟩
  · exact ((trail₁ ▸ climbs).lowered lowered).grows assigned.toGrows
  · rw [← trail₁]
    exact poised₁.engine.trail.weight_rises lowered assigned pending.filled_level

theorem Clashing.recover (clashing : s.Clashing Γ as r) (above : 0 < s.depth) :
    Delivers (s.recover r) fun s' => s'.Underway Γ as ∧ s.Continues s' ∧
      s.trail.weight < s'.trail.weight := by
  have rises := clashing.toPoised.recover clashing.conflicting above clashing.climbs
  refine (rises.and fun s' run => clashing.toKnows.recover clashing.covers clashing.follows
    clashing.named clashing.conflicting clashing.drawn above run).mono ?_
  rintro s' ⟨⟨poised', climbs', rises, continues⟩, searching, _⟩
  exact ⟨⟨searching, poised'.ranked, poised'.led, climbs'⟩, continues, rises⟩

/-- Opening levels for assumptions that hold. -/
structure Opens (as : List Lit) (s s' : Solver) : Prop where
  continues : s.Continues s'
  branching_eq : s'.branching = s.branching
  weight_eq : s'.trail.weight = s.trail.weight
  depth_le : s.depth ≤ s'.depth
  led : s.trail.Led → s'.trail.Led
  climbs : s.trail.Climbs as.length → s'.trail.Climbs as.length

theorem Opens.refl (as : List Lit) (s : Solver) : Opens as s s :=
  ⟨⟨rfl, rfl⟩, rfl, rfl, Nat.le_refl _, id, id⟩

theorem Opens.level (room : s.depth < as.length) (rest : Opens as s.openLevel s') :
    Opens as s s' where
  continues := ⟨rest.continues.varCount_eq, rest.continues.frame_eq⟩
  branching_eq := rest.branching_eq
  weight_eq := rest.weight_eq.trans s.trail.weight_openLevel
  depth_le := by
    have : s.openLevel.depth = s.depth + 1 := Array.size_push ..
    have := rest.depth_le
    omega
  led led := rest.led led.openLevel
  climbs climbs := rest.climbs (climbs.openLevel room)

theorem assume_opens {choice : Choice} (next : ls = as.drop s.depth)
    (run : assume ls s = (choice, s')) :
    Opens as s s' ∧ ∀ l, choice = .decide l → s'.value l = .undef := by
  induction ls generalizing s with
  | nil =>
    cases run
    exact ⟨.refl _ _, nofun⟩
  | cons l ls ih =>
    unfold Solver.assume at run
    split at run
    · have room : s.depth < as.length := by
        by_contra full
        rw [List.drop_eq_nil_of_le (Nat.le_of_not_lt full)] at next
        cases next
      have depth : s.openLevel.depth = s.depth + 1 := Array.size_push ..
      obtain ⟨opens, unassigned⟩ := ih (s := s.openLevel)
        (by rw [depth, ← List.drop_drop, ← next]; rfl) run
      exact ⟨.level room opens, unassigned⟩
    · cases run
      exact ⟨.refl _ _, nofun⟩
    · rename_i unassigned
      cases run
      refine ⟨.refl _ _, fun m same => ?_⟩
      cases same
      exact unassigned

theorem Idle.assume {choice : Choice} (idle : s.Idle Γ as)
    (run : Solver.assume (as.drop s.depth) s = (choice, s')) :
    s'.Idle Γ as ∧ Opens as s s' ∧ choice.Fits as s' ∧
      ∀ l, choice = .decide l → s'.value l = .undef := by
  obtain ⟨settled, follows, count, fits⟩ := idle.settled.assume idle.follows idle.named rfl run
  obtain ⟨opens, unassigned⟩ := assume_opens rfl run
  refine ⟨⟨⟨⟨settled.toKnows, settled.covers, settled.drawn, follows, fun l member => ?_⟩, ?_,
    opens.led idle.led, opens.climbs idle.climbs⟩, settled.drained⟩, opens, fits, unassigned⟩
  · exact Nat.lt_of_lt_of_eq (idle.named l member) count.symm
  · rw [opens.branching_eq, count]
    exact idle.ranked

theorem Idle.tunes (idle : s.Idle Γ as) (tunes : Tunes Γ s s') (queue : s'.branching = s.branching) :
    s'.Idle Γ as where
  toSearching := idle.toSearching.tunes tunes
  ranked := by
    rw [queue, varCount, tunes.trail]
    exact idle.ranked
  led := tunes.trail ▸ idle.led
  climbs := tunes.trail ▸ idle.climbs
  drained := tunes.trail ▸ idle.drained

theorem Idle.counted (idle : s.Idle Γ as) : { s with decisions := s.decisions + 1 }.Idle Γ as :=
  idle.tunes (idle.toKnows.congr _ rfl rfl rfl rfl rfl rfl) rfl

theorem Idle.reduced (idle : s.Idle Γ as) (crowded : Prop) [Decidable crowded] :
    (if crowded then s.reduce else s).Idle Γ as ∧
      (if crowded then s.reduce else s).trail = s.trail ∧
      (if crowded then s.reduce else s).frame = s.frame := by
  have tunes := idle.toKnows.reduce
  split
  · exact ⟨idle.tunes tunes rfl, tunes.trail, rfl⟩
  · exact ⟨idle, rfl, rfl⟩

structure Advances (Γ : List (List Lit)) (as : List Lit) (s s' : Solver) : Prop where
  continues : s.Continues s'
  underway : s'.Underway Γ as
  weight_le : s.trail.weight ≤ s'.trail.weight
  deeper : s.depth < s'.depth

theorem Idle.branched (idle : s.Idle Γ as)
    (assigned : s.trail.openLevel.Assigned l none s'.trail) (searching : s'.Searching Γ as)
    (ranked : s'.branching.activity.size = s.varCount) (frame : s'.frame = s.frame) :
    Advances Γ as s s' where
  continues := ⟨assigned.varCount_eq, frame⟩
  underway := ⟨searching, ranked.trans assigned.varCount_eq.symm,
    idle.led.decide idle.engine.trail assigned, idle.climbs.decide assigned⟩
  weight_le := s.trail.weight_openLevel ▸ assigned.toGrows.weight_le
  deeper := by
    have opened : s.trail.openLevel.depth = s.trail.depth + 1 := Array.size_push ..
    rw [depth, depth, assigned.depth_eq, opened]
    exact Nat.lt_succ_self _

theorem Idle.branch (idle : s.Idle Γ as) (unassigned : s.value l = .undef)
    (next : as[s.depth]? = some l) : Delivers (s.branch l) (Advances Γ as s) := by
  have inside := idle.named l (List.mem_of_getElem? next)
  obtain ⟨s', run, poised', assigned, _⟩ := idle.poised.decide idle.drained inside
    ((Trail.value_of_var _ _).mp unassigned)
  obtain ⟨searching, _⟩ := idle.settled.branch idle.follows idle.named inside (.inl next) run
  exact ⟨s', run, idle.branched assigned searching (poised'.ranked.trans assigned.varCount_eq)
    (assign_frame (s := s.openLevel) run)⟩

theorem branch_queue (branching : Branching) (run : s.branch l = .ok s') :
    { s with branching }.branch l = .ok { s' with branching } := by
  simp only [Solver.branch, Solver.assign, bind_ok, pure_ok] at run ⊢
  obtain ⟨engine, assigned, rfl⟩ := run
  exact ⟨engine, assigned, rfl⟩

theorem Idle.branchPicked {branching : Branching} {n : Nat} (idle : s.Idle Γ as)
    (free : as.length ≤ s.depth)
    (picked : s.branching.pick s.trail.valueVar n = .ok (some l, branching))
    (ranked : branching.activity = s.branching.activity) :
    Delivers ({ s with branching }.branch l) (Advances Γ as s) := by
  obtain ⟨unassigned, inside⟩ := (Branching.pick_awaits idle.waits picked).2.2 l rfl
  obtain ⟨s₁, branched, _, assigned, _⟩ :=
    idle.poised.decide idle.drained inside unassigned
  have run := branch_queue branching branched
  have frame : s₁.frame = s.frame := assign_frame (s := s.openLevel) branched
  obtain ⟨searching, _⟩ :=
    idle.settled.branchPicked idle.follows idle.named free picked run
  exact ⟨_, run, idle.branched assigned searching (ranked ▸ idle.ranked) frame⟩

theorem Idle.pick (idle : s.Idle Γ as) :
    Delivers (s.branching.pick s.trail.valueVar (s.branching.queue.size + 1))
      fun x => x.2.activity = s.branching.activity := by
  have awaits : s.branching.Awaits s.branching.activity.size fun _ => False :=
    idle.ranked ▸ idle.waits.mono nofun
  exact Branching.pick_delivers awaits (Nat.lt_succ_self _)

/-! A whole search. -/

structure Ranked (s : Solver) : Prop where
  waits : s.branching.Awaits s.varCount fun _ => False
  ranked : s.branching.activity.size = s.varCount

theorem Poised.tunes (poised : s.Poised Γ) (tunes : Tunes Γ s s')
    (queue : s'.branching.activity.size = s.branching.activity.size) : s'.Poised Γ where
  toKnows := tunes.knows
  ranked := by
    rw [queue, varCount, tunes.trail]
    exact poised.ranked
  led := tunes.trail ▸ poised.led

theorem Poised.toRanked (poised : s.Poised Γ) : s.Ranked := ⟨poised.waits.mono nofun, poised.ranked⟩

/-- How a search leaves the solver; it gives up only beyond the limit. -/
structure Concludes (Γ : List (List Lit)) (limit : Nat) (s : Solver) (status : Truth)
    (s' : Solver) : Prop where
  continues : s.Continues s'
  ranked : s'.Ranked
  left : s'.Poised Γ ∨ s'.ok = false ∧ s'.depth = 0
  given_up : status = .undef → limit < 2 ^ s.varCount

theorem Concludes.after {limit : Nat} {status : Truth} (continues : s.Continues s')
    (rest : Concludes Γ limit s' status s'') : Concludes Γ limit s status s'' where
  continues := continues.trans rest.continues
  ranked := rest.ranked
  left := rest.left
  given_up gave := continues.varCount_eq ▸ rest.given_up gave

theorem Poised.concludes {limit : Nat} {status : Truth} (poised : s'.Poised Γ)
    (continues : s.Continues s') (given_up : status = .undef → limit < 2 ^ s.varCount) :
    Concludes Γ limit s status s' :=
  ⟨continues, poised.toRanked, .inl poised, given_up⟩

theorem Poised.backToRoot (poised : s.Poised Γ) :
    Delivers (s.backTo 0) fun s' => s'.Poised Γ ∧ s.Continues s' ∧ s'.depth = 0 := by
  rcases Nat.eq_zero_or_pos s.depth with root | above
  · rw [backTo_same (Nat.le_of_eq root)]
    exact .ok ⟨poised, ⟨rfl, rfl⟩, root⟩
  · refine ((poised.backTo above).and fun s' run => backTo_frame run).mono ?_
    rintro s' ⟨⟨poised', lowered, _⟩, frame⟩
    exact ⟨poised', ⟨lowered.varCount_eq, frame⟩, lowered.depth_eq⟩

/-! The two kinds of a round: after a conflict, and with nothing left to propagate. -/

def respond (next : Solver → Except Fault (Truth × Solver)) (s : Solver) (r : ClauseRef) :
    Except Fault (Truth × Solver) :=
  if s.depth = 0 then .ok (.fls, { s with ok := false }) else s.recover r >>= next

/-- Decides something and goes on, unless an assumption fails or nothing is left to decide. -/
def proceed (as : List Lit) (next : Solver → Except Fault (Truth × Solver)) (s : Solver) :
    Except Fault (Truth × Solver) :=
  match assume (as.drop s.depth) s with
  | (.refuted, s) => .ok (.fls, s)
  | (.decide l, s) => s.branch l >>= next
  | (.free, s) => do
    let x ← s.branching.pick s.trail.valueVar (s.branching.queue.size + 1)
    let s := { s with decisions := s.decisions + 1, branching := x.2 }
    match x.1 with
    | none => .ok (.tru, s)
    | some l => s.branch l >>= next

theorem searchWithin_succ (limit rounds met : Nat) : searchWithin limit as (rounds + 1) met s =
    s.propagate >>= fun x => match x.1 with
      | some r => { x.2 with conflicts := x.2.conflicts + 1 }.respond
          (searchWithin limit as rounds (met + 1)) r
      | none =>
        if limit ≤ met then
          x.2.backTo 0 >>= fun s => .ok (.undef, { s with restarts := s.restarts + 1 })
        else (if x.2.learnts.size.toFloat - x.2.trail.lits.size.toFloat ≥ x.2.maxLearnts then
          x.2.reduce else x.2).proceed as (searchWithin limit as rounds met) := by
  rfl

theorem Clashing.respond {next : Solver → Except Fault (Truth × Solver)}
    (clashing : s.Clashing Γ as r) (limit : Nat)
    (rest : ∀ s', s'.Underway Γ as → s.Continues s' → s.trail.weight < s'.trail.weight →
      Delivers (next s') fun x => Concludes Γ limit s x.1 x.2) :
    Delivers (s.respond next r) fun x => Concludes Γ limit s x.1 x.2 := by
  unfold Solver.respond
  split
  · rename_i root
    have ranked := clashing.toRanked
    exact .ok ⟨⟨rfl, rfl⟩, ⟨ranked.waits, ranked.ranked⟩, .inr ⟨rfl, root⟩, nofun⟩
  · rename_i above
    exact (clashing.recover (Nat.pos_of_ne_zero above)).bind
      fun s' _ ⟨underway, continues, rises⟩ => rest s' underway continues rises

theorem Idle.proceed {next : Solver → Except Fault (Truth × Solver)}
    (idle : s.Idle Γ as) (limit : Nat)
    (rest : ∀ s', Advances Γ as s s' → Delivers (next s') fun x => Concludes Γ limit s x.1 x.2) :
    Delivers (s.proceed as next) fun x => Concludes Γ limit s x.1 x.2 := by
  unfold Solver.proceed
  generalize assumed : Solver.assume (as.drop s.depth) s = result
  obtain ⟨choice, s₁⟩ := result
  obtain ⟨idle₁, opens, fits, unassigned⟩ := idle.assume assumed
  -- The levels opened for assumptions count towards the depth that is reached.
  have deeper {s₂ : Solver} (advances : Advances Γ as s₁ s₂) : Advances Γ as s s₂ :=
    ⟨opens.continues.trans advances.continues, advances.underway,
      opens.weight_eq ▸ advances.weight_le, Nat.lt_of_le_of_lt opens.depth_le advances.deeper⟩
  cases choice with
  | refuted =>
    refine .ok (idle₁.poised.concludes opens.continues ?_)
    rintro ⟨⟩
  | decide l =>
    exact (idle₁.branch (unassigned l rfl) fits).bind fun s₂ _ advances => rest s₂ (deeper advances)
  | free =>
    have idle₂ := idle₁.counted
    refine idle₁.pick.bind ?_
    rintro ⟨choice, branching⟩ picked ranked
    cases choice with
    | none =>
      have settled := (idle₂.settled.pickNone picked).1
      have poised : { s₁ with decisions := s₁.decisions + 1, branching }.Poised Γ :=
        ⟨settled.toKnows, (congrArg Array.size ranked).trans idle₁.ranked, idle₁.led⟩
      refine .ok (poised.concludes ⟨opens.continues.varCount_eq, opens.continues.frame_eq⟩ ?_)
      rintro ⟨⟩
    | some l =>
      refine (idle₂.branchPicked fits picked ranked).bind fun s₂ _ advances => rest s₂ (deeper ?_)
      exact ⟨⟨advances.continues.varCount_eq, advances.continues.frame_eq⟩,
        advances.underway, advances.weight_le, advances.deeper⟩

theorem Poised.restart {limit : Nat} (poised : s.Poised Γ) (enough : limit < 2 ^ s.varCount) :
    Delivers (s.backTo 0 >>= fun s => .ok (Truth.undef, { s with restarts := s.restarts + 1 }))
      fun x => Concludes Γ limit s x.1 x.2 := by
  refine poised.backToRoot.bind fun s₁ _ ⟨poised₁, continues, _⟩ => .ok ?_
  have restarted : { s₁ with restarts := s₁.restarts + 1 }.Poised Γ :=
    poised₁.tunes (poised₁.toKnows.congr _ rfl rfl rfl rfl rfl rfl) rfl
  exact restarted.concludes ⟨continues.varCount_eq, continues.frame_eq⟩ fun _ => enough

/-- A search ends, and it does not give up below its limit: each conflict raises the weight of the
trail, and each round but the last its potential. -/
theorem Underway.searchWithin {limit rounds met : Nat} (underway : s.Underway Γ as)
    (met_le : met ≤ s.trail.weight)
    (room : 2 ^ s.trail.varCount * (s.trail.varCount + as.length + 1) ≤
      rounds + s.trail.potential as.length) :
    Delivers (searchWithin limit as rounds met s) fun x => Concludes Γ limit s x.1 x.2 := by
  induction rounds generalizing s met with
  | zero =>
    have := underway.climbs.potential_lt underway.engine.trail.toFaithful
    omega
  | succ rounds ih =>
    have faithful := underway.engine.trail.toFaithful
    -- One round takes the search further.
    have next {met' : Nat} {s' : Solver} (continues : s.Continues s') (underway' : s'.Underway Γ as)
        (met_le' : met' ≤ s'.trail.weight)
        (rises : s.trail.potential as.length < s'.trail.potential as.length) :
        Delivers (Solver.searchWithin limit as rounds met' s') fun x => Concludes Γ limit s' x.1 x.2 := by
      refine ih underway' met_le' ?_
      rw [show s'.trail.varCount = s.trail.varCount from continues.varCount_eq]
      omega
    rw [searchWithin_succ]
    refine underway.propagate.bind ?_
    rintro ⟨conflict, s₁⟩ _ ⟨continues₁, grows, quiet, clash⟩
    have weight₁ : s.trail.weight ≤ s₁.trail.weight := grows.weight_le
    cases conflict with
    | some r =>
      have continues₂ : s.Continues { s₁ with conflicts := s₁.conflicts + 1 } :=
        ⟨continues₁.varCount_eq, continues₁.frame_eq⟩
      refine ((clash r rfl).counted.respond limit fun s₂ underway₂ continued rises => ?_).mono
        fun x => .after continues₂
      have continues := continues₂.trans continued
      have rises : s.trail.weight < s₂.trail.weight := Nat.lt_of_le_of_lt weight₁ rises
      exact (next continues underway₂ (by omega) (underway.climbs.potential_of_weight faithful
        continues.varCount_eq rises)).mono fun x => .after continued
    | none =>
      have idle := quiet rfl
      simp only
      split
      · rename_i reached
        have below : s.trail.weight < 2 ^ s.varCount := faithful.weight_lt
        have enough : limit < 2 ^ s₁.varCount := by
          rw [continues₁.varCount_eq]
          omega
        exact (idle.poised.restart enough).mono fun x => .after continues₁
      · generalize reduced : (if s₁.learnts.size.toFloat - s₁.trail.lits.size.toFloat ≥ s₁.maxLearnts
          then s₁.reduce else s₁) = s₂
        obtain ⟨idle₂, trail₂, settings₂⟩ := reduced ▸ idle.reduced _
        have continues₂ := continues₁.trans ⟨congrArg Trail.varCount trail₂, settings₂⟩
        refine (idle₂.proceed limit fun s₃ advances => ?_).mono fun x => .after continues₂
        have continues := continues₂.trans advances.continues
        have weight : s.trail.weight ≤ s₃.trail.weight :=
          Nat.le_trans (trail₂ ▸ weight₁) advances.weight_le
        have depth : s.depth < s₃.depth := by
          have same : s₂.depth = s.depth := (congrArg Trail.depth trail₂).trans grows.depth_eq
          exact same ▸ advances.deeper
        exact (next continues advances.underway (by omega) (Trail.potential_of_depth
          continues.varCount_eq weight depth)).mono fun x => .after advances.continues

end Solver

end ModelCounting
