import ModelCounting.Proofs.Finishing
import ModelCounting.Proofs.Search.Adding
import ModelCounting.Search.Stepper

/-!
A solver driven from outside, decision by decision. Whatever is learnt and asserted on the way, each
step finishes, keeps the trail in order and leaves the lower levels alone; a decision or a lesson
that leads to no conflict adds a literal to the trail.
-/

namespace ModelCounting

/-! The queue. -/

namespace VarQueue

variable {α : Type} {ranks : Array α} {q : VarQueue} {v : Var} {i : Nat}

theorem rank_ne_stalled : rank ranks v ≠ .error .stalled := by
  unfold rank
  split <;> exact nofun

theorem siftUp_finishes [LE α] [DecidableLE α] : Finishes (q.siftUp ranks i) fun _ => True := by
  fun_induction siftUp ranks q i with
  | case1 => exact .ok trivial
  | case2 => exact .ok trivial
  | case3 _ _ _ _ _ _ _ _ _ ih => exact ih
  | case4 _ _ _ _ failed => exact .error fun stalled => rank_ne_stalled (stalled ▸ failed)
  | case5 _ _ _ _ _ failed => exact .error fun stalled => rank_ne_stalled (stalled ▸ failed)

theorem insert_finishes [LE α] [DecidableLE α] : Finishes (q.insert ranks v) fun _ => True := by
  unfold insert
  simp only
  split
  · exact .ok trivial
  · exact siftUp_finishes

theorem bump_finishes [LE α] [DecidableLE α] : Finishes (q.bump ranks v) fun _ => True := by
  unfold bump
  split
  · exact siftUp_finishes
  · exact .ok trivial

end VarQueue

namespace Branching

variable {b : Branching} {v : Var}

theorem release_finishes {l : Lit} : Finishes (b.release l) fun _ => True :=
  VarQueue.insert_finishes.bind fun _ _ _ => .pure trivial

theorem bump_finishes : Finishes (b.bump v) fun _ => True :=
  VarQueue.bump_finishes.bind fun _ _ _ => .pure trivial

end Branching

/-! The trail. -/

namespace Trail

variable {t t₁ t₂ : Trail} {l : Lit}

theorem Grows.closed (wf : t.WellFormed) (grows : t.openLevel.Grows t₁)
    (lowered : t₁.Lowered t.depth t₂) : t.Grows t₂ where
  varCount_eq := lowered.varCount_eq.trans grows.varCount_eq
  starts_eq := by
    rw [lowered.starts_eq, grows.starts_eq, Trail.openLevel, depth, Array.take_eq_extract]
    simp
  keeps i l here := by
    refine (lowered.keeps i l).mpr ⟨grows.keeps i l here, ?_⟩
    have member := Array.mem_of_getElem? here
    rw [grows.level_eq l member]
    exact wf.level_le_depth member
  level_eq l member := (lowered.level_eq l.var).trans (grows.level_eq l member)
  reason_eq l member := by
    have member' : l ∈ t₂.lits := by
      refine lowered.mem_iff.mpr ⟨grows.mem member, ?_⟩
      rw [grows.level_eq l member]
      exact wf.level_le_depth member
    exact (lowered.reason_eq l member').trans (grows.reason_eq l member)

theorem Grows.size_le (grows : t.Grows t₁) : t.lits.size ≤ t₁.lits.size := by
  rcases Nat.eq_zero_or_pos t.lits.size with none | some
  · omega
  · have last := grows.keeps (t.lits.size - 1) _ (Array.getElem?_eq_getElem (by omega))
    have := (Array.getElem?_eq_some_iff.mp last).1
    omega

theorem Grows.undef_of_size {v : Var} (grows : t.Grows t₁) (wf : t.WellFormed) (wf₁ : t₁.WellFormed)
    (size : t₁.lits.size = t.lits.size) (unassigned : t.valueVar v = .undef) :
    t₁.valueVar v = .undef := by
  refine (wf₁.undef_iff v).mpr fun l member => (wf.undef_iff v).mp unassigned l ?_
  obtain ⟨i, here⟩ := Array.mem_iff_getElem?.mp member
  have inside : i < t.lits.size := size ▸ (Array.getElem?_eq_some_iff.mp here).1
  have old := Array.getElem?_eq_getElem inside
  have same := Option.some.inj ((grows.keeps i _ old).symm.trans here)
  exact same ▸ Array.mem_of_getElem? old

theorem Grows.closed_size (grows : t.openLevel.Grows t₁) (lowered : t₁.Lowered t.depth t₂) :
    t₂.lits.size = t.lits.size := by
  have start := lowered.start
  rw [grows.starts_eq, Trail.openLevel, Trail.depth, Array.getElem?_push_size] at start
  exact (Option.some.inj start).symm

theorem Assigned.size_lt {reason : Option ClauseRef} (assigned : t.Assigned l reason t₁) :
    t.lits.size < t₁.lits.size := by
  rw [assigned.lits_eq, Array.size_push]
  exact Nat.lt_succ_self _

theorem assign_finishes {reason : Option ClauseRef} (wf : t.WellFormed) (inside : l.var.id < t.varCount) :
    Finishes (t.assign l reason) fun t' => t'.WellFormed ∧ t.Assigned l reason t' := by
  refine ⟨fun stalled => ?_, fun t' run => wf.assign inside run⟩
  unfold Trail.assign at stalled
  split at stalled <;> cases stalled

end Trail

/-! Conflict analysis. -/

namespace Analysis

variable {e : Engine} {a : Analysis} {n : Nat}

def Ranged (n : Nat) (a : Analysis) : Prop := ∀ l ∈ a.lower, l.var.id < n

theorem Ranged.mark {t : Trail} {l : Lit} (ranged : a.Ranged n) (inside : l.var.id < n) :
    (a.mark t l).Ranged n := by
  unfold Analysis.mark
  split
  · exact ranged
  · simp only
    split
    · exact ranged
    · intro m member
      rcases Array.mem_push.mp member with member | rfl
      · exact ranged m member
      · exact inside

theorem Ranged.marks {t : Trail} {ls : List Lit} (ranged : a.Ranged n)
    (inside : ∀ l ∈ ls, l.var.id < n) : (ls.foldl (Analysis.mark t) a).Ranged n := by
  induction ls generalizing a with
  | nil => exact ranged
  | cons l ls ih =>
    exact ih (ranged.mark (inside l List.mem_cons_self)) fun m member =>
      inside m (List.mem_cons_of_mem _ member)

theorem Ranged.markClause {r : ClauseRef} {skip : Nat} (ranged : a.Ranged e.trail.varCount)
    (stored : e.Ranged) : (a.markClause e r skip).Ranged e.trail.varCount := by
  have inside (l : Lit) (member : l ∈ (e.bank.lits r).toList.drop skip) :
      l.var.id < e.trail.varCount := stored r l (by simpa using List.mem_of_mem_drop member)
  unfold Analysis.markClause
  simp only
  split
  · exact Ranged.marks (a := { a with clauses := a.clauses.push r }) ranged inside
  · exact ranged.marks inside

theorem Ranged.resolve (ranged : a.Ranged e.trail.varCount) (stored : e.Ranged)
    (faithful : e.trail.Faithful) (le : n ≤ e.trail.lits.size) :
    Finishes (a.resolve e n) fun x =>
      x.1.var.id < e.trail.varCount ∧ x.2.Ranged e.trail.varCount := by
  induction n generalizing a with
  | zero => exact .error nofun
  | succ n ih =>
    have le' := Nat.le_of_succ_le le
    unfold Analysis.resolve
    simp only
    split
    · split
      · exact .ok ⟨faithful.var_lt (Engine.getD_mem le), ranged⟩
      · split
        · exact ih (Ranged.markClause (by exact ranged) stored) le'
        · exact .error nofun
    · exact ih ranged le'

end Analysis

namespace Engine

variable {e e' : Engine} {l : Lit}

theorem lesson_perm (t : Trail) (lits : Array Lit) : (Analysis.lesson t lits).lits.Perm lits := by
  unfold Analysis.lesson
  split
  · exact .refl _
  · exact swap_perm lits 1 _

theorem analyze_finishes {minimize : Bool} {seen : Array Bool} {r : ClauseRef}
    (faithful : e.trail.Faithful) (ranged : e.Ranged) :
    Finishes (e.analyze minimize seen r) fun x =>
      0 < x.1.lits.size ∧ ∀ l ∈ x.1.lits, l.var.id < e.trail.varCount := by
  have start : Analysis.Ranged e.trail.varCount { seen } := by simp [Analysis.Ranged]
  refine ((start.markClause ranged).resolve ranged faithful (Nat.le_refl _)).bind
    fun ⟨l, a⟩ _ ⟨inside, lower⟩ => .pure ⟨?_, fun m member => ?_⟩
  · rw [(lesson_perm _ _).size_eq, Array.size_append]
    exact Nat.add_pos_left Nat.one_pos _
  · rcases Array.mem_append.mp ((lesson_perm _ _).mem_iff.mp member) with first | kept
    · obtain rfl : m = -l := by simpa using first
      rw [Lit.var_neg]
      exact inside
    · split at kept
      · exact lower m (Array.mem_filter.mp kept).1
      · exact lower m kept

end Engine

/-! The solver. -/

namespace Solver

variable {s s' : Solver} {l : Lit}

/-- The trail is in order, and all literals in the bank are of variables there are. -/
structure Steady (s : Solver) : Prop where
  trail : s.trail.WellFormed
  ranged : s.engine.Ranged

theorem Steady.openLevel (steady : s.Steady) (drained : s.trail.head = s.trail.lits.size) :
    s.openLevel.Steady := ⟨steady.trail.openLevel drained, steady.ranged⟩

theorem Steady.assign {reason : Option ClauseRef} (steady : s.Steady)
    (inside : l.var.id < s.varCount) :
    Finishes (s.assign l reason) fun s' => s'.Steady ∧ s.trail.Assigned l reason s'.trail := by
  have assigned : Finishes (s.engine.trail.assign l reason) _ :=
    Trail.assign_finishes steady.trail inside
  unfold Solver.assign Engine.assign
  cases run : s.engine.trail.assign l reason with
  | error fault => exact .error fun stalled => assigned.ne_stalled (stalled ▸ run)
  | ok t =>
    obtain ⟨wf, became⟩ := assigned.answer t run
    exact .ok ⟨⟨wf, fun r m member => became.varCount_eq ▸ steady.ranged r m member⟩, became⟩

theorem Steady.propagate (steady : s.Steady) :
    Finishes s.propagate fun x => x.2.Steady ∧ s.trail.Grows x.2.trail ∧
      x.2.trail.head = x.2.trail.lits.size := by
  have finishes : Finishes s.engine.propagate fun x => x.2.trail.WellFormed ∧
      s.engine.Spread x.2 ∧ x.2.trail.head = x.2.trail.lits.size :=
    ⟨fun stalled => absurd (Engine.propagate_fault steady.trail steady.ranged stalled) nofun,
      fun x run => Engine.propagate_spread steady.trail steady.ranged run⟩
  exact finishes.bind fun x _ ⟨wf, spread, drained⟩ => .pure
    ⟨⟨wf, spread.ranged steady.ranged⟩, spread.grows, drained⟩

theorem unwind_finishes {n : Nat} {t : Trail} {b : Branching} :
    Finishes (unwind n t b) fun _ => True := by
  induction n generalizing t b with
  | zero => exact .ok trivial
  | succ n ih =>
    unfold unwind
    split
    · exact .ok trivial
    · exact Branching.release_finishes.bind fun _ _ _ => ih

theorem Steady.backTo {level : Nat} (steady : s.Steady) (below : level < s.depth) :
    Finishes (s.backTo level) fun s' => s'.Steady ∧ s.trail.Lowered level s'.trail := by
  refine ⟨?_, fun s' run => ?_⟩
  · have finishes : Finishes (s.backTo level) fun _ => True := by
      unfold Solver.backTo
      rw [if_pos below]
      exact unwind_finishes.bind fun _ _ _ => .pure trivial
    exact finishes.ne_stalled
  · obtain ⟨t, branching, rfl, wf, lowered, _⟩ := backTo_lowered steady.trail below run
    exact ⟨⟨wf, fun r l member => lowered.varCount_eq ▸ steady.ranged r l member⟩, lowered⟩

theorem Steady.relits {bank : ClauseBank} {x : Float} (steady : s.Steady)
    (same : s.engine.bank.SameLits bank) :
    { s with engine.bank := bank, clauseIncrement := x }.Steady :=
  ⟨steady.trail, fun r l member => steady.ranged r l (same.lits_eq r ▸ member)⟩

theorem Steady.analyze {r : ClauseRef} (steady : s.Steady) :
    Finishes (s.analyze r) fun x => x.2.Steady ∧ x.2.trail = s.trail ∧
      0 < x.1.lits.size ∧ ∀ l ∈ x.1.lits, l.var.id < s.varCount := by
  refine (Engine.analyze_finishes steady.trail.toFaithful steady.ranged).bind
    fun ⟨lesson, a⟩ _ inside => ?_
  have bumped {b : Branching} : Finishes (a.vars.foldlM Branching.bump b) fun _ => True := by
    rw [← Array.foldlM_toList]
    exact .foldlM (fun _ _ _ _ => Branching.bump_finishes) trivial
  refine bumped.bind fun branching _ _ => ?_
  rw [← Array.foldl_toList]
  obtain ⟨bank, x, same_state, same⟩ := bumpClauses_eq { s with seen := a.seen } a.clauses.toList
  rw [same_state]
  have tuned := Steady.relits (s := { s with seen := a.seen }) (x := x)
    ⟨steady.trail, steady.ranged⟩ same
  exact .pure ⟨⟨tuned.trail, tuned.ranged⟩, rfl, inside⟩

theorem lits_alloc {b b' : ClauseBank} {lits : Array Lit} {learnt : Bool} {r q : ClauseRef}
    (run : b.alloc lits learnt = (r, b')) {l : Lit} (member : l ∈ b'.lits q) :
    l ∈ b.lits q ∨ l ∈ lits := by
  unfold ClauseBank.alloc at run
  split at run
  · cases run
    simp only [ClauseBank.lits, ClauseBank.get] at member ⊢
    by_cases same : r.slot = q.slot
    · by_cases inside : r.slot < b.slots.size
      · rw [← same, Trail.getD_set_self inside] at member
        exact .inr member
      · rw [Array.setIfInBounds, dif_neg inside] at member
        exact .inl member
    · rw [Trail.getD_set_ne same] at member
      exact .inl member
  · cases run
    simp only [ClauseBank.lits, ClauseBank.get, Array.getD_eq_getD_getElem?, Array.getElem?_push]
      at member ⊢
    split at member
    · exact .inr member
    · exact .inl member

theorem attach_finishes {e : Engine} {r : ClauseRef} :
    Finishes (e.attach r) fun e' => e'.trail = e.trail ∧ e'.bank = e.bank := by
  unfold Engine.attach
  simp only
  split
  · exact .ok ⟨rfl, rfl⟩
  · exact .error nofun

theorem Steady.store {lits : Array Lit} {r : ClauseRef} {bank : ClauseBank} {engine : Engine}
    {learnt : Bool} (steady : s.Steady) (inside : ∀ l ∈ lits, l.var.id < s.varCount)
    (allocated : s.engine.bank.alloc lits learnt = (r, bank))
    (trail : engine.trail = s.engine.trail) (kept : engine.bank = bank) :
    { s with engine }.Steady := by
  have order : engine.trail.WellFormed := trail ▸ steady.trail
  refine ⟨order, fun q l member => ?_⟩
  change l.var.id < engine.trail.varCount
  rw [trail]
  change l ∈ engine.bank.lits q at member
  rw [kept] at member
  rcases lits_alloc allocated member with old | new
  · exact steady.ranged q l old
  · exact inside l new

theorem Steady.record {r : ClauseRef} {engine : Engine} (stored : { s with engine }.Steady)
    (trail : engine.trail = s.engine.trail) :
    (s.record engine r).Steady ∧ (s.record engine r).trail = s.trail := by
  obtain ⟨bank, x, bumped, same⟩ := bumpClause_eq { s with engine } r
  unfold Solver.record
  rw [bumped]
  have tuned := stored.relits (x := x) same
  exact ⟨⟨tuned.trail, tuned.ranged⟩, trail⟩

theorem Steady.learn {lits : Array Lit} (steady : s.Steady) (filled : 0 < lits.size)
    (inside : ∀ l ∈ lits, l.var.id < s.varCount) :
    Finishes (s.learn lits) fun s' =>
      s'.Steady ∧ ∃ reason, s.trail.Assigned (lits.getD 0 default) reason s'.trail := by
  have first := inside _ (Engine.getD_mem filled)
  unfold Solver.learn
  by_cases single : lits.size = 1
  · rw [if_pos single]
    exact (steady.assign first).mono fun s' ⟨steady', assigned⟩ => ⟨steady', _, assigned⟩
  · rw [if_neg single]
    generalize allocated : s.engine.bank.alloc lits true = allocation
    obtain ⟨r, bank⟩ := allocation
    refine attach_finishes.bind fun engine _ ⟨trail, kept⟩ => ?_
    obtain ⟨recorded, same⟩ := (steady.store inside allocated trail kept).record trail (r := r)
    change Finishes ((s.record engine r).assign _ _) _
    generalize s.record engine r = s₁ at recorded same
    rw [← same]
    refine (recorded.assign ?_).mono fun s' ⟨steady', assigned⟩ => ⟨steady', _, assigned⟩
    rw [varCount, same]
    exact first

/-! New variables and clauses. -/

theorem Steady.newVar {v : Var} (steady : s.Steady) (run : s.newVar = .ok (v, s')) :
    s'.Steady ∧ s'.varCount = s.varCount + 1 ∧ v.id = s.varCount := by
  simp only [Solver.newVar, bind_ok, pure_ok, Prod.mk.injEq] at run
  obtain ⟨branching, _, rfl, rfl⟩ := run
  have count : ({ s with engine := s.engine.addVar } : Solver).varCount = s.varCount + 1 :=
    Trail.addVar_varCount _
  refine ⟨⟨steady.trail.addVar, fun r l member => ?_⟩, count, rfl⟩
  exact Nat.lt_of_lt_of_eq (Nat.lt_succ_of_lt (steady.ranged r l member)) count.symm

theorem reserve_inside {ls : List Lit} (inside : ∀ l ∈ ls, l.var.id < s.varCount) :
    s.reserve ls = .ok s := by
  unfold Solver.reserve
  induction ls with
  | nil => rfl
  | cons l ls ih =>
    have enough : l.var.id + 1 - s.varCount = 0 := by
      have := inside l List.mem_cons_self
      omega
    rw [List.foldlM_cons, enough]
    exact ih fun m member => inside m (List.mem_cons_of_mem _ member)

theorem Steady.addClause {ls : List Lit} {answer : Bool} (steady : s.Steady)
    (inside : ∀ l ∈ ls, l.var.id < s.varCount) (run : s.addClause ls = .ok (answer, s')) :
    s'.Steady ∧ s'.varCount = s.varCount := by
  obtain ⟨_, ⟨_, rfl⟩ | ⟨_, t, reserved, takes⟩⟩ := addClause_takes run
  · exact ⟨steady, rfl⟩
  cases (reserve_inside inside).symm.trans reserved
  have within {ks : List Lit} (simplified : simplify? s.value none (sortLits ls) = some ks) :
      ∀ l ∈ ks, l.var.id < s.varCount := fun l member =>
    inside l (((sortLits_ok ls).2 l).mp ((simplify_some simplified).1.subset member))
  cases takes with
  | satisfied => exact ⟨steady, rfl⟩
  | falsified => exact ⟨⟨steady.trail, steady.ranged⟩, rfl⟩
  | unit simplified assigned propagated =>
    obtain ⟨steady₁, became⟩ :=
      (steady.assign (within simplified _ List.mem_cons_self)).answer _ assigned
    obtain ⟨steady₂, grows, _⟩ := steady₁.propagate.answer _ propagated
    exact ⟨⟨steady₂.trail, steady₂.ranged⟩, grows.varCount_eq.trans became.varCount_eq⟩
  | stored simplified allocated attached =>
    obtain ⟨trail, kept⟩ := attach_finishes.answer _ attached
    have stored := steady.store (fun l member => within simplified l (by simpa using member))
      allocated trail kept
    exact ⟨⟨stored.trail, stored.ranged⟩, congrArg Trail.varCount trail⟩

end Solver

/-! The stepper. -/

namespace Stepper

variable {p q : Stepper} {v : Var} {phase : Bool}

def Teachable (n : Nat) (lits : Array Lit) : Prop := 0 < lits.size ∧ ∀ l ∈ lits, l.var.id < n

/-- Nothing is left to propagate, and the lesson kept for later may be learnt. -/
structure Steady (p : Stepper) : Prop where
  core : p.core.Steady
  drained : p.core.trail.head = p.core.trail.lits.size
  lesson : ∀ lits, p.lesson = some lits → Teachable p.core.varCount lits

theorem settle_finishes (core : p.core.Steady)
    (lesson : ∀ lits, p.lesson = some lits → Teachable p.core.varCount lits) :
    Finishes p.settle fun x => x.2.Steady ∧ p.core.trail.Grows x.2.core.trail := by
  refine core.propagate.bind fun ⟨conflict, s⟩ _ ⟨steady, grows, drained⟩ => ?_
  have count : s.varCount = p.core.varCount := grows.varCount_eq
  cases conflict with
  | none => exact .pure ⟨⟨steady, drained, fun lits same => count ▸ lesson lits same⟩, grows⟩
  | some r =>
    simp only
    split
    · refine steady.analyze.bind fun ⟨lesson', s'⟩ _ ⟨steady', trail, teachable⟩ => .pure ?_
      simp only at trail teachable
      refine ⟨⟨steady', trail ▸ drained, fun lits same => ?_⟩, trail ▸ grows⟩
      cases same
      rw [Solver.varCount, trail]
      exact teachable
    · exact .pure ⟨⟨steady, drained, by simp⟩, grows⟩

/-- A decision opens a level. Without a conflict the level has a literal. -/
theorem Steady.decide (steady : p.Steady) :
    Finishes (p.decide v phase) fun x => x.2.Steady ∧
      p.core.trail.openLevel.Grows x.2.core.trail ∧
        (x.1 = true → p.core.trail.lits.size < x.2.core.trail.lits.size) := by
  have opened := steady.core.openLevel steady.drained
  have known : Finishes (p.core.openLevel.valueOf (.packed v phase)) fun _ =>
      (Lit.packed v phase).var.id < p.core.openLevel.varCount := by
    unfold Solver.valueOf
    split
    · exact .ok ‹_›
    · exact .error nofun
  refine known.bind fun truth _ inside => ?_
  cases truth with
  | fls => exact .pure ⟨⟨opened, steady.drained, steady.lesson⟩, .refl _, nofun⟩
  | tru => exact .error nofun
  | undef =>
    refine (opened.assign inside).bind fun s _ ⟨steady', assigned⟩ => ?_
    have count : s.varCount = p.core.varCount := assigned.varCount_eq
    refine (settle_finishes steady' fun lits same => count ▸ steady.lesson lits same).mono
      fun x ⟨settled, grows⟩ => ?_
    exact ⟨settled, assigned.toGrows.trans grows, fun _ =>
      Nat.lt_of_lt_of_le assigned.size_lt grows.size_le⟩

theorem Steady.undo (steady : p.Steady) :
    Finishes (p.undo v) fun q => q.Steady ∧
      p.core.trail.Lowered (p.core.depth - 1) q.core.trail := by
  unfold Stepper.undo
  split
  · exact .error nofun
  · refine (steady.core.backTo (by omega)).bind fun s _ ⟨steady', lowered⟩ => .pure ?_
    have count : s.varCount = p.core.varCount := lowered.varCount_eq
    exact ⟨⟨steady', lowered.head_eq, fun lits same => count ▸ steady.lesson lits same⟩, lowered⟩

theorem Steady.assertLesson (steady : p.Steady) :
    Finishes p.assertLesson fun x => x.2.Steady ∧ p.core.trail.Grows x.2.core.trail ∧
      p.core.trail.lits.size < x.2.core.trail.lits.size := by
  unfold Stepper.assertLesson
  split
  · exact .error nofun
  · split
    · exact .error nofun
    · rename_i lits same
      obtain ⟨filled, inside⟩ := steady.lesson lits same
      refine (steady.core.learn filled inside).bind fun s _ ⟨learnt, _, assigned⟩ => ?_
      have decayed : s.decay.Steady := ⟨learnt.trail, learnt.ranged⟩
      refine (settle_finishes decayed fun _ none => by cases none).mono fun x ⟨steady', grows⟩ => ?_
      exact ⟨steady', assigned.toGrows.trans grows,
        Nat.lt_of_lt_of_le assigned.size_lt grows.size_le⟩

theorem nameOf_ne_stalled : p.nameOf v ≠ .error .stalled := by
  unfold nameOf
  split <;> exact nofun

theorem litOf_finishes {l : Lit} : Finishes (p.litOf l) fun _ => True :=
  Finishes.bind ⟨nameOf_ne_stalled, fun _ _ => trivial⟩ fun _ _ _ => .pure trivial

theorem Steady.newlyImplied {known : IndexSet} {s : Store} (steady : p.Steady) :
    Finishes (p.newlyImplied known s) fun x => x.2.1.Steady ∧ x.2.1.core = p.core :=
  (Finishes.mapM fun _ _ => litOf_finishes).bind fun _ _ _ =>
    .pure ⟨⟨steady.core, steady.drained, steady.lesson⟩, rfl⟩

/-! A stepper that is given its clauses. -/

structure Numbered (p : Stepper) : Prop where
  core : p.core.Steady
  count : p.core.varCount = p.names.size
  inside : ∀ {v i : Var}, p.numbers[v]? = some i → i.id < p.core.varCount
  untaught : p.lesson = none

theorem Numbered.number {i : Var} (numbered : p.Numbered) (run : p.number v = .ok (i, q)) :
    q.Numbered ∧ i.id < q.core.varCount ∧ p.core.varCount ≤ q.core.varCount := by
  unfold Stepper.number at run
  split at run
  · rename_i known
    cases run
    exact ⟨numbered, numbered.inside known, Nat.le_refl _⟩
  · simp only [bind_ok, pure_ok, Prod.exists, Prod.mk.injEq] at run
    obtain ⟨w, core, added, rfl, rfl⟩ := run
    obtain ⟨steady, count, new⟩ := numbered.core.newVar added
    have below : w.id < core.varCount := by omega
    have le : p.core.varCount ≤ core.varCount := by omega
    refine ⟨⟨steady, ?_, fun {u j} known => ?_, numbered.untaught⟩, below, le⟩
    · rw [count, numbered.count, Array.size_push]
    · rw [Std.TreeMap.getElem?_insert] at known
      split at known
      · cases known
        exact below
      · exact Nat.lt_of_lt_of_le (numbered.inside known) le

theorem Numbered.numberLits {ls ms : List Lit} (numbered : p.Numbered)
    (run : p.numberLits ls = .ok (ms, q)) :
    q.Numbered ∧ (∀ m ∈ ms, m.var.id < q.core.varCount) ∧ p.core.varCount ≤ q.core.varCount := by
  induction ls generalizing p ms with
  | nil =>
    cases run
    exact ⟨numbered, by simp, Nat.le_refl _⟩
  | cons l ls ih =>
    simp only [Stepper.numberLits, bind_ok, pure_ok, Prod.exists, Prod.mk.injEq] at run
    obtain ⟨i, p₁, first, ms', p₂, rest, rfl, rfl⟩ := run
    obtain ⟨numbered₁, below, le₁⟩ := numbered.number first
    obtain ⟨numbered₂, inside, le₂⟩ := ih numbered₁ rest
    refine ⟨numbered₂, fun m member => ?_, Nat.le_trans le₁ le₂⟩
    rcases List.mem_cons.mp member with rfl | member
    · rw [Lit.var_of]
      exact Nat.lt_of_lt_of_le below le₂
    · exact inside m member

theorem Numbered.addClause {ls : List Lit} (numbered : p.Numbered)
    (run : p.addClause ls = .ok q) : q.Numbered := by
  simp only [Stepper.addClause, bind_ok, pure_ok, Prod.exists] at run
  obtain ⟨ms, p₁, renamed, answer, core, added, rfl⟩ := run
  obtain ⟨numbered₁, inside, _⟩ := numbered.numberLits renamed
  obtain ⟨steady, count⟩ := numbered₁.core.addClause inside added
  exact ⟨steady, count.trans numbered₁.count, fun known => count ▸ numbered₁.inside known,
    numbered₁.untaught⟩

theorem Numbered.add {s : Store} {f : Formula} (numbered : p.Numbered)
    (run : p.add s f = .ok q) : q.Numbered := by
  simp only [Stepper.add, bind_ok] at run
  obtain ⟨clauses, _, run⟩ := run
  exact foldlM_ok Numbered (fun _ _ _ _ numbered run => numbered.addClause run) numbered run

theorem Numbered.fresh (settings : Settings) : Numbered { core := { settings } } where
  core := ⟨.empty, fun r l member => by simp [ClauseBank.lits, ClauseBank.get] at member⟩
  count := rfl
  inside known := by simp at known
  untaught := rfl

theorem Numbered.start (numbered : p.Numbered) :
    Finishes p.start fun x => x.1 = true →
      x.2.Steady ∧ x.2.core.varCount = x.2.varCount := by
  unfold Stepper.start
  simp only
  split
  · refine numbered.core.propagate.bind fun ⟨conflict, s⟩ _ ⟨steady, grows, drained⟩ => .pure ?_
    refine fun _ => ⟨⟨steady, drained, fun lits same => ?_⟩, ?_⟩
    · rw [show _ = p.lesson from rfl, numbered.untaught] at same
      cases same
    · exact grows.varCount_eq.trans numbered.count
  · exact .pure nofun

end Stepper

end ModelCounting
