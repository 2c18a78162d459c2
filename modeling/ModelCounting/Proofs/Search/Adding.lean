import ModelCounting.Proofs.Search.Entailment
import ModelCounting.Proofs.Sorting

/-!
Adding clauses. A clause is sorted, loses the literals that are false at the root, and is then
dropped, asserted or stored. In every case the solver covers it from then on, unless the clauses are
refuted.
-/

namespace ModelCounting

namespace Solver

variable {Γ : List (List Lit)} {s s' : Solver} {l : Lit} {ls ks : List Lit}

/-! Sorted clauses. -/

theorem eraseReps_loop (acc : List Lit) (sorted : (l :: ls).Pairwise fun l m => l.code ≤ m.code)
    (descends : (l :: acc).Pairwise fun l m => m.code < l.code) :
    (List.eraseRepsBy.loop (· == ·) l ls acc).Pairwise (fun l m => l.code < m.code) ∧
      ∀ m, m ∈ List.eraseRepsBy.loop (· == ·) l ls acc ↔ m ∈ acc ∨ m = l ∨ m ∈ ls := by
  induction ls generalizing l acc with
  | nil =>
    simp only [List.eraseRepsBy.loop]
    refine ⟨List.pairwise_reverse.mpr descends, fun m => ?_⟩
    simp [or_comm]
  | cons k ls ih =>
    obtain ⟨least, sorted'⟩ := List.pairwise_cons.mp sorted
    simp only [List.eraseRepsBy.loop]
    cases same : l == k with
    | true =>
      obtain rfl := eq_of_beq same
      obtain ⟨ascends, members⟩ := ih acc sorted' descends
      refine ⟨ascends, fun m => (members m).trans ?_⟩
      simp only [List.mem_cons]
      tauto
    | false =>
      have above : l.code < k.code := by
        refine Nat.lt_of_le_of_ne (least k List.mem_cons_self) fun codes => ?_
        have : l = k := by
          cases l
          cases k
          exact congrArg Lit.mk codes
        simp [this] at same
      obtain ⟨ascends, members⟩ := ih (l :: acc) sorted' (List.pairwise_cons.mpr
        ⟨fun m member => by
          rcases List.mem_cons.mp member with rfl | member
          · exact above
          · exact Nat.lt_trans ((List.pairwise_cons.mp descends).1 m member) above, descends⟩)
      refine ⟨ascends, fun m => (members m).trans ?_⟩
      simp only [List.mem_cons]
      tauto

theorem sortLits_ok (ls : List Lit) :
    (sortLits ls).Nodup ∧ ∀ l, l ∈ sortLits ls ↔ l ∈ ls := by
  have perm := sortBy_perm (fun l m => decide (l.code ≤ m.code)) ls
  have sorted : (sortBy (fun l m => decide (l.code ≤ m.code)) ls).Pairwise
      fun l m => decide (l.code ≤ m.code) = true :=
    pairwise_sortBy (fun l m => by simpa using Nat.le_total _ _)
      (fun l m k => by simpa using Nat.le_trans) ls
  unfold sortLits
  generalize sortBy (fun l m => decide (l.code ≤ m.code)) ls = sorted_ls at perm sorted ⊢
  cases sorted_ls with
  | nil =>
    have : ls = [] := perm.nil_eq.symm
    simp [this, List.eraseReps, List.eraseRepsBy]
  | cons l rest =>
    have ordered : (l :: rest).Pairwise fun l m => l.code ≤ m.code := by simpa using sorted
    obtain ⟨ascends, members⟩ := eraseReps_loop [] ordered (by simp)
    refine ⟨ascends.imp fun less same => ?_, fun m => (members m).trans ?_⟩
    · rw [same] at less
      exact Nat.lt_irrefl _ less
    · rw [← perm.mem_iff]
      simp

theorem simplify_some {value : Lit → Truth} {last : Option Lit}
    (run : simplify? value last ls = some ks) :
    ks.Sublist ls ∧ (∀ l ∈ ks, value l = .undef) ∧ ∀ l ∈ ls, l ∈ ks ∨ value l = .fls := by
  induction ls generalizing last ks with
  | nil =>
    cases run
    simp
  | cons l ls ih =>
    unfold simplify? at run
    split at run
    · cases run
    rename_i neither
    split at run
    · rename_i falsified
      obtain ⟨sublist, unassigned, rest⟩ := ih run
      refine ⟨sublist.cons _, unassigned, fun m member => ?_⟩
      rcases List.mem_cons.mp member with rfl | member
      · exact .inr falsified
      · exact rest m member
    · rename_i unfalsified
      obtain ⟨ks', simplified, rfl⟩ := Option.map_eq_some_iff.mp run
      obtain ⟨sublist, unassigned, rest⟩ := ih simplified
      refine ⟨sublist.cons_cons l, fun m member => ?_, fun m member => ?_⟩
      · rcases List.mem_cons.mp member with rfl | member
        · cases h : value m with
          | undef => rfl
          | tru => exact absurd (.inl h) neither
          | fls => exact absurd h unfalsified
        · exact unassigned m member
      · rcases List.mem_cons.mp member with rfl | member
        · exact .inl List.mem_cons_self
        · exact (rest m member).imp_left (List.mem_cons_of_mem _)

theorem simplify_none {value : Lit → Truth} {last : Option Lit}
    (run : simplify? value last ls = none) :
    (∃ l ∈ ls, value l = .tru) ∨ ∃ l ∈ ls, -l ∈ ls ∨ last = some (-l) := by
  induction ls generalizing last with
  | nil => cases run
  | cons l ls ih =>
    unfold simplify? at run
    split at run
    · rename_i either
      exact either.imp (fun h => ⟨l, List.mem_cons_self, h⟩) fun h => ⟨l, List.mem_cons_self, .inr h⟩
    -- The literal kept last is one of the list, or the one that the list was started with.
    have widen (last' : Option Lit) (found : (∃ m ∈ ls, value m = .tru) ∨
        ∃ m ∈ ls, -m ∈ ls ∨ last' = some (-m)) (known : ∀ m ∈ ls, last' = some (-m) →
          -m ∈ l :: ls ∨ last = some (-m)) :
        (∃ m ∈ l :: ls, value m = .tru) ∨ ∃ m ∈ l :: ls, -m ∈ l :: ls ∨ last = some (-m) := by
      rcases found with ⟨m, member, true_⟩ | ⟨m, member, negated | before⟩
      · exact .inl ⟨m, List.mem_cons_of_mem _ member, true_⟩
      · exact .inr ⟨m, List.mem_cons_of_mem _ member, .inl (List.mem_cons_of_mem _ negated)⟩
      · exact .inr ⟨m, List.mem_cons_of_mem _ member, known m member before⟩
    split at run
    · exact widen last (ih run) fun m _ before => .inr before
    · refine widen (some l) (ih (Option.map_eq_none_iff.mp run)) fun m _ before => .inl ?_
      exact List.mem_cons.mpr (.inl (Option.some.inj before).symm)

/-! The clause is covered. -/

structure Settled (Γ : List (List Lit)) (s : Solver) : Prop extends Knows Γ s where
  covers : ∀ c ∈ Γ, s.Covered c
  drawn : Engine.Drawn s.Live s.engine s.trail.head
  drained : s.trail.head = s.trail.lits.size

def AtRest (Γ : List (List Lit)) (s : Solver) : Prop :=
  (s.ok = false ∧ Refuted Γ) ∨ (s.depth = 0 ∧ s.Settled Γ)

theorem Knows.entails_simplified (knows : s.Knows Γ) (root : s.depth = 0)
    (rest : ∀ l ∈ ls, l ∈ ks ∨ s.value l = .fls) : Entails (ls :: Γ) ks := by
  intro value models
  obtain ⟨l, member, true_⟩ := models ls List.mem_cons_self
  rcases rest l member with kept | falsified
  · exact ⟨l, kept, true_⟩
  · have on := (knows.engine.trail.false_iff l).mp falsified
    have level := knows.engine.trail.level_le_depth on
    rw [Lit.var_neg] at level
    have grounded := knows.grounded fun c member => models c (List.mem_cons_of_mem _ member)
    rw [grounded.fails on (Nat.le_zero.mp (root ▸ level))] at true_
    cases true_

theorem Settled.assertUnit {s₁ s₂ : Solver} {conflict : Option ClauseRef} (settled : s.Settled Γ)
    (root : s.depth = 0) (inside : l.var.id < s.varCount) (entails : Entails (ls :: Γ) [l])
    (member : l ∈ ls) (assigned : s.assign l none = .ok s₁)
    (propagated : s₁.propagate = .ok (conflict, s₂)) :
    { s₂ with ok := conflict.isNone }.AtRest (ls :: Γ) := by
  have knows := settled.toKnows.cons (c := ls)
  obtain ⟨keeps₁, became, _, _, drawn₁⟩ := knows.assign inside (by simp) (fun _ _ => entails) assigned
  obtain ⟨keeps₂, done⟩ := keeps₁.knows.propagate (drawn₁ settled.drawn) propagated
  have root₂ : s₂.depth = 0 := by
    rw [depth, trail, done.spread.grows.depth_eq, Trail.depth]
    exact (congrArg Array.size became.starts_eq).trans root
  cases conflict with
  | some r => exact .inl ⟨rfl, keeps₂.knows.refuted (done.conflicting r rfl) root₂⟩
  | none =>
    have same : { s₂ with ok := true } = s₂ := by rw [← keeps₂.knows.ok]
    rw [Option.isNone_none, same]
    have on : l ∈ s₂.trail.lits := done.spread.grows.mem became.mem
    have level : s₂.trail.level l.var = 0 :=
      Nat.le_zero.mp (root₂ ▸ keeps₂.knows.engine.trail.level_le_depth on)
    obtain ⟨k, drawn₂, _, all⟩ := done.drawn
    refine .inr ⟨root₂, ⟨keeps₂.knows, fun c member' => ?_, ?_, done.settled⟩⟩
    · rcases List.mem_cons.mp member' with rfl | member'
      · exact .inr (.inl ⟨l, member, on, level⟩)
      · exact (keeps₁.trans keeps₂).covers c (settled.covers c member')
    · rw [trail, done.settled, ← all rfl]
      exact drawn₂

theorem Knows.storeAdded {bank : ClauseBank} {engine : Engine} {r : ClauseRef} (knows : s.Knows Γ)
    (nodup : ks.Nodup) (inside : ∀ l ∈ ks, l.var.id < s.varCount) (entails : Entails Γ ks)
    (allocated : s.engine.bank.alloc ks.toArray false = (r, bank))
    (attached : { s.engine with bank }.attach r = .ok engine) :
    Keeps Γ s { s with engine, added := s.added.push r } ∧ engine.trail = s.trail ∧
      (∀ q, engine.bank.lits q = if q = r then ks.toArray else s.engine.bank.lits q) ∧
      ∀ q, { s with engine, added := s.added.push r }.Live q ↔ q = r ∨ s.Live q := by
  have uses : ((s.added.push r).toList ++ s.learnts.toList).Perm
      (r :: (s.added.toList ++ s.learnts.toList)) := by
    rw [Array.toList_push, List.append_assoc]
    exact List.perm_middle
  obtain ⟨keeps, _, trail, lits_eq, _, live_iff⟩ := knows.store (s.added.push r) s.learnts allocated
    attached nodup (fun l member => inside l (by simpa using member)) entails uses
    fun q member => Array.mem_push.mpr (.inl member)
  exact ⟨keeps, trail, lits_eq, live_iff⟩

theorem Settled.storeClause {bank : ClauseBank} {engine : Engine} {r : ClauseRef}
    (settled : s.Settled Γ) (root : s.depth = 0) (nodup : ks.Nodup)
    (unassigned : ∀ l ∈ ks, s.value l = .undef) (inside : ∀ l ∈ ls, l.var.id < s.varCount)
    (within : ∀ l ∈ ks, l ∈ ls) (entails : Entails (ls :: Γ) ks)
    (allocated : s.engine.bank.alloc ks.toArray false = (r, bank))
    (attached : { s.engine with bank }.attach r = .ok engine) :
    { s with engine, added := s.added.push r }.AtRest (ls :: Γ) := by
  obtain ⟨keeps, trail, lits_eq, live_iff⟩ := settled.toKnows.cons.storeAdded nodup
    (fun l member => inside l (within l member)) entails allocated attached
  refine .inr ⟨(congrArg Trail.depth trail).trans root, ⟨keeps.knows, fun c member => ?_, ?_, ?_⟩⟩
  · rcases List.mem_cons.mp member with rfl | member
    · refine .inr (.inr ⟨r, Array.mem_push_self, fun l inner => within l ?_⟩)
      change l ∈ engine.bank.lits r at inner
      rw [lits_eq, if_pos rfl] at inner
      simpa using inner
    · exact keeps.covers c (settled.covers c member)
  · change Engine.Drawn _ engine engine.trail.head
    intro q alive l watched i lt here
    rw [trail] at lt here ⊢
    rw [lits_eq] at watched ⊢
    split at watched
    · have falsified := (settled.engine.trail.false_iff l).mpr (Array.mem_of_getElem? here)
      have free := unassigned l (by simpa using watched.mem)
      rw [value, Solver.trail, falsified] at free
      cases free
    · rename_i other
      rw [if_neg other]
      exact settled.drawn q (((live_iff q).mp alive).resolve_left other) l watched i lt here
  · change engine.trail.head = engine.trail.lits.size
    rw [trail]
    exact settled.drained

theorem Settled.widen (settled : s.Settled Γ) (keeps : Keeps Γ s s') (widened : s.Widened s') :
    s'.Settled Γ where
  toKnows := keeps.knows
  covers c member := keeps.covers c (settled.covers c member)
  drawn := by
    rw [widened.head_eq]
    exact widened.drawn _ settled.drawn
  drained := by rw [widened.head_eq, widened.lits_eq, settled.drained]

theorem Settled.simplified (settled : s.Settled Γ) (root : s.depth = 0)
    (run : simplify? s.value none (sortLits ls) = some ks) :
    Entails (ls :: Γ) ks ∧ (∀ l ∈ ks, s.value l = .undef) ∧ ∀ l ∈ ks, l ∈ ls := by
  obtain ⟨_, members⟩ := sortLits_ok ls
  obtain ⟨sub, unassigned, others⟩ := simplify_some run
  exact ⟨settled.entails_simplified root fun m member => others m ((members m).mpr member),
    unassigned, fun m member => (members m).mp (sub.subset member)⟩

/-- The ways in which a solver that has the variables of a clause takes it. -/
inductive Takes (s : Solver) (ls : List Lit) : Bool → Solver → Prop
  | satisfied (dropped : simplify? s.value none (sortLits ls) = none) : Takes s ls true s
  | falsified (simplified : simplify? s.value none (sortLits ls) = some []) :
    Takes s ls false { s with ok := false }
  | unit {t u : Solver} {l : Lit} {conflict : Option ClauseRef}
    (simplified : simplify? s.value none (sortLits ls) = some [l])
    (assigned : s.assign l none = .ok t) (propagated : t.propagate = .ok (conflict, u)) :
    Takes s ls conflict.isNone { u with ok := conflict.isNone }
  | stored {ks : List Lit} {r : ClauseRef} {bank : ClauseBank} {engine : Engine}
    (simplified : simplify? s.value none (sortLits ls) = some ks)
    (allocated : s.engine.bank.alloc ks.toArray false = (r, bank))
    (attached : { s.engine with bank }.attach r = .ok engine) :
    Takes s ls true { s with engine, added := s.added.push r }

/-- A clause is added at the root only; a solver that knows its clauses to be contradictory ignores
it. -/
theorem addClause_takes {answer : Bool} (run : s.addClause ls = .ok (answer, s')) :
    s.depth = 0 ∧ ((s.ok = false ∧ s' = s) ∨
      (s.ok = true ∧ ∃ t, s.reserve ls = .ok t ∧ t.Takes ls answer s')) := by
  unfold Solver.addClause at run
  split at run
  · cases run
  rename_i root
  constructor
  · exact Decidable.not_not.mp root
  split at run
  · rename_i failed
    cases run
    exact .inl ⟨by simpa using failed, rfl⟩
  rename_i ok
  right
  constructor
  · simpa using ok
  obtain ⟨t, reserved, run⟩ := bind_ok.mp run
  refine ⟨t, reserved, ?_⟩
  split at run
  · rename_i dropped
    cases run
    exact .satisfied dropped
  · rename_i simplified
    cases run
    exact .falsified simplified
  · rename_i l simplified
    simp only [bind_ok, pure_ok, Prod.exists, Prod.mk.injEq] at run
    obtain ⟨u, assigned, conflict, w, propagated, rfl, rfl⟩ := run
    exact .unit simplified assigned propagated
  · rename_i ks _ _ simplified
    obtain ⟨engine, attached, run⟩ := bind_ok.mp run
    cases run
    exact .stored simplified rfl attached

theorem AtRest.addClause {answer : Bool} (rest : s.AtRest Γ)
    (run : s.addClause ls = .ok (answer, s')) : s'.AtRest (ls :: Γ) := by
  obtain ⟨root, ⟨failed, rfl⟩ | ⟨ok, t, reserved, takes⟩⟩ := addClause_takes run
  · rcases rest with ⟨_, refuted⟩ | ⟨_, settled⟩
    · exact .inl ⟨failed, refuted.cons⟩
    · exact absurd settled.ok (by simp [failed])
  obtain ⟨_, settled⟩ := rest.resolve_left (by simp [ok])
  obtain ⟨keeps, widened, inside⟩ := settled.toKnows.reserve reserved
  have settled := settled.widen keeps widened
  have root : t.depth = 0 := (congrArg Array.size widened.starts_eq).trans root
  obtain ⟨nodup, members⟩ := sortLits_ok ls
  cases takes with
  | satisfied dropped =>
    refine .inr ⟨root, { settled with toKnows := settled.cons, covers := fun c member => ?_ }⟩
    rcases List.mem_cons.mp member with rfl | member
    · rcases simplify_none dropped with ⟨l, member, true_⟩ | ⟨l, member, negated | before⟩
      · have on := (settled.engine.trail.true_iff l).mp true_
        refine .inr (.inl ⟨l, (members l).mp member, on, ?_⟩)
        exact Nat.le_zero.mp (root ▸ settled.engine.trail.level_le_depth on)
      · have member := (members l).mp member
        exact .inl ⟨l, member, (members _).mp negated, inside l member⟩
      · cases before
    · exact settled.covers c member
  | falsified simplified =>
    obtain ⟨entails, _⟩ := settled.simplified root simplified
    refine .inl ⟨rfl, fun value models => ?_⟩
    obtain ⟨l, member, _⟩ := entails value models
    cases member
  | unit simplified assigned propagated =>
    obtain ⟨entails, _, within⟩ := settled.simplified root simplified
    have member := within _ List.mem_cons_self
    exact settled.assertUnit root (inside _ member) entails member assigned propagated
  | stored simplified allocated attached =>
    obtain ⟨entails, unassigned, within⟩ := settled.simplified root simplified
    exact settled.storeClause root (nodup.sublist (simplify_some simplified).1) unassigned inside
      within entails allocated attached

end Solver

end ModelCounting
