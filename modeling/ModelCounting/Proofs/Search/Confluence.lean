import ModelCounting.Proofs.Search.Closure
import ModelCounting.Proofs.Search.Keeping

/-!
Adding clauses in any order. A clause is simplified against the values known when it is added, so
the order decides what is stored. What unit propagation derives from the stored clauses is always
what it derives from the added ones, so unless they are refuted all orders lead to the same values.
-/

namespace ModelCounting

/-- The literals that unit propagation derives from clauses. -/
inductive UnitDerives (Γ : List (List Lit)) : Lit → Prop
  | unit {c : List Lit} {l : Lit} (listed : c ∈ Γ) (member : l ∈ c)
      (others : ∀ m ∈ c, m ≠ l → UnitDerives Γ (-m)) : UnitDerives Γ l

/-- Unit propagation derives the empty clause. -/
def UnitRefutes (Γ : List (List Lit)) : Prop := ∃ c ∈ Γ, ∀ l ∈ c, UnitDerives Γ (-l)

theorem UnitDerives.holds {Γ : List (List Lit)} {l : Lit} {value : Var → Bool}
    (derives : UnitDerives Γ l) (models : Models value Γ) : l.holds value = true := by
  induction derives with
  | @unit c l listed _ _ ih =>
    obtain ⟨m, member, true_⟩ := models c listed
    by_cases here : m = l
    · exact here ▸ true_
    · have := ih m member here
      rw [Store.holds_neg, true_] at this
      cases this

theorem UnitRefutes.refuted {Γ : List (List Lit)} (refutes : UnitRefutes Γ) : Refuted Γ := by
  rintro value models
  obtain ⟨c, listed, falsified⟩ := refutes
  obtain ⟨l, member, true_⟩ := models c listed
  have := (falsified l member).holds models
  rw [Store.holds_neg, true_] at this
  cases this

section Rewriting

variable {R : Lit → Lit → Prop} {Γ Δ : List (List Lit)} {l m : Lit}

structure Rewrites (R : Lit → Lit → Prop) : Prop where
  single : ∀ {l m m' : Lit}, R l m → R l m' → m = m'
  neg : ∀ {l m : Lit}, R l m → R (-l) (-m)

def Rewritten (R : Lit → Lit → Prop) (Γ Δ : List (List Lit)) : Prop :=
  ∀ c ∈ Γ, ∃ d ∈ Δ, (∀ l ∈ c, ∃ m ∈ d, R l m) ∧ ∀ m ∈ d, ∃ l ∈ c, R l m

theorem Rewritten.mono {R' : Lit → Lit → Prop} (rewritten : Rewritten R Γ Δ)
    (more : ∀ l m, R l m → R' l m) : Rewritten R' Γ Δ := by
  intro c listed
  obtain ⟨d, listed', forth, back⟩ := rewritten c listed
  refine ⟨d, listed', fun l member => ?_, fun m member => ?_⟩
  · exact (forth l member).imp fun m => And.imp_right (more l m)
  · exact (back m member).imp fun l => And.imp_right (more l m)

theorem Rewritten.cons {c d : List Lit} (rewritten : Rewritten R Γ Δ)
    (forth : ∀ l ∈ c, ∃ m ∈ d, R l m) (back : ∀ m ∈ d, ∃ l ∈ c, R l m) :
    Rewritten R (c :: Γ) (d :: Δ) := by
  intro e listed
  rcases List.mem_cons.mp listed with rfl | listed
  · exact ⟨d, List.mem_cons_self, forth, back⟩
  · obtain ⟨f, listed', rest⟩ := rewritten e listed
    exact ⟨f, List.mem_cons_of_mem _ listed', rest⟩

theorem UnitDerives.rewritten (rewrites : Rewrites R) (rewritten : Rewritten R Γ Δ)
    (derives : UnitDerives Γ l) (related : R l m) : UnitDerives Δ m := by
  induction derives generalizing m with
  | @unit c l listed member _ ih =>
    obtain ⟨d, listed', forth, back⟩ := rewritten c listed
    obtain ⟨m', member', related'⟩ := forth l member
    obtain rfl := rewrites.single related related'
    refine .unit listed' member' fun n inner other => ?_
    obtain ⟨k, member, here⟩ := back n inner
    have apart : k ≠ l := by
      rintro rfl
      exact other (rewrites.single here related)
    exact ih k member apart (rewrites.neg here)

theorem UnitRefutes.rewritten (rewrites : Rewrites R) (rewritten : Rewritten R Γ Δ)
    (refutes : UnitRefutes Γ) : UnitRefutes Δ := by
  obtain ⟨c, listed, falsified⟩ := refutes
  obtain ⟨d, listed', _, back⟩ := rewritten c listed
  refine ⟨d, listed', fun m member => ?_⟩
  obtain ⟨l, inner, related⟩ := back m member
  exact (falsified l inner).rewritten rewrites rewritten (rewrites.neg related)

end Rewriting

/-- The same clauses in any order and any number, each with the same literals in any order and any
number. -/
structure SameClauses (Γ Δ : List (List Lit)) : Prop where
  forth : ∀ c ∈ Γ, ∃ d ∈ Δ, ∀ l, l ∈ c ↔ l ∈ d
  back : ∀ d ∈ Δ, ∃ c ∈ Γ, ∀ l, l ∈ c ↔ l ∈ d

namespace SameClauses

variable {Γ Δ : List (List Lit)} {l : Lit}

theorem of_perm (perm : Γ.Perm Δ) : SameClauses Γ Δ where
  forth c member := ⟨c, perm.mem_iff.mp member, fun _ => Iff.rfl⟩
  back d member := ⟨d, perm.mem_iff.mpr member, fun _ => Iff.rfl⟩

theorem symm (same : SameClauses Γ Δ) : SameClauses Δ Γ where
  forth d member := by
    obtain ⟨c, listed, iff⟩ := same.back d member
    exact ⟨c, listed, fun l => (iff l).symm⟩
  back c member := by
    obtain ⟨d, listed, iff⟩ := same.forth c member
    exact ⟨d, listed, fun l => (iff l).symm⟩

theorem rewrites : Rewrites Eq := ⟨fun first second => first.symm.trans second, fun same => same ▸ rfl⟩

theorem rewritten (same : SameClauses Γ Δ) : Rewritten Eq Γ Δ := by
  intro c listed
  obtain ⟨d, listed', iff⟩ := same.forth c listed
  exact ⟨d, listed', fun l member => ⟨l, (iff l).mp member, rfl⟩,
    fun m member => ⟨m, (iff m).mpr member, rfl⟩⟩

theorem exists_iff {P : Lit → Prop} (same : SameClauses Γ Δ) :
    (∃ c ∈ Γ, ∃ l ∈ c, P l) ↔ ∃ d ∈ Δ, ∃ l ∈ d, P l := by
  constructor
  · rintro ⟨c, listed, l, member, holds⟩
    obtain ⟨d, listed', iff⟩ := same.forth c listed
    exact ⟨d, listed', l, (iff l).mp member, holds⟩
  · rintro ⟨d, listed, l, member, holds⟩
    obtain ⟨c, listed', iff⟩ := same.back d listed
    exact ⟨c, listed', l, (iff l).mpr member, holds⟩

theorem derives_iff (same : SameClauses Γ Δ) : UnitDerives Γ l ↔ UnitDerives Δ l :=
  ⟨fun derives => derives.rewritten rewrites same.rewritten rfl,
    fun derives => derives.rewritten rewrites same.symm.rewritten rfl⟩

theorem refutes_iff (same : SameClauses Γ Δ) : UnitRefutes Γ ↔ UnitRefutes Δ :=
  ⟨fun refutes => refutes.rewritten rewrites same.rewritten,
    fun refutes => refutes.rewritten rewrites same.symm.rewritten⟩

end SameClauses

theorem UnitDerives.cons {Γ : List (List Lit)} {c : List Lit} {l : Lit}
    (derives : UnitDerives Γ l) : UnitDerives (c :: Γ) l := by
  induction derives with
  | unit listed member _ ih => exact .unit (List.mem_cons_of_mem _ listed) member ih

theorem UnitRefutes.cons {Γ : List (List Lit)} {c : List Lit} (refutes : UnitRefutes Γ) :
    UnitRefutes (c :: Γ) := by
  obtain ⟨d, listed, falsified⟩ := refutes
  exact ⟨d, List.mem_cons_of_mem _ listed, fun l member => (falsified l member).cons⟩

/-- The literals are what is left of a clause when derived complements are dropped. -/
def Remains (Γ : List (List Lit)) (lits : Array Lit) : Prop :=
  ∃ c ∈ Γ, (∀ l ∈ lits, l ∈ c) ∧ ∀ l ∈ c, l ∈ lits ∨ UnitDerives Γ (-l)

namespace Remains

variable {Γ : List (List Lit)} {lits lits' : Array Lit} {c : List Lit} {l : Lit}

theorem cons (remains : Remains Γ lits) : Remains (c :: Γ) lits := by
  obtain ⟨d, listed, within, rest⟩ := remains
  exact ⟨d, List.mem_cons_of_mem _ listed, within, fun l member => (rest l member).imp_right .cons⟩

theorem perm (remains : Remains Γ lits) (perm : lits'.Perm lits) : Remains Γ lits' := by
  obtain ⟨d, listed, within, rest⟩ := remains
  exact ⟨d, listed, fun l member => within l (perm.mem_iff.mp member),
    fun l member => (rest l member).imp_left perm.mem_iff.mpr⟩

theorem derives (remains : Remains Γ lits) (member : l ∈ lits)
    (others : ∀ m ∈ lits, m ≠ l → UnitDerives Γ (-m)) : UnitDerives Γ l := by
  obtain ⟨c, listed, within, rest⟩ := remains
  refine .unit listed (within l member) fun m inner other => ?_
  exact (rest m inner).elim (fun kept => others m kept other) id

theorem refutes (remains : Remains Γ lits) (falsified : ∀ l ∈ lits, UnitDerives Γ (-l)) :
    UnitRefutes Γ := by
  obtain ⟨c, listed, _, rest⟩ := remains
  exact ⟨c, listed, fun l member => (rest l member).elim (falsified l) id⟩

end Remains

theorem Engine.Derives.unitDerives {Γ : List (List Lit)} {live : ClauseRef → Prop} {e : Engine}
    {l : Lit} (derives : e.Derives live l) (derived : ∀ l ∈ e.trail.lits, UnitDerives Γ l)
    (stored : ∀ r, live r → Remains Γ (e.bank.lits r)) : UnitDerives Γ l := by
  induction derives with
  | given member => exact derived _ member
  | unit alive member _ ih => exact (stored _ alive).derives member ih

namespace Solver

variable {Γ Δ : List (List Lit)} {s t u : Solver} {ls ks : List Lit} {l : Lit} {answer : Bool}

/-! A settled solver holds whatever unit propagation derives. -/

theorem Settled.clash (settled : s.Settled Γ) (member : l ∈ s.trail.lits) : -l ∉ s.trail.lits :=
  fun member' => by
    have wf : s.trail.WellFormed := settled.engine.trail
    have true_ := (wf.true_iff l).mpr member
    have false_ := (wf.false_iff l).mpr member'
    rw [true_] at false_
    cases false_

theorem Settled.drawnAll (settled : s.Settled Γ) :
    Engine.Drawn s.Live s.engine s.engine.trail.lits.size := by
  have drawn := settled.drawn
  rwa [settled.drained] at drawn

/-- If all other literals of a clause are false, the last one is true. -/
theorem Settled.last_true {c : List Lit} (settled : s.Settled Γ) (listed : c ∈ Γ)
    (others : ∀ m ∈ c, m ≠ l → -m ∈ s.trail.lits) : l ∈ s.trail.lits := by
  have wf : s.trail.WellFormed := settled.engine.trail
  rcases settled.covers c listed with ⟨m, inner, negated, _⟩ | ⟨m, inner, on, _⟩ | ⟨r, added, within⟩
  · by_cases here : m = l
    · have apart : -m ≠ l := fun same => by
        have := congrArg Lit.phase (same.trans here.symm)
        simp at this
      have on := others (-m) negated apart
      rwa [Lit.neg_neg, here] at on
    · have off := others m inner here
      by_cases there : -m = l
      · exact there ▸ off
      · have on := others (-m) negated there
        exact absurd on (settled.clash off)
  · by_cases here : m = l
    · exact here ▸ on
    · exact absurd (others m inner here) (settled.clash on)
  · refine (wf.true_iff l).mp (settled.engine.last_true settled.drawnAll (.inl added) ?_)
    exact fun m inner other => (wf.false_iff m).mpr (others m (within m inner) other)

theorem Settled.propagate (settled : s.Settled Γ) : s.propagate = .ok (none, s) := by
  have drained : ¬ s.engine.trail.head < s.engine.trail.lits.size :=
    Nat.not_lt.mpr (Nat.le_of_eq settled.drained.symm)
  unfold Solver.propagate Engine.propagate Engine.propagateWithin
  rw [if_neg drained]
  rfl

theorem Settled.holds (settled : s.Settled Γ) (derives : UnitDerives Γ l) : l ∈ s.trail.lits := by
  induction derives with
  | unit listed _ _ ih => exact settled.last_true listed ih

theorem Settled.not_unitRefutes (settled : s.Settled Γ) : ¬ UnitRefutes Γ := by
  rintro ⟨c, listed, falsified⟩
  -- Were all literals of a clause false, every literal would be the last one of that clause.
  have on (l : Lit) : l ∈ s.trail.lits :=
    settled.last_true listed fun m member _ => settled.holds (falsified m member)
  exact settled.clash (on default) (on (-default))

/-! What a solver makes of the clauses that are added. -/

structure Distils (Γ : List (List Lit)) (s : Solver) : Prop extends Settled Γ s where
  root : s.depth = 0
  derived : ∀ l ∈ s.trail.lits, UnitDerives Γ l
  stored : ∀ r, s.Live r → Remains Γ (s.engine.bank.lits r)

/-- The clauses are refuted by unit propagation, and the solver knows it, or they are distilled. -/
def Gathers (Γ : List (List Lit)) (s : Solver) : Prop :=
  (s.ok = false ∧ UnitRefutes Γ) ∨ s.Distils Γ

theorem Gathers.fresh (settings : Settings) : ({ settings } : Solver).Gathers [] := by
  obtain ⟨root, settled⟩ := (AtRest.fresh settings).resolve_left (by simp)
  refine .inr ⟨settled, root, fun l member => ?_, fun r live => ?_⟩
  · simp [Solver.trail] at member
  · simp [Live] at live

theorem Distils.newVar {v : Var} (distils : s.Distils Γ) (run : s.newVar = .ok (v, t)) :
    t.Distils Γ := by
  obtain ⟨keeps, widened, _⟩ := distils.toKnows.newVar run
  refine ⟨distils.toSettled.widen keeps widened, ?_, ?_, ?_⟩
  · exact (congrArg Array.size widened.starts_eq).trans distils.root
  · rw [widened.lits_eq]
    exact distils.derived
  · rw [widened.live_eq]
    simp only [Solver.newVar, bind_ok, pure_ok, Prod.mk.injEq] at run
    obtain ⟨_, _, rfl, rfl⟩ := run
    exact distils.stored

theorem Gathers.newVar {v : Var} (gathers : s.Gathers Γ) (run : s.newVar = .ok (v, t)) :
    t.Gathers Γ := by
  rcases gathers with ⟨failed, refutes⟩ | distils
  · simp only [Solver.newVar, bind_ok, pure_ok, Prod.mk.injEq] at run
    obtain ⟨_, _, rfl, rfl⟩ := run
    exact .inl ⟨failed, refutes⟩
  · exact .inr (distils.newVar run)

theorem Distils.reserve (distils : s.Distils Γ) (run : s.reserve ls = .ok t) : t.Distils Γ :=
  reserve_ok (fun _ _ _ before created => before.newVar created) distils run

theorem Distils.dropped (distils : s.Distils Γ)
    (simplified : simplify? s.value none (sortLits ls) = some ks) :
    Remains (ls :: Γ) ks.toArray := by
  obtain ⟨_, members⟩ := sortLits_ok ls
  obtain ⟨sub, _, others⟩ := simplify_some simplified
  refine ⟨ls, List.mem_cons_self, fun l member => ?_, fun l member => ?_⟩
  · exact (members l).mp (sub.subset (by simpa using member))
  · refine (others l ((members l).mpr member)).imp (by simp) fun falsified => ?_
    exact (distils.derived _ ((distils.engine.trail.false_iff l).mp falsified)).cons

/-- The literal that is left of a clause is assigned, and with it all that follows. -/
theorem Distils.assert {u : Solver} {conflict : Option ClauseRef} (distils : s.Distils Γ)
    (inside : l.var.id < s.varCount) (entails : Entails (ls :: Γ) [l])
    (derives : UnitDerives (ls :: Γ) l) (assigned : s.assign l none = .ok t)
    (propagated : t.propagate = .ok (conflict, u)) :
    (∀ m ∈ u.trail.lits, UnitDerives (ls :: Γ) m) ∧
      (∀ r, u.Live r → Remains (ls :: Γ) (u.engine.bank.lits r)) ∧
      (conflict ≠ none → UnitRefutes (ls :: Γ)) := by
  obtain ⟨keeps, became, live, bank, drawn⟩ :=
    distils.toKnows.cons.assign inside (by simp) (fun _ _ => entails) assigned
  obtain ⟨keeps', done⟩ := keeps.knows.propagate (drawn distils.drawn) propagated
  have saturates := done.saturates
  have live' : u.Live = s.Live := by
    simp only [Solver.propagate, bind_ok, pure_ok, Prod.exists, Prod.mk.injEq] at propagated
    obtain ⟨_, _, _, _, rfl⟩ := propagated
    exact live
  have given (m : Lit) (member : m ∈ t.trail.lits) : UnitDerives (ls :: Γ) m := by
    rcases became.mem_iff.mp member with old | rfl
    · exact (distils.derived m old).cons
    · exact derives
  have stored (r : ClauseRef) (alive : u.Live r) : Remains (ls :: Γ) (t.engine.bank.lits r) := by
    rw [bank]
    exact (distils.stored r (live' ▸ alive)).cons
  have derived (m : Lit) (member : m ∈ u.trail.lits) : UnitDerives (ls :: Γ) m :=
    (saturates.derived m member).unitDerives given stored
  have stored' (r : ClauseRef) (alive : u.Live r) : Remains (ls :: Γ) (u.engine.bank.lits r) :=
    (stored r alive).perm (saturates.perm r)
  refine ⟨derived, stored', fun met => ?_⟩
  obtain ⟨r, rfl⟩ := Option.ne_none_iff_exists'.mp met
  obtain ⟨alive, falsified⟩ := saturates.conflicting r rfl
  refine (stored' r alive).refutes fun m member => derived _ ?_
  exact (keeps'.knows.engine.trail.false_iff m).mp (falsified m member)

theorem Distils.takes (distils : s.Distils Γ) (inside : ∀ l ∈ ls, l.var.id < s.varCount)
    (rest : t.AtRest (ls :: Γ)) (takes : s.Takes ls answer t) : t.Gathers (ls :: Γ) := by
  have derived (l : Lit) (member : l ∈ s.trail.lits) : UnitDerives (ls :: Γ) l :=
    (distils.derived l member).cons
  have stored (r : ClauseRef) (alive : s.Live r) : Remains (ls :: Γ) (s.engine.bank.lits r) :=
    (distils.stored r alive).cons
  cases takes with
  | satisfied =>
    obtain ⟨root, settled⟩ := rest.resolve_left (by simp [distils.ok])
    exact .inr ⟨settled, root, derived, stored⟩
  | falsified simplified => exact .inl ⟨rfl, (distils.dropped simplified).refutes (by simp)⟩
  | @unit v w l conflict simplified assigned propagated =>
    obtain ⟨entails, _, within⟩ := distils.toSettled.simplified distils.root simplified
    have derives : UnitDerives (ls :: Γ) l := (distils.dropped simplified).derives (by simp) (by simp)
    obtain ⟨derived', stored', refutes⟩ := distils.assert
      (inside l (within l List.mem_cons_self)) entails derives assigned propagated
    cases conflict with
    | some r => exact .inl ⟨rfl, refutes (by simp)⟩
    | none =>
      obtain ⟨root, settled⟩ := rest.resolve_left (by simp)
      exact .inr ⟨settled, root, derived', stored'⟩
  | @stored ks r bank engine simplified allocated attached =>
    obtain ⟨root, settled⟩ := rest.resolve_left (by simp [distils.ok])
    obtain ⟨nodup, _⟩ := sortLits_ok ls
    obtain ⟨entails, _, within⟩ := distils.toSettled.simplified distils.root simplified
    obtain ⟨_, trail, lits_eq, live_iff⟩ := distils.toKnows.cons.storeAdded
      (nodup.sublist (simplify_some simplified).1) (fun l member => inside l (within l member))
      entails allocated attached
    refine .inr ⟨settled, root, fun l member => derived l ?_, fun q alive => ?_⟩
    · change l ∈ engine.trail.lits at member
      rwa [trail] at member
    · change Remains _ (engine.bank.lits q)
      rw [lits_eq]
      split
      · exact distils.dropped simplified
      · rename_i other
        exact stored q (((live_iff q).mp alive).resolve_left other)

theorem Gathers.addClause (gathers : s.Gathers Γ) (run : s.addClause ls = .ok (answer, t)) :
    t.Gathers (ls :: Γ) := by
  obtain ⟨root, ⟨failed, rfl⟩ | ⟨ok, u, reserved, takes⟩⟩ := addClause_takes run
  · rcases gathers with ⟨_, refutes⟩ | distils
    · exact .inl ⟨failed, refutes.cons⟩
    · exact absurd distils.ok (by simp [failed])
  · have distils := gathers.resolve_left (by simp [ok])
    obtain ⟨_, _, inside⟩ := distils.toKnows.reserve reserved
    have rest : t.AtRest (ls :: Γ) := AtRest.addClause (.inr ⟨root, distils.toSettled⟩) run
    exact (distils.reserve reserved).takes inside rest takes

theorem Gathers.ok_iff (gathers : s.Gathers Γ) : s.ok = true ↔ ¬ UnitRefutes Γ := by
  rcases gathers with ⟨failed, refutes⟩ | distils
  · simp [failed, refutes]
  · simp [distils.ok, distils.toSettled.not_unitRefutes]

theorem Gathers.value_iff (gathers : s.Gathers Γ) (ok : s.ok = true) :
    s.value l = .tru ↔ UnitDerives Γ l := by
  have distils := gathers.resolve_left (by simp [ok])
  rw [show s.value l = .tru ↔ l ∈ s.trail.lits from distils.engine.trail.true_iff l]
  exact ⟨distils.derived l, distils.toSettled.holds⟩

theorem valueOf_true_iff : s.valueOf l = .ok .tru ↔ s.value l = .tru := by
  unfold valueOf
  split
  · simp
  · rename_i outside
    have unassigned : s.value l = .undef :=
      (Trail.value_of_var _ _).mpr (Trail.valueVar_outside outside)
    simp [unassigned]

theorem value_eq (true_iff : ∀ l, s.value l = .tru ↔ t.value l = .tru) : s.value l = t.value l := by
  have neg (u : Solver) : u.value (-l) = .tru ↔ u.value l = .fls := by
    change u.trail.value (-l) = _ ↔ u.trail.value l = _
    rw [Trail.value_neg, Truth.negate_eq_tru]
  have first := true_iff l
  have second := true_iff (-l)
  rw [neg, neg] at second
  cases h : s.value l <;> cases h' : t.value l <;> simp_all

/-! Adding clauses has an answer. -/

theorem Available.addClauseOf (available : s.Available Γ) :
    Delivers (s.addClause ls) fun x => x.2.Available (ls :: Γ) := by
  by_cases ok : s.ok = true
  · have widened : Delivers (s.reserve ls) (Available Γ) := available.reserve
    obtain ⟨t, reserved, _⟩ := widened
    obtain ⟨available', settled, _, inside⟩ := available.reserved ok reserved
    rw [addClause_reserved available.root ok available'.root settled.ok inside reserved]
    exact (available'.addClause inside).mono fun _ after => after.1
  · have ignored : s.addClause ls = .ok (false, s) := by
      unfold Solver.addClause
      rw [if_neg (by rw [available.root]; simp), if_pos (by simp [ok])]
    exact ⟨_, ignored, available.rest.addClause ignored, available.root, available.ranked⟩

structure Holding (Γ : List (List Lit)) (s : Solver) : Prop where
  available : s.Available Γ
  gathers : s.Gathers Γ

theorem Holding.fresh (settings : Settings) : ({ settings } : Solver).Holding [] :=
  ⟨.fresh settings, .fresh settings⟩

theorem Holding.newVar (holding : s.Holding Γ) :
    Delivers s.newVar fun x => x.2.Holding Γ ∧ x.1 = ⟨s.varCount⟩ :=
  (holding.available.newVar.and fun x run =>
    holding.gathers.newVar (show s.newVar = .ok (x.1, x.2) from run)).mono
      fun _ ⟨⟨available, new, _⟩, gathers⟩ => ⟨⟨available, gathers⟩, new⟩

theorem Holding.addClause (holding : s.Holding Γ) :
    Delivers (s.addClause ls) fun x => x.2.Holding (ls :: Γ) :=
  (holding.available.addClauseOf.and fun x run =>
    holding.gathers.addClause (show s.addClause ls = .ok (x.1, x.2) from run)).mono
      fun _ ⟨available, gathers⟩ => ⟨available, gathers⟩

def Spans (Γ : List (List Lit)) (s : Solver) : Prop :=
  ∀ i, i < s.varCount ↔ ∃ c ∈ Γ, ∃ l ∈ c, i ≤ l.var.id

theorem Available.reserve_spans (available : s.Available Γ) :
    Delivers (s.reserve ls) fun t => ∀ i, i < t.varCount ↔ i < s.varCount ∨ ∃ l ∈ ls, i ≤ l.var.id := by
  unfold Solver.reserve
  induction ls generalizing s with
  | nil => exact .pure (by simp)
  | cons l ls ih =>
    rw [List.foldlM_cons]
    apply available.addVars.bind
    rintro t - ⟨available', count, -⟩
    refine (ih available').mono fun u spans i => ?_
    have here : i < t.varCount ↔ i < s.varCount ∨ i ≤ l.var.id := by omega
    simp only [spans, here, List.mem_cons, exists_eq_or_imp, or_assoc]

theorem Spans.addClause (spans : s.ok = true → s.Spans Γ) (available : s.Available Γ)
    (run : s.addClause ls = .ok (answer, t)) (ok : t.ok = true) : t.Spans (ls :: Γ) := by
  obtain ⟨root, ⟨failed, rfl⟩ | ⟨ok', u, reserved, _⟩⟩ := addClause_takes run
  · exact absurd ok (by simp [failed])
  · obtain ⟨available', settled, _, inside⟩ := available.reserved ok' reserved
    rw [addClause_reserved root ok' available'.root settled.ok inside reserved] at run
    obtain ⟨_, count, _⟩ := (available'.addClause inside).answer run
    intro i
    rw [show t.varCount = u.varCount from count, available.reserve_spans.answer reserved, spans ok']
    simp only [List.mem_cons, exists_eq_or_imp, or_comm]

theorem Spans.varCount_eq (spans : s.Spans Γ) (spans' : t.Spans Δ) (same : SameClauses Γ Δ) :
    s.varCount = t.varCount := by
  have iff (i : Nat) : i < s.varCount ↔ i < t.varCount := by
    rw [spans, spans', same.exists_iff]
  have first := iff s.varCount
  have second := iff t.varCount
  omega

structure Filled (Γ : List (List Lit)) (s : Solver) : Prop extends Holding Γ s where
  spans : s.ok = true → s.Spans Γ

theorem Filled.fresh (settings : Settings) : ({ settings } : Solver).Filled [] where
  toHolding := .fresh settings
  spans _ := by simp [Spans, varCount, trail, Trail.varCount]

theorem Filled.addClause (filled : s.Filled Γ) :
    Delivers (do return (← s.addClause ls).2) (Filled (ls :: Γ)) := by
  apply filled.toHolding.addClause.bind
  rintro ⟨answer, t⟩ run holding
  exact .pure ⟨holding, Spans.addClause filled.spans filled.available run⟩

/-- Adds the clauses in order. -/
def addAll (cs : List (List Lit)) (s : Solver) : Except Fault Solver :=
  cs.foldlM (fun s c => do return (← s.addClause c).2) s

/-- A fresh solver to which clauses were added answers from what unit propagation derives. -/
theorem addAll_fresh (settings : Settings) (cs : List (List Lit)) :
    Delivers (addAll cs { settings }) fun s => (s.ok = true ↔ ¬ UnitRefutes cs) ∧
      (s.ok = true → s.Spans cs ∧ ∀ l, s.value l = .tru ↔ UnitDerives cs l) := by
  have loop : Delivers (addAll cs { settings }) (Filled (cs.reverse ++ [])) :=
    .foldlM_seen Filled (fun _ _ before _ _ => before.addClause) (.fresh settings)
  rw [List.append_nil] at loop
  have same : SameClauses cs.reverse cs := .of_perm cs.reverse_perm
  apply loop.mono
  intro s filled
  constructor
  · rw [filled.gathers.ok_iff, same.refutes_iff]
  · intro ok
    constructor
    · intro i
      rw [filled.spans ok, same.exists_iff]
    · intro l
      rw [filled.gathers.value_iff ok, same.derives_iff]

end Solver

namespace Stepper

variable {Γ Δ : List (List Lit)} {p q : Stepper} {ls ms : List Lit} {l m : Lit} {v w i : Var}

/-! A stepper numbers the variables in the order in which its clauses name them. -/

def Spells (p : Stepper) (l m : Lit) : Prop := p.literal? l = some m

theorem spells_iff : p.Spells l m ↔ p.numbers[l.var]? = some m.var ∧ l.phase = m.phase := by
  unfold Spells literal? numberOf?
  constructor
  · intro same
    obtain ⟨i, found, rfl⟩ := Option.map_eq_some_iff.mp same
    simpa using found
  · rintro ⟨found, phase⟩
    rw [found, Option.map_some, phase, Lit.of_var_phase]

theorem spells_rewrites (p : Stepper) : Rewrites p.Spells where
  single first second := Option.some.inj (first.symm.trans second)
  neg spells := by
    rw [spells_iff] at spells ⊢
    simpa using spells

/-- Variables with the same number are the same. -/
def Apart (p : Stepper) : Prop :=
  ∀ v w i : Var, p.numbers[v]? = some i → p.numbers[w]? = some i → v = w

theorem Apart.insert (apart : p.Apart) (unused : ∀ w : Var, p.numbers[w]? ≠ some i)
    (inserted : q.numbers = p.numbers.insert v i) : q.Apart := by
  intro u w j known known'
  simp only [inserted, Std.TreeMap.getElem?_insert, Std.compare_eq_iff_eq] at known known'
  split at known
  · split at known'
    · rename_i first second
      exact first.symm.trans second
    · cases known
      exact absurd known' (unused w)
  · split at known'
    · cases known'
      exact absurd known (unused u)
    · exact apart u w j known known'

theorem Apart.rewrites (apart : p.Apart) : Rewrites (flip p.Spells) where
  single first second := by
    rw [flip, spells_iff] at first second
    exact Lit.ext_var_phase (apart _ _ _ first.1 second.1) (first.2.trans second.2.symm)
  neg spells := (spells_rewrites p).neg spells

structure Holding (Γ : List (List Lit)) (p : Stepper) : Prop extends Numbered p where
  apart : p.Apart
  held : ∃ Δ, p.core.Holding Δ ∧ Rewritten p.Spells Γ Δ ∧ Rewritten (flip p.Spells) Δ Γ

theorem Holding.fresh (settings : Settings) : Holding [] { core := { settings } } where
  toNumbered := .fresh settings
  apart _ _ _ known := by simp at known
  held := ⟨[], .fresh settings, by simp [Rewritten], by simp [Rewritten]⟩

theorem Spells.renames (spells : p.Spells l m) (renames : p.Renames q) : q.Spells l m := by
  rw [spells_iff] at spells ⊢
  exact ⟨renames _ _ spells.1, spells.2⟩

theorem Holding.number (holding : p.Holding Γ) (v : Var) :
    Delivers (p.number v) fun x => x.2.Holding Γ ∧ p.Renames x.2 ∧ x.2.numbers[v]? = some x.1 := by
  have numbers : Delivers (p.number v) fun x => x.2.Apart ∧ ∃ Δ, x.2.core.Holding Δ ∧
      Rewritten p.Spells Γ Δ ∧ Rewritten (flip p.Spells) Δ Γ := by
    unfold Stepper.number
    split
    · exact .ok ⟨holding.apart, holding.held⟩
    · obtain ⟨Δ, core, forth, back⟩ := holding.held
      apply core.newVar.bind
      rintro ⟨i, s⟩ - ⟨core', new⟩
      have unused (w : Var) : p.numbers[w]? ≠ some i := fun known => by
        have := holding.inside known
        rw [show i = ⟨p.core.varCount⟩ from new] at this
        exact Nat.lt_irrefl _ this
      exact .pure ⟨holding.apart.insert unused rfl, Δ, core', forth, back⟩
  refine (numbers.and fun x run =>
    And.intro (holding.toNumbered.number run).1 (number_renames run)).mono ?_
  rintro ⟨i, q⟩ ⟨⟨apart, Δ, core, forth, back⟩, numbered, renames, here⟩
  refine ⟨⟨numbered, apart, Δ, core, ?_, ?_⟩, renames, here⟩
  · exact forth.mono fun l m spells => spells.renames renames
  · exact back.mono fun m l spells => spells.renames renames

theorem Holding.numberLits (holding : p.Holding Γ) (ls : List Lit) :
    Delivers (p.numberLits ls) fun x => x.2.Holding Γ ∧ p.Renames x.2 ∧
      (∀ l ∈ ls, ∃ m ∈ x.1, x.2.Spells l m) ∧ ∀ m ∈ x.1, ∃ l ∈ ls, x.2.Spells l m := by
  induction ls generalizing p with
  | nil => exact .ok ⟨holding, fun _ _ same => same, nofun, nofun⟩
  | cons l ls ih =>
    unfold Stepper.numberLits
    apply (holding.number l.var).bind
    rintro ⟨i, p₁⟩ - ⟨holding₁, renames₁, here⟩
    apply (ih holding₁).bind
    rintro ⟨ms, p₂⟩ - ⟨holding₂, renames₂, forth, back⟩
    have first : p₂.Spells l (Lit.of i l.phase) := by
      rw [spells_iff]
      simpa using renames₂ _ _ here
    refine .pure ⟨holding₂, fun v j known => renames₂ v j (renames₁ v j known), ?_, ?_⟩
    · intro k member
      rcases List.mem_cons.mp member with rfl | member
      · exact ⟨_, List.mem_cons_self, first⟩
      · exact (forth k member).imp fun m => And.imp_left (List.mem_cons_of_mem _)
    · intro m member
      rcases List.mem_cons.mp member with rfl | member
      · exact ⟨l, List.mem_cons_self, first⟩
      · exact (back m member).imp fun k => And.imp_left (List.mem_cons_of_mem _)

theorem Holding.addClause (holding : p.Holding Γ) (ls : List Lit) :
    Delivers (p.addClause ls) (Holding (ls :: Γ)) := by
  have takes : Delivers (p.addClause ls) fun q => q.Apart ∧ ∃ Δ, q.core.Holding Δ ∧
      Rewritten q.Spells (ls :: Γ) Δ ∧ Rewritten (flip q.Spells) Δ (ls :: Γ) := by
    unfold Stepper.addClause
    apply (holding.numberLits ls).bind
    rintro ⟨ms, p₁⟩ - ⟨holding₁, _, forth, back⟩
    obtain ⟨Δ, core, rewritten, rewritten'⟩ := holding₁.held
    apply core.addClause.bind
    rintro ⟨answer, s⟩ - core'
    exact .pure ⟨holding₁.apart, ms :: Δ, core', rewritten.cons forth back, rewritten'.cons back forth⟩
  exact (takes.and fun q run => holding.toNumbered.addClause run).mono
    fun q ⟨⟨apart, held⟩, numbered⟩ => ⟨numbered, apart, held⟩

/-- Adds the clauses in order, as `add` does with those of a formula. -/
def addAll (cs : List (List Lit)) (p : Stepper) : Except Fault Stepper := cs.foldlM addClause p

theorem Holding.start (holding : p.Holding Γ) :
    Delivers p.start fun x => x.1 = true ↔ ¬ UnitRefutes Γ := by
  obtain ⟨Δ, core, forth, back⟩ := holding.held
  have refutes : UnitRefutes Γ ↔ UnitRefutes Δ :=
    ⟨fun refutes => refutes.rewritten (spells_rewrites p) forth,
      fun refutes => refutes.rewritten holding.apart.rewrites back⟩
  have ok_iff := core.gathers.ok_iff
  rw [← refutes] at ok_iff
  unfold Stepper.start
  simp only
  split
  · rename_i ok
    have distils := core.gathers.resolve_left (by simp [ok])
    have quiet : p.core.propagate = .ok (none, p.core) := distils.toSettled.propagate
    rw [quiet]
    exact .pure (by simpa [ok] using ok_iff)
  · rename_i failed
    exact .pure (by simpa [failed] using ok_iff)

/-- A fresh stepper to which clauses were added starts unless unit propagation refutes them. -/
theorem addAll_start (settings : Settings) (cs : List (List Lit)) :
    Delivers (addAll cs { core := { settings } } >>= start) fun x =>
      x.1 = true ↔ ¬ UnitRefutes cs := by
  have loop : Delivers (addAll cs { core := { settings } }) (Holding (cs.reverse ++ [])) :=
    .foldlM_seen Holding (fun _ _ before c _ => before.addClause c) (.fresh settings)
  rw [List.append_nil] at loop
  have same : SameClauses cs.reverse cs := .of_perm cs.reverse_perm
  apply loop.bind
  intro p _ holding
  apply holding.start.mono
  rintro ⟨answer, q⟩ answers
  rwa [same.refutes_iff] at answers

end Stepper

/-- The order of clauses and the order and number of their literals do not matter. Unless unit
propagation refutes the clauses the solver goes on, and just the literals that it derives are true;
a stepper starts in the same cases. -/
theorem addAll_confluent (settings settings' : Settings) {cs ds : List (List Lit)}
    (same : SameClauses cs ds) :
    ∃ s t, Solver.addAll cs { settings } = .ok s ∧
      Solver.addAll ds { settings := settings' } = .ok t ∧
      (s.ok = true ↔ ¬ UnitRefutes cs) ∧
      (s.ok = true → ∀ l, s.valueOf l = .ok .tru ↔ UnitDerives cs l) ∧
      s.ok = t.ok ∧ (s.ok = true → ∀ l, s.valueOf l = t.valueOf l) ∧
      ∃ p q, Stepper.addAll cs { core := { settings } } >>= Stepper.start = .ok (s.ok, p) ∧
        Stepper.addAll ds { core := { settings := settings' } } >>= Stepper.start = .ok (s.ok, q) := by
  obtain ⟨s, ran, ok_iff, good⟩ := Solver.addAll_fresh settings cs
  obtain ⟨t, ran', ok_iff', good'⟩ := Solver.addAll_fresh settings' ds
  obtain ⟨⟨started, p⟩, run, starts⟩ := Stepper.addAll_start settings cs
  obtain ⟨⟨started', q⟩, run', starts'⟩ := Stepper.addAll_start settings' ds
  rw [← same.refutes_iff] at ok_iff' starts'
  have oks : s.ok = t.ok := Bool.eq_iff_iff.mpr (ok_iff.trans ok_iff'.symm)
  obtain rfl : started = s.ok := Bool.eq_iff_iff.mpr (starts.trans ok_iff.symm)
  obtain rfl : started' = s.ok := Bool.eq_iff_iff.mpr (starts'.trans ok_iff.symm)
  refine ⟨s, t, ran, ran', ok_iff, fun ok l => ?_, oks, fun ok l => ?_, p, q, run, run'⟩
  · obtain ⟨_, true_iff⟩ := good ok
    rw [Solver.valueOf_true_iff, true_iff]
  · obtain ⟨spans, true_iff⟩ := good ok
    obtain ⟨spans', true_iff'⟩ := good' (oks ▸ ok)
    have values : s.value l = t.value l := Solver.value_eq fun m => by
      rw [true_iff, true_iff', same.derives_iff]
    unfold Solver.valueOf
    rw [values, spans.varCount_eq spans' same]

/-- The second of two clauses makes the first one unit, or the first the second. -/
theorem addAll_confluent_chain :
    ∃ s t, SameClauses [[.of ⟨1⟩ true, .of ⟨0⟩ false, .of ⟨1⟩ true], [.of ⟨0⟩ true]]
        [[.of ⟨0⟩ true], [.of ⟨0⟩ false, .of ⟨1⟩ true]] ∧
      Solver.addAll [[.of ⟨1⟩ true, .of ⟨0⟩ false, .of ⟨1⟩ true], [.of ⟨0⟩ true]] {} = .ok s ∧
      Solver.addAll [[.of ⟨0⟩ true], [.of ⟨0⟩ false, .of ⟨1⟩ true]] {} = .ok t ∧
      s.ok = true ∧ t.ok = true ∧ s.valueOf (.of ⟨1⟩ true) = .ok .tru ∧
      t.valueOf (.of ⟨1⟩ true) = .ok .tru := by
  have same : SameClauses [[.of ⟨1⟩ true, .of ⟨0⟩ false, .of ⟨1⟩ true], [.of ⟨0⟩ true]]
      [[.of ⟨0⟩ true], [.of ⟨0⟩ false, .of ⟨1⟩ true]] := by
    constructor <;> simp [or_comm]
  obtain ⟨s, t, ran, ran', ok_iff, derived, oks, values, _⟩ := addAll_confluent {} {} same
  have ok : s.ok = true := ok_iff.mpr fun refutes =>
    refutes.refuted (fun _ => true) (by simp [Models, Holds, Lit.holds])
  have first : UnitDerives [[.of ⟨1⟩ true, .of ⟨0⟩ false, .of ⟨1⟩ true], [.of ⟨0⟩ true]]
      (.of ⟨0⟩ true) := by
    apply UnitDerives.unit (c := [.of ⟨0⟩ true]) <;> simp
  have second : s.valueOf (.of ⟨1⟩ true) = .ok .tru := by
    rw [derived ok]
    apply UnitDerives.unit List.mem_cons_self List.mem_cons_self
    have complement : -Lit.of ⟨0⟩ false = Lit.of ⟨0⟩ true := by decide
    simpa [complement] using fun _ => first
  exact ⟨s, t, same, ran, ran', ok, oks ▸ ok, second, values ok _ ▸ second⟩

/-- Once the clauses are refuted, the values depend on the order. -/
theorem addAll_refuted_apart :
    SameClauses [[.of ⟨0⟩ true], [.of ⟨0⟩ false]] [[.of ⟨0⟩ false], [.of ⟨0⟩ true]] ∧
    ∃ s t, Solver.addAll [[.of ⟨0⟩ true], [.of ⟨0⟩ false]] {} = .ok s ∧
      Solver.addAll [[.of ⟨0⟩ false], [.of ⟨0⟩ true]] {} = .ok t ∧
      s.valueOf (.of ⟨0⟩ true) = .ok .tru ∧ t.valueOf (.of ⟨0⟩ true) = .ok .fls := by
  have first : (Solver.addAll [[.of ⟨0⟩ true], [.of ⟨0⟩ false]] {} >>=
      fun s => s.valueOf (.of ⟨0⟩ true)) = .ok .tru := by
    decide +kernel
  have second : (Solver.addAll [[.of ⟨0⟩ false], [.of ⟨0⟩ true]] {} >>=
      fun s => s.valueOf (.of ⟨0⟩ true)) = .ok .fls := by
    decide +kernel
  obtain ⟨s, ran, value⟩ := bind_ok.mp first
  obtain ⟨t, ran', value'⟩ := bind_ok.mp second
  exact ⟨.of_perm (.swap _ _ _), s, t, ran, ran', value, value'⟩

end ModelCounting
