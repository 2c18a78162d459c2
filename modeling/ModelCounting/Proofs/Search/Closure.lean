import ModelCounting.Proofs.Search.Propagation

/-!
The unit closure. Propagation adds just the literals that follow by unit clauses from those on the
trail, each after the complements of the other literals of its reason. When it meets no conflict
nothing is left: no clause in use is false, and none is unit.
-/

namespace ModelCounting

namespace Engine

variable {live : ClauseRef → Prop} {e e' : Engine} {conflict : Option ClauseRef} {l : Lit}
  {r : ClauseRef}

/-- The literals of the trail, and those that are left of a clause in use when the complements of
all its others were derived. -/
inductive Derives (live : ClauseRef → Prop) (e : Engine) : Lit → Prop
  | given {l : Lit} (member : l ∈ e.trail.lits) : Derives live e l
  | unit {l : Lit} {r : ClauseRef} (alive : live r) (member : l ∈ e.bank.lits r)
      (others : ∀ m ∈ e.bank.lits r, m ≠ l → Derives live e (-m)) : Derives live e l

/-- A literal at a place of the trail follows from its reason, the other literals of which are false
and were so before. -/
def Justified (live : ClauseRef → Prop) (e : Engine) (i : Nat) (l : Lit) : Prop :=
  ∃ r, e.trail.reason l.var = some r ∧ live r ∧ l ∈ e.bank.lits r ∧
    ∀ m ∈ e.bank.lits r, m ≠ l → e.trail.value m = .fls ∧ ∃ j < i, e.trail.lits[j]? = some (-m)

/-- Nothing is left to propagate: no clause in use is false, and no clause whose other literals are
false has an unassigned one. -/
structure Closed (live : ClauseRef → Prop) (e : Engine) : Prop where
  unit : ∀ r, live r → ∀ l ∈ e.bank.lits r,
    (∀ m ∈ e.bank.lits r, m ≠ l → e.trail.value m = .fls) → e.trail.value l ≠ .undef
  unfalsified : ∀ r, live r → ∃ l ∈ e.bank.lits r, e.trail.value l ≠ .fls

/-- What propagation makes of an engine: the trail grows by derived literals, and unless a clause is
false it holds all of them. -/
structure Saturates (live : ClauseRef → Prop) (e : Engine) (conflict : Option ClauseRef)
    (e' : Engine) : Prop where
  perm : ∀ r, (e'.bank.lits r).Perm (e.bank.lits r)
  keeps : ∀ (i : Nat) (l : Lit), e.trail.lits[i]? = some l → e'.trail.lits[i]? = some l
  justified : ∀ (i : Nat) (l : Lit), e.trail.lits.size ≤ i → e'.trail.lits[i]? = some l →
    e'.Justified live i l
  derived : ∀ l ∈ e'.trail.lits, e.Derives live l
  closed : conflict = none →
    e'.Closed live ∧ ∀ l, l ∈ e'.trail.lits ↔ e.Derives live l
  conflicting : ∀ r, conflict = some r → live r ∧ ∀ l ∈ e'.bank.lits r, e'.trail.value l = .fls

/-- With all consequences drawn, the last literal of a clause is true. -/
theorem WellFormed.last_true (wf : e.WellFormed live)
    (drawn : Drawn live e e.trail.lits.size) (alive : live r)
    (others : ∀ m ∈ e.bank.lits r, m ≠ l → e.trail.value m = .fls) : e.trail.value l = .tru := by
  have long := wf.stored.long r alive
  -- One of the two watched literals is another one, hence false.
  obtain ⟨m, watched, other⟩ : ∃ m, Watched (e.bank.lits r) m ∧ m ≠ l := by
    by_cases first : (e.bank.lits r).getD 0 default = l
    · refine ⟨_, .inr (getElem?_getD long), fun second => ?_⟩
      have := getD_inj (wf.stored.nodup r alive) (by omega) long (first.trans second.symm)
      omega
    · exact ⟨_, .inl (getElem?_getD (Nat.lt_trans Nat.zero_lt_one long)), first⟩
  obtain ⟨i, here⟩ := Array.mem_iff_getElem?.mp
    ((wf.trail.false_iff m).mp (others m watched.mem other))
  obtain ⟨q, inner, on, _⟩ :=
    drawn r alive m watched i (Array.getElem?_eq_some_iff.mp here).1 here
  have true_ := (wf.trail.true_iff q).mpr on
  by_cases same : q = l
  · exact same ▸ true_
  · rw [others q inner same] at true_
    cases true_

theorem WellFormed.closed (wf : e.WellFormed live) (drawn : Drawn live e e.trail.lits.size) :
    e.Closed live where
  unfalsified r alive := by
    by_contra falsified
    have all (m : Lit) (member : m ∈ e.bank.lits r) : e.trail.value m = .fls := by
      by_contra some
      exact falsified ⟨m, member, some⟩
    have long := wf.stored.long r alive
    have member : (e.bank.lits r).getD 0 default ∈ e.bank.lits r := getD_mem (by omega)
    have true_ : e.trail.value ((e.bank.lits r).getD 0 default) = .tru :=
      wf.last_true drawn alive fun m inner _ => all m inner
    rw [all _ member] at true_
    cases true_
  unit r alive l _ others := by
    rw [wf.last_true drawn alive others]
    decide

theorem WellFormed.justified (wf : e.WellFormed live) {i : Nat} (here : e.trail.lits[i]? = some l)
    (implied : e.trail.reason l.var ≠ none) : e.Justified live i l := by
  obtain ⟨r, reason⟩ := Option.ne_none_iff_exists'.mp implied
  obtain ⟨alive, first, others⟩ := wf.reasoned i l r here reason
  refine ⟨r, reason, alive, Array.mem_of_getElem? first, fun m member other => ?_⟩
  obtain ⟨j, before, there⟩ := others m member other
  exact ⟨(wf.trail.false_iff m).mpr (Array.mem_of_getElem? there), j, before, there⟩

theorem derives_of_justified (perm : ∀ r, (e'.bank.lits r).Perm (e.bank.lits r))
    (grown : ∀ (i : Nat) (l : Lit), e'.trail.lits[i]? = some l →
      l ∈ e.trail.lits ∨ e'.Justified live i l) :
    ∀ (i : Nat) (l : Lit), e'.trail.lits[i]? = some l → e.Derives live l := by
  intro i
  induction i using Nat.strongRecOn with
  | ind i ih =>
    intro l here
    rcases grown i l here with given | ⟨r, _, alive, member, others⟩
    · exact .given given
    · refine .unit alive ((perm r).mem_iff.mp member) fun m inner other => ?_
      obtain ⟨_, j, before, there⟩ := others m ((perm r).mem_iff.mpr inner) other
      exact ih j before _ there

theorem Closed.holds (closed : e'.Closed live) (faithful : e'.trail.Faithful)
    (perm : ∀ r, (e'.bank.lits r).Perm (e.bank.lits r))
    (keeps : ∀ l ∈ e.trail.lits, l ∈ e'.trail.lits) (derives : e.Derives live l) :
    l ∈ e'.trail.lits := by
  induction derives with
  | given member => exact keeps _ member
  | @unit l r alive member others ih =>
    have falsified (m : Lit) (inner : m ∈ e'.bank.lits r) (other : m ≠ l) :
        e'.trail.value m = .fls :=
      (faithful.false_iff m).mpr (ih m ((perm r).mem_iff.mp inner) other)
    have assigned := closed.unit r alive l ((perm r).mem_iff.mpr member) falsified
    rcases e'.trail.value_cases l with true_ | false_ | free
    · exact (faithful.true_iff l).mp true_
    · obtain ⟨m, inner, unfalsified⟩ := closed.unfalsified r alive
      by_cases same : m = l
      · exact absurd (same ▸ false_) unfalsified
      · exact absurd (falsified m inner same) unfalsified
    · exact absurd free assigned

theorem Propagated.saturates (propagated : Propagated live e conflict e') :
    e.Saturates live conflict e' := by
  have wf := propagated.wellFormed
  have spread := propagated.spread
  have grown (i : Nat) (l : Lit) (here : e'.trail.lits[i]? = some l) :
      l ∈ e.trail.lits ∨ e'.Justified live i l :=
    (spread.implied l (Array.mem_of_getElem? here)).imp_right (wf.justified here)
  have derived (l : Lit) (member : l ∈ e'.trail.lits) : e.Derives live l := by
    obtain ⟨i, here⟩ := Array.mem_iff_getElem?.mp member
    exact derives_of_justified spread.perm grown i l here
  refine ⟨spread.perm, spread.grows.keeps, fun i l later here => ?_, derived, fun quiet => ?_,
    fun r found => ?_⟩
  · refine (grown i l here).resolve_left fun old => ?_
    obtain ⟨j, there⟩ := Array.mem_iff_getElem?.mp old
    have same := wf.trail.distinct i j l l here (spread.grows.keeps j l there) rfl
    have := (Array.getElem?_eq_some_iff.mp there).1
    omega
  · obtain ⟨k, drawn, _, all⟩ := propagated.drawn
    have closed := wf.closed (all quiet ▸ drawn)
    exact ⟨closed, fun l => ⟨derived l, closed.holds wf.trail.toFaithful spread.perm
      fun m member => spread.grows.mem member⟩⟩
  · have conflicting := propagated.conflicting r found
    exact ⟨conflicting.alive, fun l member =>
      (wf.trail.false_iff l).mpr (conflicting.falsified l member)⟩

end Engine

end ModelCounting
