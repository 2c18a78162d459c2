import ModelCounting.Proofs.Search.Trail

/-!
Going back to a level. Literals come off the trail from its end, each put back into the queue, until
exactly those of the remaining levels are left, in their old places and with their old reasons.
-/

namespace ModelCounting

namespace Trail

variable {t t' t'' : Trail} {l : Lit} {i k n : Nat}

/-- A trail cut off at a position. -/
structure Cut (t : Trail) (k : Nat) (t' : Trail) : Prop extends Faithful t' where
  varCount_eq : t'.varCount = t.varCount
  levels_eq : t'.levels = t.levels
  lits_eq : ∀ i, t'.lits[i]? = if i < k then t.lits[i]? else none
  reason_eq : ∀ l ∈ t'.lits, t'.reason l.var = t.reason l.var
  starts_eq : t'.starts = t.starts
  head_eq : t'.head = t.head

theorem Faithful.cut (faithful : t.Faithful) : t.Cut t.lits.size t where
  toFaithful := faithful
  varCount_eq := rfl
  levels_eq := rfl
  lits_eq i := by
    split
    · rfl
    · exact Array.getElem?_eq_none (by omega)
  reason_eq _ _ := rfl
  starts_eq := rfl
  head_eq := rfl

theorem Faithful.retract (faithful : t.Faithful) (last : t.lits.back? = some l) :
    t.Cut (t.lits.size - 1) (t.retract l) := by
  rw [Array.back?_eq_getElem?] at last
  have inside := faithful.var_lt (Array.mem_of_getElem? last)
  have lits_eq (i : Nat) : (t.retract l).lits[i]? =
      if i < t.lits.size - 1 then t.lits[i]? else none := by
    simp [Trail.retract, Array.getElem?_pop]
  have other {i : Nat} {m : Lit} (here : (t.retract l).lits[i]? = some m) :
      t.lits[i]? = some m ∧ m.var ≠ l.var := by
    rw [lits_eq] at here
    split at here
    · refine ⟨here, fun same => ?_⟩
      have := faithful.distinct _ _ _ _ here last same
      omega
    · cases here
  have value_other (v : Var) (other : v ≠ l.var) : (t.retract l).valueVar v = t.valueVar v :=
    getD_set_ne (id_ne_of_ne other.symm) _ _
  have value_self : (t.retract l).valueVar l.var = .undef := getD_set_self inside _ _
  refine ⟨⟨?_, ?_, fun m => ?_, fun i j m p hi hj same => ?_, fun v free => ?_⟩, ?_, rfl, lits_eq,
    fun m member => ?_, rfl, rfl⟩
  · simpa [Trail.retract, varCount] using faithful.levels_size
  · simpa [Trail.retract, varCount] using faithful.reasons_size
  · by_cases same : m.var = l.var
    · have unassigned : (t.retract l).value m = .undef := (value_of_var _ _).mpr (same ▸ value_self)
      rw [unassigned]
      refine ⟨by simp, fun member => ?_⟩
      obtain ⟨i, here⟩ := Array.mem_iff_getElem?.mp member
      exact absurd same (other here).2
    · rw [value_congr (value_other m.var same), faithful.true_iff]
      constructor
      · intro member
        obtain ⟨i, here⟩ := Array.mem_iff_getElem?.mp member
        refine Array.mem_of_getElem? (i := i) ?_
        rw [lits_eq]
        have := (Array.getElem?_eq_some_iff.mp here).1
        have : i ≠ t.lits.size - 1 := by
          rintro rfl
          rw [here] at last
          cases last
          exact same rfl
        rw [if_pos (by omega), here]
      · intro member
        obtain ⟨i, here⟩ := Array.mem_iff_getElem?.mp member
        exact Array.mem_of_getElem? (other here).1
  · exact faithful.distinct i j m p (other hi).1 (other hj).1 same
  · by_cases same : v = l.var
    · exact same ▸ getD_set_self (faithful.reasons_size.symm ▸ inside) _ _
    · rw [value_other v same] at free
      exact (getD_set_ne (id_ne_of_ne (Ne.symm same)) _ _).trans (faithful.unreasoned v free)
  · simp [Trail.retract, varCount]
  · obtain ⟨i, here⟩ := Array.mem_iff_getElem?.mp member
    exact getD_set_ne (id_ne_of_ne (other here).2.symm) _ _

theorem Cut.trans {k' : Nat} (first : t.Cut k t') (second : t'.Cut k' t'') (le : k' ≤ k) :
    t.Cut k' t'' where
  toFaithful := second.toFaithful
  varCount_eq := second.varCount_eq.trans first.varCount_eq
  levels_eq := second.levels_eq.trans first.levels_eq
  lits_eq i := by
    rw [second.lits_eq, first.lits_eq]
    grind
  reason_eq l member := by
    refine (second.reason_eq l member).trans (first.reason_eq l ?_)
    obtain ⟨i, here⟩ := Array.mem_iff_getElem?.mp member
    rw [second.lits_eq] at here
    split at here
    · exact Array.mem_of_getElem? here
    · cases here
  starts_eq := second.starts_eq.trans first.starts_eq
  head_eq := second.head_eq.trans first.head_eq

theorem Cut.size_eq (cut : t.Cut k t') (le : k ≤ t.lits.size) : t'.lits.size = k := by
  refine Nat.le_antisymm (Nat.le_of_not_lt fun more => ?_) (Nat.le_of_not_lt fun less => ?_)
  · have := cut.lits_eq k
    rw [Array.getElem?_eq_getElem more] at this
    simp at this
  · have := cut.lits_eq t'.lits.size
    rw [if_pos less, Array.getElem?_eq_none (Nat.le_refl _),
      Array.getElem?_eq_getElem (by omega)] at this
    cases this

/-- A trail lowered to a level: the literals of that level and those below it are left. -/
structure Lowered (t : Trail) (level : Nat) (t' : Trail) : Prop where
  varCount_eq : t'.varCount = t.varCount
  depth_eq : t'.depth = level
  starts_eq : t'.starts = t.starts.take level
  start : t.starts[level]? = some t'.lits.size
  head_eq : t'.head = t'.lits.size
  keeps : ∀ (i : Nat) (l : Lit), t'.lits[i]? = some l ↔ t.lits[i]? = some l ∧ t.level l.var ≤ level
  level_eq : ∀ v, t'.level v = t.level v
  reason_eq : ∀ l ∈ t'.lits, t'.reason l.var = t.reason l.var

theorem Lowered.mem_iff (lowered : t.Lowered k t') :
    l ∈ t'.lits ↔ l ∈ t.lits ∧ t.level l.var ≤ k := by
  simp only [Array.mem_iff_getElem?, lowered.keeps, exists_and_right]

theorem Lowered.mem (lowered : t.Lowered k t') (member : l ∈ t'.lits) : l ∈ t.lits :=
  (lowered.mem_iff.mp member).1

theorem WellFormed.lower (wf : t.WellFormed) (start : t.starts[k]? = some n) (cut : t.Cut n t') :
    { t' with head := n, starts := t.starts.take k }.WellFormed ∧
      t.Lowered k { t' with head := n, starts := t.starts.take k } := by
  have le : n ≤ t.lits.size := Nat.le_trans (wf.starts_le n (Array.mem_of_getElem? start)) wf.head_le
  have size_eq := cut.size_eq le
  have inside : k < t.starts.size := (Array.getElem?_eq_some_iff.mp start).1
  have keeps (i : Nat) (l : Lit) :
      t'.lits[i]? = some l ↔ t.lits[i]? = some l ∧ t.level l.var ≤ k := by
    rw [cut.lits_eq]
    constructor
    · intro here
      split at here
      · rename_i below
        rw [wf.level_eq i l here, wf.levelAt_le_iff start]
        exact ⟨here, below⟩
      · cases here
    · rintro ⟨here, low⟩
      rw [wf.level_eq i l here, wf.levelAt_le_iff start] at low
      rw [if_pos low, here]
  have level_eq (v : Var) : t'.level v = t.level v := by rw [level, level, cut.levels_eq]
  have split_eq : t.starts.toList = t.starts.toList.take k ++ t.starts.toList.drop k :=
    (List.take_append_drop k _).symm
  have ordered := wf.ordered
  rw [split_eq, List.pairwise_append] at ordered
  have start' : n ∈ t.starts.toList.drop k :=
    List.mem_iff_getElem?.mpr ⟨0, by simpa using start⟩
  constructor
  · refine ⟨⟨cut.levels_size, cut.reasons_size, cut.true_iff, cut.distinct, cut.unreasoned⟩,
      ?_, ?_, ?_, ?_⟩
    · intro i l here
      obtain ⟨here', low⟩ := (keeps i l).mp here
      rw [wf.level_eq i l here', wf.levelAt_le_iff start] at low
      have above : (t.starts.toList.drop k).countP (· ≤ i) = 0 := by
        rw [List.countP_eq_zero]
        intro m member
        have order := List.pairwise_iff_getElem.mp ordered.2.1
        obtain ⟨j, inside, rfl⟩ := List.mem_iff_getElem.mp member
        have first : (t.starts.toList.drop k).get ⟨0, by omega⟩ = n := by
          have := (List.getElem?_eq_some_iff.mp (show (t.starts.toList.drop k)[0]? = some n by
            simpa using start)).2
          exact this
        have : n ≤ (t.starts.toList.drop k)[j] := by
          rcases Nat.eq_zero_or_pos j with rfl | pos
          · exact Nat.le_of_eq first.symm
          · exact first ▸ order 0 j (by omega) inside pos
        simp only [decide_eq_true_eq]
        omega
      refine (level_eq l.var).trans ((wf.level_eq i l here').trans ?_)
      rw [levelAt, split_eq, List.countP_append, above]
      simp [levelAt]
    · simpa using ordered.1
    · intro m member
      have member : m ∈ t.starts.toList.take k := by
        rw [← Array.mem_toList_iff] at member
        simpa [Array.toList_extract] using member
      exact ordered.2.2 m member n start'
    · exact Nat.le_of_eq size_eq.symm
  · refine ⟨cut.varCount_eq, ?_, rfl, ?_, size_eq.symm, keeps, level_eq, cut.reason_eq⟩
    · simp only [depth, Array.take_eq_extract, Array.size_extract]
      omega
    · rw [start]
      exact congrArg some size_eq.symm

end Trail

namespace Solver

open Trail

variable {t t' : Trail} {b b' : Branching} {n : Nat} {waiting : Var → Prop}

theorem unwind_cut (faithful : t.Faithful) (le : n ≤ t.lits.size)
    (run : unwind n t b = .ok (t', b')) : t.Cut (t.lits.size - n) t' := by
  induction n generalizing t b with
  | zero =>
    cases run
    exact faithful.cut
  | succ n ih =>
    unfold unwind at run
    split at run
    · rename_i empty
      rw [Array.back?_eq_getElem?, Array.getElem?_eq_none_iff] at empty
      omega
    · rename_i l last
      simp only [bind_ok] at run
      obtain ⟨b₁, released, rest⟩ := run
      have first := faithful.retract last
      have size_eq := first.size_eq (by omega)
      have second := ih first.toFaithful (by omega) rest
      rw [size_eq] at second
      have same : t.lits.size - 1 - n = t.lits.size - (n + 1) := by omega
      exact same ▸ first.trans second (by omega)

theorem unwind_awaits (faithful : t.Faithful) (awaits : b.Awaits t.varCount waiting)
    (le : n ≤ t.lits.size) (run : unwind n t b = .ok (t', b')) :
    b'.Awaits t.varCount fun v => waiting v ∨ ∃ l ∈ t.lits, l ∉ t'.lits ∧ l.var = v := by
  induction n generalizing t b waiting with
  | zero =>
    cases run
    exact awaits.mono fun v h => h.resolve_right fun ⟨l, member, absent, _⟩ => absent member
  | succ n ih =>
    unfold unwind at run
    split at run
    · rename_i empty
      rw [Array.back?_eq_getElem?, Array.getElem?_eq_none_iff] at empty
      omega
    · rename_i l last
      simp only [bind_ok] at run
      obtain ⟨b₁, released, rest⟩ := run
      have first := faithful.retract last
      have size_eq := first.size_eq (by omega)
      rw [Array.back?_eq_getElem?] at last
      have released := Branching.release_awaits awaits
        (faithful.var_lt (Array.mem_of_getElem? last)) released
      rw [← first.varCount_eq] at released ⊢
      refine (ih first.toFaithful released (by omega) rest).mono fun v h => ?_
      rcases h with h | ⟨m, member, absent, rfl⟩
      · exact .inl (.inr h)
      -- A literal that came off did so in a later step or is the last one, just released.
      by_cases retracted : m ∈ (t.retract l).lits
      · exact .inr ⟨m, retracted, absent, rfl⟩
      · refine .inl (.inl ?_)
        obtain ⟨i, here⟩ := Array.mem_iff_getElem?.mp member
        have := (Array.getElem?_eq_some_iff.mp here).1
        by_cases ends : i = t.lits.size - 1
        · rw [ends, last] at here
          cases here
          rfl
        · refine absurd (Array.mem_of_getElem? (i := i) ?_) retracted
          rw [first.lits_eq, if_pos (by omega), here]

/-- Going back to a level leaves the solver alone but for the trail, which is lowered, and the
queue, which gets back the variables taken off. -/
theorem backTo_lowered {s s' : Solver} {level : Nat} (wf : s.trail.WellFormed)
    (below : level < s.depth) (run : s.backTo level = .ok s') :
    ∃ trail branching, s' = { s with engine.trail := trail, branching } ∧ trail.WellFormed ∧
      s.trail.Lowered level trail ∧ ∀ waiting, s.branching.Awaits s.varCount waiting →
        branching.Awaits s.varCount fun v =>
          waiting v ∨ ∃ l ∈ s.trail.lits, l ∉ trail.lits ∧ l.var = v := by
  unfold backTo at run
  rw [if_pos below] at run
  simp only [bind_ok, pure_ok, Prod.exists] at run
  obtain ⟨t, b, unwound, rfl⟩ := run
  have here : s.trail.starts[level]? = some (s.trail.starts.getD level 0) := by
    rw [Array.getD_eq_getD_getElem?, Array.getElem?_eq_getElem below]
    rfl
  generalize s.trail.starts.getD level 0 = n at here unwound
  have le := Nat.le_trans (wf.starts_le n (Array.mem_of_getElem? here)) wf.head_le
  have cut := unwind_cut wf.toFaithful (Nat.sub_le _ _) unwound
  have awaits (waiting : Var → Prop) (awaits : s.branching.Awaits s.varCount waiting) :=
    unwind_awaits wf.toFaithful awaits (Nat.sub_le _ _) unwound
  have same : s.trail.lits.size - (s.trail.lits.size - n) = n := by omega
  change s.trail.Cut (s.trail.lits.size - (s.trail.lits.size - n)) t at cut
  rw [same] at cut
  obtain ⟨wf', lowered⟩ := wf.lower here cut
  refine ⟨_, b, ?_, wf', lowered, awaits⟩
  rw [cut.starts_eq]

theorem backTo_same {s : Solver} {level : Nat} (above : s.depth ≤ level) :
    s.backTo level = .ok s := by
  rw [backTo, if_neg (by omega)]

end Solver

end ModelCounting
