import Mathlib.Data.List.Perm.Subperm
import ModelCounting.Proofs.Search.Queue
import ModelCounting.Search.Solver

/-!
The trail. Exactly its literals are true, each variable stands on it once, and the level of a
literal is the number of levels opened at or before its position. Assigning a literal puts it last;
going back to a level takes off exactly the literals of higher levels.
-/

namespace ModelCounting

theorem Var.ext {v w : Var} (same : v.id = w.id) : v = w := by
  cases v
  cases w
  exact congrArg Var.mk same

namespace Truth

@[simp] theorem negate_negate (b : Truth) : b.negate.negate = b := by
  cases b <;> rfl

theorem negate_eq_tru {b : Truth} : b.negate = .tru ↔ b = .fls := by
  cases b <;> simp [negate]

end Truth

namespace Trail

variable {t t' : Trail} {l m : Lit} {i j : Nat}

def levelAt (t : Trail) (i : Nat) : Nat := t.starts.toList.countP (· ≤ i)

/-- The tables of a trail say what its literals say. -/
structure Faithful (t : Trail) : Prop where
  levels_size : t.levels.size = t.varCount
  reasons_size : t.reasons.size = t.varCount
  true_iff : ∀ l, t.value l = .tru ↔ l ∈ t.lits
  distinct : ∀ (i j : Nat) (l m : Lit), t.lits[i]? = some l → t.lits[j]? = some m → l.var = m.var → i = j
  unreasoned : ∀ v, t.valueVar v = .undef → t.reason v = none

structure WellFormed (t : Trail) : Prop extends Faithful t where
  level_eq : ∀ (i : Nat) (l : Lit), t.lits[i]? = some l → t.level l.var = t.levelAt i
  ordered : t.starts.toList.Pairwise (· ≤ ·)
  /-- Levels are opened when nothing waits for propagation. -/
  starts_le : ∀ n ∈ t.starts, n ≤ t.head
  head_le : t.head ≤ t.lits.size

/-! Values. -/

theorem value_neg (t : Trail) (l : Lit) : t.value (-l) = (t.value l).negate := by
  cases h : l.phase <;> simp [value, h]

theorem value_of_var (t : Trail) (l : Lit) : t.value l = .undef ↔ t.valueVar l.var = .undef := by
  unfold value
  split
  · rfl
  · cases t.valueVar l.var <;> simp [Truth.negate]

theorem valueVar_outside {v : Var} (outside : ¬ v.id < t.varCount) : t.valueVar v = .undef := by
  simp only [valueVar, Array.getD_eq_getD_getElem?]
  rw [Array.getElem?_eq_none (Nat.le_of_not_lt outside)]
  rfl

theorem value_cases (t : Trail) (l : Lit) :
    t.value l = .tru ∨ t.value l = .fls ∨ t.value l = .undef := by
  cases t.value l <;> simp

namespace Faithful

theorem false_iff (faithful : t.Faithful) (l : Lit) : t.value l = .fls ↔ -l ∈ t.lits := by
  rw [← faithful.true_iff, value_neg, Truth.negate_eq_tru]

theorem undef_iff (faithful : t.Faithful) (v : Var) :
    t.valueVar v = .undef ↔ ∀ l ∈ t.lits, l.var ≠ v := by
  constructor
  · rintro unassigned l member rfl
    rw [← value_of_var, (faithful.true_iff l).mpr member] at unassigned
    cases unassigned
  · intro absent
    have hv := Lit.var_of v true
    rw [← hv, ← value_of_var]
    rcases t.value_cases (.of v true) with h | h | h
    · exact absurd hv (absent _ ((faithful.true_iff _).mp h))
    · exact absurd (by simp) (absent _ ((faithful.false_iff _).mp h))
    · exact h

theorem exists_mem (faithful : t.Faithful) {v : Var} (assigned : t.valueVar v ≠ .undef) :
    ∃ l ∈ t.lits, l.var = v := by
  by_contra none
  exact assigned ((faithful.undef_iff v).mpr fun l member same => none ⟨l, member, same⟩)

theorem var_lt (faithful : t.Faithful) (member : l ∈ t.lits) : l.var.id < t.varCount := by
  by_contra outside
  exact (faithful.undef_iff l.var).mp (valueVar_outside outside) l member rfl

theorem consistent (faithful : t.Faithful) (member : l ∈ t.lits) (member' : m ∈ t.lits)
    (same : l.var = m.var) : l = m := by
  obtain ⟨i, hi⟩ := Array.mem_iff_getElem?.mp member
  obtain ⟨j, hj⟩ := Array.mem_iff_getElem?.mp member'
  obtain rfl := faithful.distinct i j l m hi hj same
  exact Option.some.inj (hi.symm.trans hj)

theorem nodup_vars (faithful : t.Faithful) : (t.lits.toList.map Lit.var).Nodup := by
  rw [List.nodup_iff_pairwise_ne, List.pairwise_iff_getElem]
  intro i j hi hj before same
  simp only [List.length_map, Array.length_toList] at hi hj
  simp only [List.getElem_map, Array.getElem_toList] at same
  have := faithful.distinct i j _ _ (Array.getElem?_eq_getElem hi) (Array.getElem?_eq_getElem hj) same
  omega

theorem size_le (faithful : t.Faithful) : t.lits.size ≤ t.varCount := by
  have nodup : (t.lits.toList.map (·.var.id)).Nodup := by
    rw [List.nodup_iff_pairwise_ne, List.pairwise_map]
    exact (List.pairwise_map.mp faithful.nodup_vars).imp fun differ same => differ (Var.ext same)
  have inside : t.lits.toList.map (·.var.id) ⊆ List.range t.varCount := by
    intro n member
    obtain ⟨l, here, rfl⟩ := List.mem_map.mp member
    exact List.mem_range.mpr (faithful.var_lt (by simpa using here))
  have := (nodup.subperm inside).length_le
  simpa using this

end Faithful

/-! Levels. -/

theorem levelAt_mono (t : Trail) (le : i ≤ j) : t.levelAt i ≤ t.levelAt j :=
  List.countP_mono_left fun n _ h => by
    simp only [decide_eq_true_eq] at h ⊢
    omega

theorem levelAt_le_depth (t : Trail) (i : Nat) : t.levelAt i ≤ t.depth := by
  have := List.countP_le_length (p := fun n => decide (n ≤ i)) (l := t.starts.toList)
  simpa [levelAt, depth] using this

theorem countP_le_iff {starts : List Nat} (ordered : starts.Pairwise (· ≤ ·)) {k n : Nat}
    (here : starts[k]? = some n) : starts.countP (· ≤ i) ≤ k ↔ i < n := by
  induction starts generalizing k with
  | nil => simp at here
  | cons a starts ih =>
    rw [List.pairwise_cons] at ordered
    have above : i < a → starts.countP (· ≤ i) = 0 := by
      intro below
      rw [List.countP_eq_zero]
      intro b member
      have := ordered.1 b member
      simp only [decide_eq_true_eq]
      omega
    cases k with
    | zero =>
      obtain rfl : a = n := by simpa using here
      by_cases below : i < a
      · simp [above below, below]
      · simp [Nat.le_of_not_lt below, below]
    | succ k =>
      have here : starts[k]? = some n := by simpa using here
      by_cases below : i < a
      · have := ordered.1 n (List.mem_of_getElem? here)
        have rest := above below
        simp only [List.countP_cons, rest, decide_eq_true_eq]
        split <;> omega
      · have := ih ordered.2 here
        simp only [List.countP_cons, Nat.le_of_not_lt below, decide_true, if_true]
        omega

theorem WellFormed.levelAt_le_iff (wf : t.WellFormed) {level n : Nat}
    (here : t.starts[level]? = some n) : t.levelAt i ≤ level ↔ i < n :=
  countP_le_iff wf.ordered (by simpa using here)

theorem WellFormed.levelAt_top (wf : t.WellFormed) (waiting : t.head ≤ i) :
    t.levelAt i = t.depth := by
  have all : t.starts.toList.countP (· ≤ i) = t.starts.toList.length := by
    rw [List.countP_eq_length]
    intro n member
    have := wf.starts_le n (by simpa using member)
    simp only [decide_eq_true_eq]
    omega
  simpa [levelAt, depth] using all

theorem WellFormed.level_le_depth (wf : t.WellFormed) (member : l ∈ t.lits) :
    t.level l.var ≤ t.depth := by
  obtain ⟨i, here⟩ := Array.mem_iff_getElem?.mp member
  rw [wf.level_eq i l here]
  exact t.levelAt_le_depth i

/-! Assigning a literal. -/

/-- A trail grown at its end. -/
structure Grows (t t' : Trail) : Prop where
  varCount_eq : t'.varCount = t.varCount
  starts_eq : t'.starts = t.starts
  keeps : ∀ (i : Nat) (l : Lit), t.lits[i]? = some l → t'.lits[i]? = some l
  level_eq : ∀ l ∈ t.lits, t'.level l.var = t.level l.var
  reason_eq : ∀ l ∈ t.lits, t'.reason l.var = t.reason l.var

theorem Grows.refl (t : Trail) : t.Grows t :=
  ⟨rfl, rfl, fun _ _ h => h, fun _ _ => rfl, fun _ _ => rfl⟩

theorem Grows.mem (grows : t.Grows t') (member : l ∈ t.lits) : l ∈ t'.lits := by
  obtain ⟨i, here⟩ := Array.mem_iff_getElem?.mp member
  exact Array.mem_of_getElem? (grows.keeps i l here)

theorem Grows.trans {t'' : Trail} (first : t.Grows t') (second : t'.Grows t'') : t.Grows t'' where
  varCount_eq := second.varCount_eq.trans first.varCount_eq
  starts_eq := second.starts_eq.trans first.starts_eq
  keeps i l here := second.keeps i l (first.keeps i l here)
  level_eq l member := (second.level_eq l (first.mem member)).trans (first.level_eq l member)
  reason_eq l member := (second.reason_eq l (first.mem member)).trans (first.reason_eq l member)

theorem Grows.depth_eq (grows : t.Grows t') : t'.depth = t.depth := by
  rw [depth, depth, grows.starts_eq]

theorem Grows.undef_mono {v : Var} (grows : t.Grows t') (wf : t.WellFormed) (wf' : t'.WellFormed)
    (unassigned : t'.valueVar v = .undef) : t.valueVar v = .undef :=
  (wf.undef_iff v).mpr fun l member => (wf'.undef_iff v).mp unassigned l (grows.mem member)

theorem Grows.appended (grows : t.Grows t') (wf : t.WellFormed) (wf' : t'.WellFormed) :
    ∃ added, t'.lits.toList = t.lits.toList ++ added ∧ ∀ l ∈ added, t'.level l.var = t.depth := by
  have start : t'.lits.toList.take t.lits.size = t.lits.toList := by
    apply List.ext_getElem?
    intro i
    by_cases inside : i < t.lits.size
    · have here := Array.getElem?_eq_getElem inside
      rw [List.getElem?_take_of_lt inside, Array.getElem?_toList, Array.getElem?_toList, here]
      exact grows.keeps i _ here
    · rw [List.getElem?_take_eq_none (by omega), Array.getElem?_toList]
      exact (Array.getElem?_eq_none (by omega)).symm
  refine ⟨t'.lits.toList.drop t.lits.size, ?_, fun l member => ?_⟩
  · rw [← List.take_append_drop t.lits.size t'.lits.toList, start]
    simp
  · obtain ⟨i, here⟩ := List.mem_iff_getElem?.mp member
    rw [List.getElem?_drop, Array.getElem?_toList] at here
    rw [wf'.level_eq _ l here, levelAt, grows.starts_eq]
    exact wf.levelAt_top (Nat.le_trans wf.head_le (Nat.le_add_right _ _))

variable {reason : Option ClauseRef}

theorem assign_ok (run : t.assign l reason = .ok t') :
    t.valueVar l.var = .undef ∧ t' = { t with
      values := t.values.setIfInBounds l.var.id (.ofBool l.phase)
      levels := t.levels.setIfInBounds l.var.id t.starts.size
      reasons := t.reasons.setIfInBounds l.var.id reason
      lits := t.lits.push l } := by
  unfold assign at run
  split at run
  · rename_i unassigned
    cases run
    exact ⟨unassigned, rfl⟩
  · simp at run

theorem id_ne_of_ne {v w : Var} (apart : v ≠ w) : v.id ≠ w.id := fun same => apart (Var.ext same)

theorem getD_set_self {α : Type} {a : Array α} {n : Nat} (inside : n < a.size) (x y : α) :
    (a.setIfInBounds n x).getD n y = x := by
  simp [Array.getD_eq_getD_getElem?, inside]

theorem getD_set_ne {α : Type} {a : Array α} {n k : Nat} (apart : n ≠ k) (x y : α) :
    (a.setIfInBounds n x).getD k y = a.getD k y := by
  simp [Array.getD_eq_getD_getElem?, Array.getElem?_setIfInBounds_ne apart]

theorem value_ofBool {b : Bool} (here : t.valueVar l.var = .ofBool b) :
    t.value l = .tru ↔ l.phase = b := by
  cases h : l.phase <;> cases b <;> simp [value, h, here, Truth.ofBool, Truth.negate]

theorem value_congr (same : t'.valueVar l.var = t.valueVar l.var) : t'.value l = t.value l := by
  simp [value, same]

/-- What assigning a literal does to a trail. -/
structure Assigned (t : Trail) (l : Lit) (reason : Option ClauseRef) (t' : Trail) : Prop
    extends Grows t t' where
  unassigned : t.valueVar l.var = .undef
  lits_eq : t'.lits = t.lits.push l
  level_self : t'.level l.var = t.depth
  reason_self : t'.reason l.var = reason
  head_eq : t'.head = t.head

theorem WellFormed.assign (wf : t.WellFormed) (inside : l.var.id < t.varCount)
    (run : t.assign l reason = .ok t') : t'.WellFormed ∧ t.Assigned l reason t' := by
  obtain ⟨unassigned, shape⟩ := assign_ok run
  have absent := (wf.undef_iff l.var).mp unassigned
  have lits_eq : t'.lits = t.lits.push l := by rw [shape]
  have starts_eq : t'.starts = t.starts := by rw [shape]
  have varCount_eq : t'.varCount = t.varCount := by simp [shape, varCount]
  have value_other (v : Var) (other : v ≠ l.var) : t'.valueVar v = t.valueVar v := by
    rw [shape]; exact getD_set_ne (id_ne_of_ne other.symm) _ _
  have level_other (v : Var) (other : v ≠ l.var) : t'.level v = t.level v := by
    rw [shape]; exact getD_set_ne (id_ne_of_ne other.symm) _ _
  have reason_other (v : Var) (other : v ≠ l.var) : t'.reason v = t.reason v := by
    rw [shape]; exact getD_set_ne (id_ne_of_ne other.symm) _ _
  have value_self : t'.valueVar l.var = .ofBool l.phase := by
    rw [shape]; exact getD_set_self inside _ _
  have level_self : t'.level l.var = t.depth := by
    rw [shape]; exact getD_set_self (wf.levels_size.symm ▸ inside) _ _
  have reason_self : t'.reason l.var = reason := by
    rw [shape]; exact getD_set_self (wf.reasons_size.symm ▸ inside) _ _
  have position {i : Nat} {m : Lit} (here : t'.lits[i]? = some m) :
      t.lits[i]? = some m ∨ (i = t.lits.size ∧ m = l) := by
    rw [lits_eq, Array.getElem?_push] at here
    grind
  constructor
  · refine ⟨⟨?_, ?_, ?_, ?_, ?_⟩, ?_, ?_, ?_, ?_⟩
    · simpa [shape, varCount] using wf.levels_size
    · simpa [shape, varCount] using wf.reasons_size
    · intro m
      rw [lits_eq, Array.mem_push, ← wf.true_iff m]
      by_cases same : m.var = l.var
      · have here : t.value m ≠ .tru := fun holds =>
          absent m ((wf.true_iff m).mp holds) same
        rw [value_ofBool (same ▸ value_self)]
        exact ⟨fun phase => .inr (Lit.ext_var_phase same phase),
          fun h => by rw [h.resolve_left here]⟩
      · rw [value_congr (value_other m.var same)]
        exact ⟨.inl, fun h => h.resolve_right fun h => same (by rw [h])⟩
    · intro i j m k hi hj same
      rcases position hi with hi' | ⟨last, rfl⟩ <;>
        rcases position hj with hj' | ⟨last', rfl⟩
      · exact wf.distinct i j m k hi' hj' same
      · exact absurd same (absent m (Array.mem_of_getElem? hi'))
      · exact absurd same.symm (absent k (Array.mem_of_getElem? hj'))
      · exact last.trans last'.symm
    · intro v free
      by_cases same : v = l.var
      · rw [same, value_self] at free
        cases h : l.phase <;> simp [h, Truth.ofBool] at free
      · rw [reason_other v same]
        exact wf.unreasoned v (by rwa [value_other v same] at free)
    · intro i m here
      rw [levelAt, starts_eq]
      rcases position here with here | ⟨rfl, rfl⟩
      · exact (level_other m.var (absent m (Array.mem_of_getElem? here))).trans (wf.level_eq i m here)
      · exact level_self.trans (wf.levelAt_top wf.head_le).symm
    · exact starts_eq ▸ wf.ordered
    · intro n member
      rw [starts_eq] at member
      rw [shape]
      exact wf.starts_le n member
    · have := wf.head_le
      simp only [shape, Array.size_push]
      omega
  · refine ⟨⟨varCount_eq, starts_eq, fun i m here => ?_,
      fun m member => level_other m.var (absent m member),
      fun m member => reason_other m.var (absent m member)⟩,
      unassigned, lits_eq, level_self, reason_self, by rw [shape]⟩
    rw [lits_eq, Array.getElem?_push]
    have := (Array.getElem?_eq_some_iff.mp here).1
    grind

theorem Assigned.mem (assigned : t.Assigned l reason t') : l ∈ t'.lits := by
  rw [assigned.lits_eq]
  exact Array.mem_push_self

theorem Assigned.mem_iff (assigned : t.Assigned l reason t') : m ∈ t'.lits ↔ m ∈ t.lits ∨ m = l := by
  rw [assigned.lits_eq, Array.mem_push]

/-! Opening a level, and adding a variable. -/

theorem levelAt_openLevel (before : i < t.lits.size) : t.openLevel.levelAt i = t.levelAt i := by
  simp [levelAt, openLevel, List.countP_append, before]

theorem WellFormed.openLevel (wf : t.WellFormed) (drawn : t.head = t.lits.size) :
    t.openLevel.WellFormed where
  levels_size := wf.levels_size
  reasons_size := wf.reasons_size
  true_iff := wf.true_iff
  distinct := wf.distinct
  unreasoned := wf.unreasoned
  level_eq i l here := by
    have before : i < t.lits.size := (Array.getElem?_eq_some_iff.mp here).1
    exact (wf.level_eq i l here).trans (levelAt_openLevel before).symm
  ordered := by
    simp only [Trail.openLevel, Array.toList_push, List.pairwise_append]
    refine ⟨wf.ordered, by simp, fun n member k last => ?_⟩
    have := wf.starts_le n (by simpa using member)
    simp only [List.mem_singleton] at last
    omega
  starts_le n member := by
    simp only [Trail.openLevel, Array.mem_push] at member ⊢
    rcases member with member | rfl
    · exact wf.starts_le n member
    · omega
  head_le := wf.head_le

theorem WellFormed.skip (wf : t.WellFormed) : { t with head := t.lits.size }.WellFormed where
  levels_size := wf.levels_size
  reasons_size := wf.reasons_size
  true_iff := wf.true_iff
  distinct := wf.distinct
  unreasoned := wf.unreasoned
  level_eq := wf.level_eq
  ordered := wf.ordered
  starts_le n member := Nat.le_trans (wf.starts_le n member) wf.head_le
  head_le := Nat.le_refl _

theorem WellFormed.next (wf : t.WellFormed) (waiting : t.head < t.lits.size) :
    { t with head := t.head + 1 }.WellFormed where
  levels_size := wf.levels_size
  reasons_size := wf.reasons_size
  true_iff := wf.true_iff
  distinct := wf.distinct
  unreasoned := wf.unreasoned
  level_eq := wf.level_eq
  ordered := wf.ordered
  starts_le n member := Nat.le_succ_of_le (wf.starts_le n member)
  head_le := waiting

theorem getD_push_self {α : Type} {a : Array α} (x : α) (n : Nat) :
    (a.push x).getD n x = a.getD n x := by
  simp only [Array.getD_eq_getD_getElem?, Array.getElem?_push]
  grind

theorem addVar_valueVar (t : Trail) (v : Var) : t.addVar.valueVar v = t.valueVar v :=
  getD_push_self _ _

theorem addVar_level (t : Trail) (v : Var) : t.addVar.level v = t.level v := getD_push_self _ _

theorem addVar_reason (t : Trail) (v : Var) : t.addVar.reason v = t.reason v := getD_push_self _ _

theorem addVar_varCount (t : Trail) : t.addVar.varCount = t.varCount + 1 := by
  simp [addVar, varCount]

theorem addVar_value (t : Trail) (l : Lit) : t.addVar.value l = t.value l :=
  value_congr (t.addVar_valueVar l.var)

theorem WellFormed.empty : ({} : Trail).WellFormed := by
  refine ⟨⟨rfl, rfl, fun l => ?_, by simp, fun v _ => by simp [reason]⟩, by simp, by simp, by simp,
    Nat.le_refl _⟩
  have unassigned : ({} : Trail).value l = .undef := by
    cases h : l.phase <;> simp [value, valueVar, h, Truth.negate]
  rw [unassigned]
  simp

theorem WellFormed.addVar (wf : t.WellFormed) : t.addVar.WellFormed where
  levels_size := by simp [Trail.addVar, varCount, wf.levels_size]
  reasons_size := by simp [Trail.addVar, varCount, wf.reasons_size]
  true_iff l := by rw [addVar_value]; exact wf.true_iff l
  distinct := wf.distinct
  unreasoned v free := by
    rw [addVar_valueVar] at free
    rw [addVar_reason, wf.unreasoned v free]
  level_eq i l here := by rw [addVar_level]; exact wf.level_eq i l here
  ordered := wf.ordered
  starts_le := wf.starts_le
  head_le := wf.head_le

end Trail

end ModelCounting
