import Mathlib.Algebra.Order.Ring.GeomSum
import ModelCounting.Proofs.Search.Stepping
import ModelCounting.Search.Solve

/-!
How far a search has come. A position of the trail that opens no level weighs a power of two, and
more than all positions after it together. Propagation and decisions lose no weight, and a conflict
turns the position that opened a level into one that does not. So the weight rises with every
conflict, and between two conflicts the depth rises with every decision. Both are bounded, and with
them the number of rounds.
-/

namespace ModelCounting

namespace Trail

variable {t t' t'' : Trail} {l : Lit} {reason : Option ClauseRef} {k extra : Nat}

theorem weights_lt {places : Finset Nat} {n k : Nat}
    (each : ∀ i ∈ places, i < n ∧ n - 1 - i < k) : ∑ i ∈ places, 2 ^ (n - 1 - i) < 2 ^ k := by
  have apart : Set.InjOn (n - 1 - ·) (places : Set Nat) := by
    intro i hi j hj same
    have := (each i hi).1
    have := (each j hj).1
    simp only at same
    omega
  rw [← Finset.sum_image (f := fun i => 2 ^ i) apart]
  apply Nat.geomSum_lt (Nat.le_refl 2)
  intro e member
  obtain ⟨i, hi, rfl⟩ := Finset.mem_image.mp member
  exact (each i hi).2

/-- A position gained outweighs all later ones that are lost for it. -/
theorem weights_rise {old new : Finset Nat} {n p : Nat} (inside : ∀ i ∈ old, i < n)
    (keeps : ∀ i ∈ old, i < p → i ∈ new) (gained : p ∈ new) (free : p ∉ old) :
    ∑ i ∈ old, 2 ^ (n - 1 - i) < ∑ i ∈ new, 2 ^ (n - 1 - i) := by
  have later : ∑ i ∈ old.filter (¬ · < p), 2 ^ (n - 1 - i) < 2 ^ (n - 1 - p) := by
    apply weights_lt
    intro i member
    obtain ⟨member, above⟩ := Finset.mem_filter.mp member
    have apart : i ≠ p := fun same => free (same ▸ member)
    have := inside i member
    omega
  have fewer : insert p (old.filter (· < p)) ⊆ new := by
    intro i member
    rcases Finset.mem_insert.mp member with rfl | member
    · exact gained
    · obtain ⟨member, below⟩ := Finset.mem_filter.mp member
      exact keeps i member below
  calc ∑ i ∈ old, 2 ^ (n - 1 - i)
      = ∑ i ∈ old.filter (· < p), 2 ^ (n - 1 - i) + ∑ i ∈ old.filter (¬ · < p), 2 ^ (n - 1 - i) :=
        (Finset.sum_filter_add_sum_filter_not old (· < p) _).symm
    _ < ∑ i ∈ old.filter (· < p), 2 ^ (n - 1 - i) + 2 ^ (n - 1 - p) := Nat.add_lt_add_left later _
    _ = ∑ i ∈ insert p (old.filter (· < p)), 2 ^ (n - 1 - i) := by
        rw [Finset.sum_insert (by simp), Nat.add_comm]
    _ ≤ ∑ i ∈ new, 2 ^ (n - 1 - i) := Finset.sum_le_sum_of_subset fewer

def inner (t : Trail) : Finset Nat := (Finset.range t.lits.size).filter (· ∉ t.starts)

theorem mem_inner {i : Nat} : i ∈ t.inner ↔ i < t.lits.size ∧ i ∉ t.starts := by
  simp [inner]

def weight (t : Trail) : Nat := ∑ i ∈ t.inner, 2 ^ (t.varCount - 1 - i)

theorem Faithful.inner_lt (faithful : t.Faithful) {i : Nat} (member : i ∈ t.inner) :
    i < t.varCount :=
  Nat.lt_of_lt_of_le (mem_inner.mp member).1 faithful.size_le

theorem Faithful.weight_lt (faithful : t.Faithful) : t.weight < 2 ^ t.varCount := by
  apply weights_lt
  intro i member
  have := faithful.inner_lt member
  omega

theorem Grows.weight_le (grows : t.Grows t') : t.weight ≤ t'.weight := by
  unfold weight
  rw [grows.varCount_eq]
  apply Finset.sum_le_sum_of_subset
  intro i member
  rw [mem_inner] at member ⊢
  rw [grows.starts_eq]
  exact ⟨Nat.lt_of_lt_of_le member.1 grows.size_le, member.2⟩

theorem weight_openLevel (t : Trail) : t.openLevel.weight = t.weight := by
  have same : t.openLevel.inner = t.inner := by
    ext i
    simp only [mem_inner, openLevel, Array.mem_push]
    constructor
    · rintro ⟨inside, closed⟩
      exact ⟨inside, fun opened => closed (.inl opened)⟩
    · rintro ⟨inside, closed⟩
      exact ⟨inside, fun opened => opened.elim closed (Nat.ne_of_lt inside)⟩
  unfold weight
  rw [same]
  rfl

/-- Going back to a level that is not empty and assigning a literal there raises the weight: the
literal takes the position that opened the next level. -/
theorem WellFormed.weight_rises (wf : t.WellFormed) (lowered : t.Lowered k t')
    (assigned : t'.Assigned l reason t'') (filled : 0 < k → ∃ m ∈ t.lits, t.level m.var = k) :
    t.weight < t''.weight := by
  have starts_eq : t''.starts = t.starts.take k := assigned.starts_eq.trans lowered.starts_eq
  have size_eq : t''.lits.size = t'.lits.size + 1 := by
    rw [assigned.lits_eq, Array.size_push]
  have kept {i : Nat} (member : i ∈ t''.starts) : ∃ j, j < k ∧ t.starts[j]? = some i := by
    rw [starts_eq, Array.take_eq_extract] at member
    obtain ⟨j, here⟩ := Array.mem_iff_getElem?.mp member
    rw [Array.getElem?_extract] at here
    split at here
    · exact ⟨j, by omega, by simpa using here⟩
    · cases here
  unfold weight
  rw [show t''.varCount = t.varCount from assigned.varCount_eq.trans lowered.varCount_eq]
  apply weights_rise (fun i member => wf.inner_lt member) (p := t'.lits.size)
  · intro i member below
    rw [mem_inner] at member ⊢
    refine ⟨by omega, fun opened => member.2 ?_⟩
    obtain ⟨j, _, here⟩ := kept opened
    exact Array.mem_of_getElem? here
  · rw [mem_inner]
    refine ⟨by omega, fun opened => ?_⟩
    obtain ⟨j, below, here⟩ := kept opened
    -- A literal of the level to which the trail is lowered lies before the position.
    obtain ⟨m, member, level⟩ := filled (by omega)
    obtain ⟨i, at_i⟩ := Array.mem_iff_getElem?.mp member
    rw [wf.level_eq i m at_i] at level
    have before := (wf.levelAt_le_iff lowered.start).mp (Nat.le_of_eq level)
    have after : ¬ t.levelAt i ≤ j := by omega
    rw [wf.levelAt_le_iff here] at after
    exact after before
  · intro member
    exact (mem_inner.mp member).2 (Array.mem_of_getElem? lowered.start)

/-! Depth. -/

structure Climbs (extra : Nat) (t : Trail) : Prop where
  starts : ∀ j p, t.starts[j]? = some p → j ≤ extra + p
  depth : t.depth ≤ extra + t.lits.size

namespace Climbs

theorem root (root : t.depth = 0) : t.Climbs extra where
  starts j p here := by
    have := (Array.getElem?_eq_some_iff.mp here).1
    unfold Trail.depth at root
    omega
  depth := by omega

theorem grows (climbs : t.Climbs extra) (grows : t.Grows t') : t'.Climbs extra where
  starts := grows.starts_eq ▸ climbs.starts
  depth := by
    have := climbs.depth
    have := grows.size_le
    rw [grows.depth_eq]
    omega

theorem starts_openLevel (climbs : t.Climbs extra) {j p : Nat}
    (here : t.openLevel.starts[j]? = some p) : j ≤ extra + p := by
  rw [Trail.openLevel, Array.getElem?_push] at here
  split at here
  · rename_i last
    cases here
    exact last ▸ climbs.depth
  · exact climbs.starts j p here

theorem openLevel (climbs : t.Climbs extra) (room : t.depth < extra) : t.openLevel.Climbs extra where
  starts _ _ := climbs.starts_openLevel
  depth := by
    have : t.openLevel.depth = t.depth + 1 := Array.size_push ..
    omega

theorem decide (climbs : t.Climbs extra) (assigned : t.openLevel.Assigned l reason t') :
    t'.Climbs extra where
  starts j p here := climbs.starts_openLevel (assigned.starts_eq ▸ here)
  depth := by
    have opened : t.openLevel.depth = t.depth + 1 := Array.size_push ..
    have size : t'.lits.size = t.lits.size + 1 := by
      rw [assigned.lits_eq, Array.size_push]
      rfl
    have := climbs.depth
    rw [assigned.depth_eq]
    omega

theorem lowered (climbs : t.Climbs extra) (lowered : t.Lowered k t') : t'.Climbs extra where
  starts j p here := by
    rw [lowered.starts_eq, Array.take_eq_extract, Array.getElem?_extract] at here
    split at here
    · exact climbs.starts j p (by simpa using here)
    · cases here
  depth := by
    rw [lowered.depth_eq]
    exact climbs.starts k _ lowered.start

end Climbs

/-! Rounds. -/

def potential (extra : Nat) (t : Trail) : Nat := t.weight * (t.varCount + extra + 1) + t.depth

theorem Climbs.depth_le (climbs : t.Climbs extra) (faithful : t.Faithful) :
    t.depth ≤ t.varCount + extra := by
  have := climbs.depth
  have := faithful.size_le
  omega

theorem Climbs.potential_lt (climbs : t.Climbs extra) (faithful : t.Faithful) :
    t.potential extra < 2 ^ t.varCount * (t.varCount + extra + 1) := by
  have weight := faithful.weight_lt
  have depth := climbs.depth_le faithful
  calc t.potential extra
      < t.weight * (t.varCount + extra + 1) + (t.varCount + extra + 1) :=
        Nat.add_lt_add_left (Nat.lt_succ_of_le depth) _
    _ = (t.weight + 1) * (t.varCount + extra + 1) := (Nat.succ_mul _ _).symm
    _ ≤ 2 ^ t.varCount * (t.varCount + extra + 1) := Nat.mul_le_mul_right _ weight

theorem Climbs.potential_of_weight (climbs : t.Climbs extra) (faithful : t.Faithful)
    (count : t'.varCount = t.varCount) (rises : t.weight < t'.weight) :
    t.potential extra < t'.potential extra := by
  have depth := climbs.depth_le faithful
  unfold potential
  rw [count]
  calc t.weight * (t.varCount + extra + 1) + t.depth
      < t.weight * (t.varCount + extra + 1) + (t.varCount + extra + 1) :=
        Nat.add_lt_add_left (Nat.lt_succ_of_le depth) _
    _ = (t.weight + 1) * (t.varCount + extra + 1) := (Nat.succ_mul _ _).symm
    _ ≤ t'.weight * (t.varCount + extra + 1) := Nat.mul_le_mul_right _ rises
    _ ≤ _ := Nat.le_add_right _ _

theorem potential_of_depth (count : t'.varCount = t.varCount) (weight : t.weight ≤ t'.weight)
    (deeper : t.depth < t'.depth) : t.potential extra < t'.potential extra := by
  unfold potential
  rw [count]
  exact Nat.add_lt_add_of_le_of_lt (Nat.mul_le_mul_right _ weight) deeper

end Trail

namespace Solver

theorem potential_le_roundBound (vars assumptions : Nat) :
    2 ^ vars * (vars + assumptions + 1) ≤ roundBound vars assumptions := by
  have spread : vars + assumptions + 1 ≤ (vars + 2) * (assumptions + 2) := by
    have : vars ≤ vars * (assumptions + 2) := Nat.le_mul_of_pos_right vars (by omega)
    rw [Nat.add_mul]
    omega
  have doubled : assumptions + 2 ≤ 2 ^ (assumptions + 1) := Nat.lt_two_pow_self
  calc 2 ^ vars * (vars + assumptions + 1)
      ≤ 2 ^ vars * ((vars + 2) * 2 ^ (assumptions + 1)) :=
        Nat.mul_le_mul_left _ (Nat.le_trans spread (Nat.mul_le_mul_left _ doubled))
    _ = (vars + 2) * 2 ^ (vars + assumptions + 1) := by
        rw [Nat.mul_left_comm, ← Nat.pow_add, Nat.add_assoc]
    _ ≤ (vars + 2) * (vars + 2) ^ (vars + assumptions + 1) :=
        Nat.mul_le_mul_left _ (Nat.pow_le_pow_left (Nat.le_add_left 2 vars) _)
    _ = roundBound vars assumptions := (Nat.pow_succ').symm

end Solver

end ModelCounting
