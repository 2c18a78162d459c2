import Mathlib.Algebra.Ring.Nat
import Mathlib.Data.Nat.Size
import ModelCounting.Proofs.Finishing
import ModelCounting.Search.Luby

/-!
The restart sequence. Its complete blocks have lengths one below a power of two and end with the half
of that power; what stands in a block before its end stands in the shorter block as well. The search for
a place goes up through the complete blocks until one reaches beyond the place, and down again until the
place ends one: on both ways the length is one below the power that the exponent gives, and on the way
down the place is within the length. All numbers on the way fit a word.
-/

namespace ModelCounting

namespace Luby

/-- The equations of the sequence, from place 1 on. -/
structure Recurs (t : Nat → Nat) : Prop where
  /-- A complete block ends with half of the power of two that comes after it. -/
  complete : ∀ k, 0 < k → t (2 ^ k - 1) = 2 ^ (k - 1)
  /-- Before its end, the second half of a block repeats the first. -/
  inner : ∀ k i, 2 ^ (k - 1) ≤ i → i < 2 ^ k - 1 → t i = t (i - 2 ^ (k - 1) + 1)

/-! The equations have a solution. -/

/-- The sequence, by the number of bits of the place. -/
def sequence (i : Nat) : Nat :=
  if i + 1 = 2 ^ i.size then 2 ^ (i.size - 1) else sequence (i - 2 ^ (i.size - 1) + 1)
termination_by i
decreasing_by
  rename_i inner
  match i with
  | 0 | 1 => exact absurd (by decide) inner
  | i + 2 =>
    have long : 2 ≤ (i + 2).size := Nat.lt_size.mpr (by omega)
    have : 2 ^ 1 ≤ 2 ^ ((i + 2).size - 1) := Nat.pow_le_pow_right (by decide) (by omega)
    omega

theorem size_eq {i k : Nat} (low : 2 ^ (k - 1) ≤ i) (high : i < 2 ^ k) : i.size = k := by
  have := Nat.lt_size.mpr low
  have := Nat.size_le.mpr high
  omega

theorem sequence_recurs : Recurs sequence where
  complete k positive := by
    obtain ⟨k, rfl⟩ := Nat.exists_eq_add_of_lt positive
    have := Nat.two_pow_pos (0 + k)
    have size : (2 ^ (0 + k + 1) - 1).size = 0 + k + 1 :=
      size_eq (by rw [Nat.pow_succ, Nat.add_sub_cancel]; omega) (by rw [Nat.pow_succ]; omega)
    rw [sequence, size, if_pos (by rw [Nat.pow_succ]; omega)]
  inner k i low high := by
    rw [sequence, size_eq low (by omega), if_neg (by omega)]

/-! The search. -/

theorem grow_delivers {x size exponent : Nat} (small : x + 1 < wordLimit) (word : size < wordLimit)
    (complete : size + 1 = 2 ^ (exponent + 1)) :
    Delivers (grow x size exponent) fun r =>
      r.1 + 1 = 2 ^ (r.2 + 1) ∧ x < r.1 ∧ r.1 < wordLimit := by
  fun_induction grow x size exponent with
  | case1 size exponent before fits ih => exact ih fits (by rw [Nat.pow_succ]; omega)
  | case2 size exponent before large =>
    -- A complete block that fits a word and is not the largest one can be doubled.
    have below : 2 ^ (exponent + 1) < 2 ^ 64 := by
      unfold wordLimit at small
      omega
    have : exponent + 1 < 64 := (Nat.pow_lt_pow_iff_right (by decide)).mp below
    have : 2 ^ (exponent + 1) ≤ 2 ^ 63 := Nat.pow_le_pow_right (by decide) (by omega)
    unfold wordLimit at large
    omega
  | case3 size exponent reached => exact .ok ⟨complete, by omega, word⟩

theorem Recurs.mod_eq {t : Nat → Nat} (recurs : Recurs t) {x half k : Nat}
    (complete : half + 1 = 2 ^ k) (inside : x < 2 * half) : t (x % half + 1) = t (x + 1) := by
  by_cases first : x < half
  · rw [Nat.mod_eq_of_lt first]
  · have place : x + 1 - 2 ^ k = x % half := by
      rw [Nat.mod_eq_sub_mod (by omega), Nat.mod_eq_of_lt (by omega)]
      omega
    have second := recurs.inner (k + 1) (x + 1) (by rw [Nat.add_sub_cancel]; omega)
      (by rw [Nat.pow_succ]; omega)
    rw [second, Nat.add_sub_cancel, place]

theorem shrink_delivers {x size exponent : Nat} (complete : size + 1 = 2 ^ (exponent + 1))
    (inside : x < size) :
    Delivers (shrink x size exponent) fun e =>
      e ≤ exponent ∧ ∀ t, Recurs t → 2 ^ e = t (x + 1) := by
  fun_induction shrink x size exponent with
  | case1 => exact absurd inside (Nat.not_lt_zero _)
  | case2 size exponent =>
    refine .ok ⟨Nat.le_refl _, fun t recurs => ?_⟩
    have last := recurs.complete (exponent + 1) (Nat.succ_pos _)
    rw [← complete, Nat.add_sub_cancel, Nat.add_sub_cancel] at last
    rw [← last, Nat.sub_add_cancel (by omega)]
  | case3 x size exponent _ other half none =>
    cases exponent with
    | zero => omega
    | succ exponent =>
      have := Nat.two_pow_pos exponent
      rw [Nat.pow_succ, Nat.pow_succ] at complete
      omega
  | case4 x size exponent _ other half some ih =>
    obtain ⟨exponent, rfl⟩ := Nat.exists_eq_succ_of_ne_zero (show exponent ≠ 0 by omega)
    rw [Nat.pow_succ] at complete
    rw [Nat.succ_sub_one] at ih
    have halved : half + 1 = 2 ^ (exponent + 1) := by omega
    refine (ih halved (Nat.mod_lt x (by omega))).mono fun e ⟨le, value⟩ => ⟨by omega, ?_⟩
    exact fun t recurs => (value t recurs).trans (recurs.mod_eq halved (by omega))

theorem exponent_delivers {x : Nat} (small : x + 1 < wordLimit) :
    Delivers (exponent x) fun e => e < 64 ∧ ∀ t, Recurs t → 2 ^ e = t (x + 1) := by
  unfold exponent
  rw [if_pos small]
  refine (grow_delivers small (by decide) (by decide)).bind fun r _ ⟨complete, inside, word⟩ => ?_
  have below : r.2 + 1 ≤ 64 := by
    rw [← Nat.pow_le_pow_iff_right (a := 2) (by decide), ← complete]
    exact word
  exact (shrink_delivers complete inside).mono fun e ⟨le, value⟩ => ⟨by omega, value⟩

theorem limit_delivers {growth : Float} {first x : Nat} (small : x + 1 < wordLimit) :
    Delivers (limit growth first x) fun _ => True :=
  (exponent_delivers small).bind fun _ _ _ => .pure trivial

/-- The equations of the restart sequence can be met, and at every place whose number fits a word the
search has an answer: an exponent for which the power of two is the value that they give. -/
theorem exponent_sequence {x : Nat} (small : x + 1 < wordLimit) :
    Recurs sequence ∧
      Delivers (exponent x) fun e => e < 64 ∧ ∀ t, Recurs t → 2 ^ e = t (x + 1) :=
  ⟨sequence_recurs, exponent_delivers small⟩

/-- The last place that fits a word ends the largest block. -/
theorem exponent_sequence_last : exponent (wordLimit - 2) = .ok 63 := by
  obtain ⟨recurs, e, run, _, value⟩ := exponent_sequence (x := wordLimit - 2) (by decide)
  have last : 2 ^ e = 2 ^ 63 := (value sequence recurs).trans (recurs.complete 64 (by decide))
  rw [run, (Nat.pow_right_inj (by decide)).mp last]

end Luby

end ModelCounting
