import Mathlib.Data.List.TakeWhile
import Mathlib.Order.Basic
import ModelCounting.Compilation.SubproblemCache

/-!
Index sets as sets of naturals. Every operation is described by the members of its result. The order
depends on the members only and is lawful, so that a cache keyed by sets is a finite map.
-/

namespace ModelCounting

namespace IndexSet

/-! Bits of a word. -/

theorem hasBit_eq {w : UInt64} {i : Nat} (small : i < wordBits) :
    hasBit w i = w.toNat.testBit i := by
  have below : i < 64 := small
  have word : i % 2 ^ 64 % 64 = i := by
    rw [Nat.mod_eq_of_lt (Nat.lt_trans below (by decide)), Nat.mod_eq_of_lt below]
  rw [Bool.eq_iff_iff, hasBit, beq_iff_eq, ← UInt64.toNat_inj, UInt64.toNat_and,
    UInt64.toNat_shiftRight, UInt64.toNat_ofNat', word, Nat.testBit_eq_decide_div_mod_eq]
  simp [Nat.shiftRight_eq_div_pow]

theorem hasBit_zero {i : Nat} (small : i < wordBits) : hasBit 0 i = false := by
  simp [hasBit_eq small]

theorem hasBit_or {x y : UInt64} {i : Nat} (small : i < wordBits) :
    hasBit (x ||| y) i = (hasBit x i || hasBit y i) := by
  simp [hasBit_eq small]

theorem hasBit_and {x y : UInt64} {i : Nat} (small : i < wordBits) :
    hasBit (x &&& y) i = (hasBit x i && hasBit y i) := by
  simp [hasBit_eq small]

theorem hasBit_bit {i j : Nat} (small : i < wordBits) :
    hasBit (bit j) i = decide (j % wordBits = i) := by
  have below : j % 64 < 64 := Nat.mod_lt j (by decide)
  have word : j % 64 % 2 ^ 64 % 64 = j % 64 := by
    rw [Nat.mod_eq_of_lt (Nat.lt_trans below (by decide)), Nat.mod_eq_of_lt below]
  have fits : 2 ^ (j % 64) < 2 ^ 64 := Nat.pow_lt_pow_right (by decide) below
  rw [hasBit_eq small, bit, UInt64.toNat_shiftLeft, wordBits, UInt64.toNat_ofNat', word]
  simp only [UInt64.toNat_one, Nat.shiftLeft_eq, Nat.one_mul]
  rw [Nat.mod_eq_of_lt fits, Nat.testBit_two_pow]

theorem wordBits_pos : 0 < wordBits := by decide

theorem mod_lt (i : Nat) : i % wordBits < wordBits := Nat.mod_lt i wordBits_pos

theorem word_ext {x y : UInt64} (same : ∀ i < wordBits, hasBit x i = hasBit y i) : x = y := by
  rw [← UInt64.toNat_inj]
  apply Nat.eq_of_testBit_eq
  intro i
  by_cases small : i < wordBits
  · rw [← hasBit_eq small, ← hasBit_eq small, same i small]
  · have beyond (w : UInt64) : w.toNat < 2 ^ i :=
      Nat.lt_of_lt_of_le w.toNat_lt (Nat.pow_le_pow_right (by decide) (Nat.le_of_not_lt small))
    rw [Nat.testBit_lt_two_pow (beyond x), Nat.testBit_lt_two_pow (beyond y)]

theorem eq_zero_iff {w : UInt64} : w = 0 ↔ ∀ i < wordBits, hasBit w i = false := by
  constructor
  · rintro rfl i small
    exact hasBit_zero small
  · intro none
    exact word_ext fun i small => by rw [none i small, hasBit_zero small]

/-! Members. -/

variable {s t : IndexSet} {i j : Nat}

theorem contains_eq (s : IndexSet) (i : Nat) :
    s.contains i = hasBit (s.words.getD (i / wordBits) 0) (i % wordBits) := rfl

theorem index_eq (same : i / wordBits = j / wordBits) (rest : i % wordBits = j % wordBits) :
    i = j := by
  rw [← Nat.div_add_mod i wordBits, ← Nat.div_add_mod j wordBits, same, rest]

@[simp] theorem contains_empty (i : Nat) : empty.contains i = false := by
  rw [contains_eq]
  simpa [empty] using hasBit_zero (mod_lt i)

theorem contains_lt_capacity (member : s.contains i = true) : i < s.capacity := by
  by_contra beyond
  have outside : ¬ i / wordBits < s.words.size := by
    intro inside
    apply beyond
    rw [capacity]
    have := Nat.div_add_mod i wordBits
    have := mod_lt i
    calc i = wordBits * (i / wordBits) + i % wordBits := by omega
      _ < wordBits * (i / wordBits) + wordBits := by omega
      _ = (i / wordBits + 1) * wordBits := by rw [Nat.mul_comm, Nat.succ_mul]
      _ ≤ s.words.size * wordBits := Nat.mul_le_mul_right _ inside
  rw [contains_eq, Array.getD_eq_getD_getElem?] at member
  simp [outside, hasBit_zero (mod_lt i)] at member

/-! Walks over the members. -/

def Walk.Has (w : Walk) (i : Nat) : Prop :=
  i / wordBits = w.index ∧ hasBit w.word (i % wordBits) = true ∨
    w.index < i / wordBits ∧
      hasBit (w.rest.getD (i / wordBits - w.index - 1) 0) (i % wordBits) = true

theorem div_index {k b : Nat} (small : b < wordBits) : (k * wordBits + b) / wordBits = k := by
  rw [Nat.mul_comm, Nat.mul_add_div wordBits_pos, Nat.div_eq_of_lt small, Nat.add_zero]

theorem mod_index {k b : Nat} (small : b < wordBits) : (k * wordBits + b) % wordBits = b := by
  rw [Nat.mul_comm, Nat.mul_add_mod, Nat.mod_eq_of_lt small]

theorem le_index {k b : Nat} (le : k ≤ i / wordBits) (rest : k = i / wordBits → b ≤ i % wordBits)
    (small : b < wordBits) : k * wordBits + b ≤ i := by
  have whole := Nat.div_add_mod i wordBits
  rcases Nat.eq_or_lt_of_le le with same | less
  · have := rest same
    rw [Nat.mul_comm, same]
    omega
  · have : (k + 1) * wordBits ≤ i / wordBits * wordBits := Nat.mul_le_mul_right _ less
    rw [Nat.add_one_mul] at this
    rw [Nat.mul_comm wordBits] at whole
    omega

theorem trailingZeros_lt {w : UInt64} (some : w ≠ 0) : trailingZeros w < wordBits := by
  have : w.toBitVec ≠ 0#64 := fun zero => some (UInt64.toBitVec_inj.mp zero)
  exact BitVec.lt_def.mp (BitVec.ctz_lt_iff_ne_zero.mpr this)

theorem hasBit_trailingZeros {w : UInt64} (some : w ≠ 0) : hasBit w (trailingZeros w) = true := by
  have : w.toBitVec ≠ 0#64 := fun zero => some (UInt64.toBitVec_inj.mp zero)
  rw [hasBit_eq (trailingZeros_lt some)]
  exact BitVec.getLsbD_true_ctz_of_ne_zero this

theorem trailingZeros_le {w : UInt64} {b : Nat} (small : b < wordBits)
    (set : hasBit w b = true) : trailingZeros w ≤ b := by
  by_contra less
  rw [hasBit_eq small] at set
  have := BitVec.getLsbD_false_of_lt_ctz (x := w.toBitVec) (Nat.lt_of_not_le less)
  exact absurd (set.symm.trans this) (by decide)

/-- The word less one has the bits above the lowest one and, of the others, all below it. -/
theorem testBit_pred {n t b : Nat} (lowest : n.testBit t = true)
    (below : ∀ i < t, n.testBit i = false) :
    (n &&& (n - 1)).testBit b = (n.testBit b && decide (b ≠ t)) := by
  have shape : n = 2 ^ (t + 1) * (n / 2 ^ (t + 1)) + 2 ^ t := by
    have low : n % 2 ^ (t + 1) = 2 ^ t := by
      apply Nat.eq_of_testBit_eq
      intro i
      rw [Nat.testBit_mod_two_pow, Nat.testBit_two_pow]
      rcases Nat.lt_trichotomy i t with less | rfl | more
      · simp [below i less, Nat.ne_of_gt less]
      · simp [lowest]
      · simp [Nat.ne_of_lt more, Nat.not_lt.mpr (Nat.succ_le_of_lt more)]
    calc n = 2 ^ (t + 1) * (n / 2 ^ (t + 1)) + n % 2 ^ (t + 1) := (Nat.div_add_mod _ _).symm
      _ = _ := by rw [low]
  have less : n - 1 = 2 ^ (t + 1) * (n / 2 ^ (t + 1)) + (2 ^ t - 1) := by
    have := Nat.two_pow_pos t
    omega
  have small : 2 ^ t - 1 < 2 ^ (t + 1) := by
    have := Nat.two_pow_pos t
    rw [Nat.pow_succ]
    omega
  rw [Nat.testBit_and, less, Nat.testBit_two_pow_mul_add _ small, Nat.testBit_two_pow_sub_one]
  rcases Nat.lt_trichotomy b t with before | rfl | after
  · simp [below b before]
  · simp
  · have high : ¬ b < t + 1 := by omega
    have differ : b ≠ t := by omega
    rw [Nat.testBit_div_two_pow, if_neg high]
    simp [differ, Nat.sub_add_cancel (Nat.le_of_not_lt high)]

theorem hasBit_pred {w : UInt64} {b : Nat} (small : b < wordBits) (some : w ≠ 0) :
    hasBit (w &&& (w - 1)) b = (hasBit w b && decide (b ≠ trailingZeros w)) := by
  have low := trailingZeros_lt some
  have one : (1 : UInt64) ≤ w := by
    rw [UInt64.le_iff_toNat_le]
    exact Nat.pos_of_ne_zero fun zero => some (UInt64.toNat_inj.mp zero)
  rw [hasBit_eq small, hasBit_eq small, UInt64.toNat_and, UInt64.toNat_sub_of_le _ _ one]
  refine testBit_pred ?_ fun i less => ?_
  · rw [← hasBit_eq low]
    exact hasBit_trailingZeros some
  · rw [← hasBit_eq (Nat.lt_trans less low), ← Bool.not_eq_true]
    exact fun set => Nat.not_lt.mpr (trailingZeros_le (Nat.lt_trans less low) set) less

namespace Walk

theorem not_has_nil {index : Nat} (i : Nat) : ¬ Has ⟨index, 0, []⟩ i := by
  simp [Has, hasBit_zero (mod_lt i)]

theorem has_skip {index : Nat} {word : UInt64} {rest : List UInt64} :
    Has ⟨index, 0, word :: rest⟩ i ↔ Has ⟨index + 1, word, rest⟩ i := by
  simp only [Has, hasBit_zero (mod_lt i), Bool.false_eq_true, and_false, false_or]
  rcases Nat.lt_trichotomy (i / wordBits) (index + 1) with before | same | after
  · have : ¬ index < i / wordBits := by omega
    simp [this, Nat.ne_of_lt before, Nat.lt_asymm before]
  · simp [same]
  · obtain ⟨k, distance⟩ : ∃ k, i / wordBits - index - 1 = k + 1 := ⟨i / wordBits - index - 2, by omega⟩
    have next : i / wordBits - (index + 1) - 1 = k := by omega
    simp [distance, next, Nat.ne_of_gt after, after, Nat.lt_of_succ_lt after]

/-- Clearing the lowest bit takes away one member, the least one. -/
theorem has_clear {index : Nat} {word : UInt64} {rest : List UInt64} (some : word ≠ 0) :
    let least := index * wordBits + trailingZeros word
    ∀ j, (Has ⟨index, word, rest⟩ j ↔ j = least ∨ Has ⟨index, word &&& (word - 1), rest⟩ j) ∧
      (Has ⟨index, word &&& (word - 1), rest⟩ j → least < j) := by
  intro least j
  have low := trailingZeros_lt some
  have whole : least / wordBits = index := div_index low
  have bit : least % wordBits = trailingZeros word := mod_index low
  have first : Has ⟨index, word, rest⟩ least :=
    .inl ⟨whole, by rw [bit]; exact hasBit_trailingZeros some⟩
  have le (member : Has ⟨index, word, rest⟩ j) : least ≤ j := by
    rcases member with ⟨here, set⟩ | ⟨later, -⟩
    · exact le_index (Nat.le_of_eq here.symm) (fun _ => trailingZeros_le (mod_lt j) set) low
    · exact le_index (Nat.le_of_lt later) (fun same => absurd same (Nat.ne_of_lt later)) low
  have cleared : Has ⟨index, word &&& (word - 1), rest⟩ j ↔
      Has ⟨index, word, rest⟩ j ∧ j ≠ least := by
    have differ : j ≠ least ↔ j / wordBits ≠ index ∨ j % wordBits ≠ trailingZeros word := by
      rw [← whole, ← bit, ← not_and_or, not_iff_not]
      exact ⟨fun same => by simp [same], fun ⟨same, rest⟩ => index_eq same rest⟩
    rw [differ]
    simp only [Has, hasBit_pred (mod_lt j) some, Bool.and_eq_true, decide_eq_true_eq]
    constructor
    · rintro (⟨here, set, other⟩ | ⟨later, set⟩)
      · exact ⟨.inl ⟨here, set⟩, .inr other⟩
      · exact ⟨.inr ⟨later, set⟩, .inl (Nat.ne_of_gt later)⟩
    · rintro ⟨⟨here, set⟩ | ⟨later, set⟩, other⟩
      · exact .inl ⟨here, set, other.resolve_left fun away => away here⟩
      · exact .inr ⟨later, set⟩
  rw [cleared]
  refine ⟨⟨fun member => ?_, ?_⟩, fun ⟨member, other⟩ => ?_⟩
  · exact or_iff_not_imp_left.mpr fun other => ⟨member, other⟩
  · rintro (rfl | ⟨member, -⟩)
    · exact first
    · exact member
  · exact Nat.lt_of_le_of_ne (le member) (Ne.symm other)

theorem next?_spec (w : Walk) :
    match w.next? with
    | none => ∀ j, ¬ w.Has j
    | some (i, w') => ∀ j, (w.Has j ↔ j = i ∨ w'.Has j) ∧ (w'.Has j → i < j) := by
  obtain ⟨index, word, rest⟩ := w
  unfold next?
  induction rest generalizing index word with
  | nil =>
    unfold advance
    by_cases zero : word = 0
    · subst zero
      exact not_has_nil
    · simpa [zero] using has_clear zero
  | cons next rest ih =>
    unfold advance
    by_cases zero : word = 0
    · subst zero
      simpa [has_skip] using ih (index + 1) next
    · simpa [zero] using has_clear zero

/-- A walk whose bound leaves room for its members lists them all, in ascending order. -/
theorem members_spec (bound : Nat) {w : Walk} {low : Nat}
    (inside : ∀ i, w.Has i → low ≤ i ∧ i < low + bound) :
    (w.members bound).Pairwise (· < ·) ∧ ∀ i, i ∈ w.members bound ↔ w.Has i := by
  induction bound generalizing w low with
  | zero =>
    have (i : Nat) : ¬ w.Has i := fun member => by have := inside i member; omega
    simpa [members] using this
  | succ bound ih =>
    have spec := w.next?_spec
    unfold members
    split
    · rename_i last
      rw [last] at spec
      simpa using spec
    · rename_i least w' step
      rw [step] at spec
      have room (j : Nat) (member : w'.Has j) : low + 1 ≤ j ∧ j < low + 1 + bound := by
        have := (spec j).2 member
        have := inside j ((spec j).1.mpr (.inr member))
        have := inside least ((spec least).1.mpr (.inl rfl))
        omega
      obtain ⟨ascending, listed⟩ := ih room
      refine ⟨List.pairwise_cons.mpr ⟨fun j member => ?_, ascending⟩, fun j => ?_⟩
      · exact (spec j).2 ((listed j).mp member)
      · rw [List.mem_cons, listed, (spec j).1]

end Walk

theorem walk_has : s.walk.Has i ↔ s.contains i = true := by
  obtain ⟨⟨words⟩⟩ := s
  rw [contains_eq, Array.getD_eq_getD_getElem?, List.getElem?_toArray, ← List.getD_eq_getElem?_getD]
  cases words with
  | nil => simpa [walk, hasBit_zero (mod_lt i)] using Walk.not_has_nil i
  | cons word rest =>
    simp only [walk, Walk.Has, List.headD_cons, List.tail_cons]
    cases h : i / wordBits with
    | zero => simp
    | succ k => simp

theorem toList_spec (s : IndexSet) :
    s.toList.Pairwise (· < ·) ∧ ∀ i, i ∈ s.toList ↔ s.walk.Has i := by
  have inside (i : Nat) (member : s.walk.Has i) : 0 ≤ i ∧ i < 0 + s.capacity := by
    have := contains_lt_capacity (walk_has.mp member)
    omega
  exact Walk.members_spec s.capacity inside

@[simp] theorem mem_toList : i ∈ s.toList ↔ s.contains i = true := by
  rw [(toList_spec s).2, walk_has]

theorem reserve_getD (s : IndexSet) (word k : Nat) :
    (s.reserve word).words.getD k 0 = s.words.getD k 0 := by
  unfold reserve
  split
  · rfl
  · simp only [Array.getD_eq_getD_getElem?, Array.getElem?_append, Array.getElem?_replicate]
    split
    · rfl
    · rename_i beyond
      simp only [beyond, not_false_eq_true, getElem?_neg, Option.getD_none]
      split <;> rfl

theorem lt_reserve (s : IndexSet) (word : Nat) : word < (s.reserve word).words.size := by
  unfold reserve
  split
  · assumption
  · simp only [Array.size_append, Array.size_replicate]
    omega

@[simp] theorem contains_insert : (s.insert j).contains i = (decide (i = j) || s.contains i) := by
  have grown := lt_reserve s (j / wordBits)
  rw [contains_eq, contains_eq, insert, Array.getD_eq_getD_getElem?, Array.getElem?_modify]
  split
  · rename_i same
    rw [same] at grown ⊢
    rw [Array.getElem?_eq_getElem grown]
    have word : (s.reserve (i / wordBits)).words[i / wordBits] = s.words.getD (i / wordBits) 0 := by
      rw [← reserve_getD s (i / wordBits), Array.getD_eq_getD_getElem?,
        Array.getElem?_eq_getElem grown]
      rfl
    simp only [Option.map_some, Option.getD_some, word, hasBit_or (mod_lt i), hasBit_bit (mod_lt i)]
    rw [Bool.or_comm]
    congr 1
    by_cases rest : j % wordBits = i % wordBits
    · simp [index_eq same.symm rest.symm]
    · have : i ≠ j := by
        rintro rfl
        exact rest rfl
      simp [rest, this]
  · rename_i differ
    have : i ≠ j := by
      rintro rfl
      exact differ rfl
    rw [← Array.getD_eq_getD_getElem?, reserve_getD]
    simp [this]

@[simp] theorem contains_insertAll {is : List Nat} :
    (s.insertAll is).contains i = true ↔ i ∈ is ∨ s.contains i = true := by
  unfold insertAll
  induction is generalizing s with
  | nil => simp
  | cons j is ih =>
    rw [List.foldl_cons, ih]
    simp only [contains_insert, Bool.or_eq_true, decide_eq_true_eq, List.mem_cons]
    rw [or_assoc, or_left_comm]

@[simp] theorem contains_ofList {is : List Nat} : (ofList is).contains i = true ↔ i ∈ is := by
  simp [ofList]

@[simp] theorem contains_union : (s.union t).contains i = (s.contains i || t.contains i) := by
  rw [contains_eq, contains_eq, contains_eq, ← hasBit_or (mod_lt i)]
  congr 1
  simp only [union, Array.getD_eq_getD_getElem?, Array.getElem?_ofFn]
  split
  · rfl
  · rename_i beyond
    have left : ¬ i / wordBits < s.words.size := fun h => beyond (Nat.lt_of_lt_of_le h (Nat.le_max_left _ _))
    have right : ¬ i / wordBits < t.words.size := fun h => beyond (Nat.lt_of_lt_of_le h (Nat.le_max_right _ _))
    simp [left, right]

@[simp] theorem contains_inter : (s.inter t).contains i = (s.contains i && t.contains i) := by
  rw [contains_eq, contains_eq, contains_eq, ← hasBit_and (mod_lt i)]
  congr 1
  simp only [inter, Array.getD_eq_getD_getElem?, Array.getElem?_mapIdx]
  cases h : s.words[i / wordBits]? <;> simp

@[simp] theorem contains_clear : s.clear.contains i = false := by
  rw [contains_eq, ← hasBit_zero (mod_lt i)]
  congr 1
  simp only [clear, Array.getD_eq_getD_getElem?, Array.getElem?_map]
  cases h : s.words[i / wordBits]? <;> simp

theorem isEmpty_iff : s.isEmpty = true ↔ ∀ i, s.contains i = false := by
  unfold isEmpty
  rw [Array.all_eq_true]
  constructor
  · intro zero i
    rw [contains_eq, ← hasBit_zero (mod_lt i)]
    congr 1
    rw [Array.getD_eq_getD_getElem?]
    by_cases inside : i / wordBits < s.words.size
    · simpa [inside] using zero _ inside
    · simp [inside]
  · intro none k inside
    rw [beq_iff_eq, eq_zero_iff]
    intro b small
    have := none (wordBits * k + b)
    rw [contains_eq, Nat.mul_add_div wordBits_pos, Nat.div_eq_of_lt small, Nat.mul_add_mod,
      Nat.mod_eq_of_lt small, Nat.add_zero, Array.getD_eq_getD_getElem?] at this
    simpa [inside] using this

/-! The order. -/

def wordList (w : UInt64) : List Bool := (List.range wordBits).map (hasBit w)

/-- What the order looks at: the number of significant words and their bits, lowest first. -/
def rank (s : IndexSet) : Nat × List Bool := (s.significant.length, s.significant.flatMap wordList)

theorem compare_first_difference (p q : Nat → Bool) (is : List Nat) (rest rest' : List Bool) :
    List.compareLex Ord.compare (is.map p ++ rest) (is.map q ++ rest') =
      match is.find? fun i => p i != q i with
      | none => List.compareLex Ord.compare rest rest'
      | some i => if p i then .gt else .lt := by
  induction is with
  | nil => rfl
  | cons i is ih =>
    rw [List.map_cons, List.map_cons, List.cons_append, List.cons_append,
      List.compareLex_cons_cons, ih, List.find?_cons]
    cases hp : p i <;> cases hq : q i <;> simp [hp] <;> rfl

theorem compareWords_eq {xs ys : List UInt64} (same : xs.length = ys.length) :
    compareWords xs ys =
      List.compareLex Ord.compare (xs.flatMap wordList) (ys.flatMap wordList) := by
  induction xs generalizing ys with
  | nil =>
    cases ys with
    | nil => rfl
    | cons y ys => simp at same
  | cons x xs ih =>
    cases ys with
    | nil => simp at same
    | cons y ys =>
      rw [List.flatMap_cons, List.flatMap_cons, wordList, wordList, compare_first_difference,
        ← ih (by simpa using same)]
      rfl

theorem compare_eq (s t : IndexSet) :
    s.compare t = compareLex (compareOn Prod.fst) (compareOn Prod.snd) s.rank t.rank := by
  unfold compare compareLex compareOn rank
  by_cases same : s.significant.length = t.significant.length
  · rw [compareWords_eq same]
    rfl
  · cases h : Ord.compare s.significant.length t.significant.length with
    | eq => exact absurd (Nat.compare_eq_eq.mp h) same
    | lt | gt => rfl

instance : Std.TransCmp IndexSet.compare where
  eq_swap := by
    intro s t
    rw [compare_eq, compare_eq]
    exact Std.OrientedCmp.eq_swap
  isLE_trans := by
    intro s t u first second
    rw [compare_eq] at *
    exact Std.TransCmp.isLE_trans first second

theorem significant_append (s : IndexSet) :
    ∃ zeros, s.words.toList = s.significant ++ zeros ∧ ∀ w ∈ zeros, w = 0 := by
  refine ⟨(s.words.toList.reverse.takeWhile (· == 0)).reverse, ?_, fun w member => ?_⟩
  · rw [significant, ← List.reverse_append, List.takeWhile_append_dropWhile, List.reverse_reverse]
  · have zero := List.mem_takeWhile_imp (List.mem_reverse.mp member)
    simpa using zero

theorem significant_getD (s : IndexSet) (k : Nat) : s.significant.getD k 0 = s.words.getD k 0 := by
  obtain ⟨zeros, whole, zero⟩ := s.significant_append
  rw [Array.getD_eq_getD_getElem?, ← Array.getElem?_toList, whole, List.getD_eq_getElem?_getD,
    List.getElem?_append]
  split
  · rfl
  · rename_i beyond
    rw [List.getElem?_eq_none (Nat.le_of_not_lt beyond)]
    cases h : zeros[k - s.significant.length]? with
    | none => rfl
    | some w => simp [zero w (List.mem_of_getElem? h)]

theorem wordList_inj {x y : UInt64} (same : wordList x = wordList y) : x = y := by
  apply word_ext
  intro i small
  have := congrArg (fun l => l[i]?) same
  simpa [wordList, small] using this

theorem flatMap_wordList_inj {xs ys : List UInt64}
    (same : xs.flatMap wordList = ys.flatMap wordList) : xs = ys := by
  have long (w : UInt64) : (wordList w).length = wordBits := by simp [wordList]
  induction xs generalizing ys with
  | nil =>
    cases ys with
    | nil => rfl
    | cons y ys =>
      have := congrArg List.length same
      simp only [List.flatMap_nil, List.length_nil, List.flatMap_cons, List.length_append, long,
        wordBits] at this
      omega
  | cons x xs ih =>
    cases ys with
    | nil =>
      have := congrArg List.length same
      simp [long, wordBits] at this
    | cons y ys =>
      rw [List.flatMap_cons, List.flatMap_cons] at same
      obtain ⟨first, rest⟩ := List.append_inj same (by rw [long, long])
      rw [wordList_inj first, ih rest]

theorem contains_of_compare (same : s.compare t = .eq) : s.contains i = t.contains i := by
  rw [compare_eq, compareLex_eq_eq] at same
  have bits : s.rank.2 = t.rank.2 := Std.LawfulEqCmp.eq_of_compare same.2
  rw [contains_eq, contains_eq, ← significant_getD, ← significant_getD, flatMap_wordList_inj bits]

end IndexSet

namespace SubproblemCache

variable {c : SubproblemCache} {key key' : IndexSet} {f g : Formula}

theorem find_insert_eq : (c.insert key f).find? key' =
    if key.compare key' = .eq then some f else c.find? key' := Std.TreeMap.getElem?_insert

theorem find_insert (found : (c.insert key f).find? key' = some g) :
    (g = f ∧ ∀ i, key'.contains i = key.contains i) ∨ c.find? key' = some g := by
  rw [find_insert_eq] at found
  split at found
  · rename_i same
    refine .inl ⟨(Option.some.inj found).symm, fun i => ?_⟩
    exact (IndexSet.contains_of_compare same).symm
  · exact .inr found

theorem find_query (c : SubproblemCache) (key key' : IndexSet) :
    (c.query key).1 = c.find? key ∧ (c.query key).2.find? key' = c.find? key' := by
  unfold query
  split
  · rename_i found
    exact ⟨found.symm, rfl⟩
  · rename_i missing
    exact ⟨missing.symm, rfl⟩

end SubproblemCache

end ModelCounting
