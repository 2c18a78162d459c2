import Mathlib.Data.List.DropRight
import Mathlib.Data.Nat.Count
import ModelCounting.Proofs.IndexSet

/-!
Index sets read as finite sets. A set that any history of operations has built shows the members of
the finite set the same history describes, and nothing of the storage it has grown or kept: words
of zeros at the end, left behind by a removal or by room that was asked for, are never seen.
-/

namespace ModelCounting

namespace IndexSet

variable {s t : IndexSet} {i j : Nat}

/-! Bits of the masks. -/

theorem hasBit_not {w : UInt64} (small : i < wordBits) : hasBit (~~~w) i = !hasBit w i := by
  have below : i < 64 := small
  rw [hasBit_eq small, hasBit_eq small, ← UInt64.toNat_toBitVec, UInt64.toBitVec_not]
  change (~~~w.toBitVec).getLsbD i = !w.toBitVec.getLsbD i
  simp [below]

theorem hasBit_mask {b : Nat} (small : i < wordBits) (low : b < wordBits) :
    hasBit (~~~0 <<< b.toUInt64) i = decide (b ≤ i) := by
  have below : i < 64 := small
  have shift : (b.toUInt64.toBitVec % 64).toNat = b := by
    have short : b < 64 := low
    simp only [BitVec.toNat_umod, UInt64.toNat_toBitVec, UInt64.toNat_ofNat']
    change b % 2 ^ 64 % 64 = b
    omega
  rw [hasBit_eq small, ← UInt64.toNat_toBitVec, UInt64.toBitVec_shiftLeft, UInt64.toBitVec_not]
  change (~~~0#64 <<< (b.toUInt64.toBitVec % 64).toNat).getLsbD i = _
  rw [shift, BitVec.getLsbD_shiftLeft, BitVec.getLsbD_not, BitVec.getLsbD_zero]
  by_cases less : i < b
  · simp [less, Nat.not_le.mpr less]
  · have inside : i - b < 64 := by omega
    simp [below, less, inside, Nat.le_of_not_lt less]

@[simp] theorem contains_erase :
    (s.erase j).contains i = (s.contains i && decide (i ≠ j)) := by
  rw [contains_eq, contains_eq, erase, Array.getD_eq_getD_getElem?, Array.getElem?_modify]
  split
  · rename_i same
    have bits : hasBit (~~~bit j) (i % wordBits) = decide (i ≠ j) := by
      rw [hasBit_not (mod_lt i), hasBit_bit (mod_lt i), ← decide_not, decide_eq_decide]
      exact ⟨fun differ equal => differ (equal ▸ rfl),
        fun differ rest => differ (index_eq same.symm rest.symm)⟩
    rw [Array.getD_eq_getD_getElem?]
    cases s.words[i / wordBits]? with
    | none => simp [hasBit_zero (mod_lt i)]
    | some w => simp only [Option.map_some, Option.getD_some, hasBit_and (mod_lt i), bits]
  · rename_i away
    have differ : i ≠ j := by
      rintro rfl
      exact away rfl
    simp [differ]

@[simp] theorem contains_withCapacity {bits : Nat} : (withCapacity bits).contains i = false := by
  rw [contains_eq, ← hasBit_zero (mod_lt i)]
  congr 1
  simp only [withCapacity, Array.getD_eq_getD_getElem?, Array.getElem?_replicate]
  split <;> rfl

/-! The number of members. -/

theorem ones_eq (w : UInt64) : ones w = Nat.count (fun i => hasBit w i = true) wordBits := by
  have bits : ∀ n ≤ wordBits,
      w.toBitVec.cpopNatRec n 0 = Nat.count (fun i => hasBit w i = true) n := by
    intro n
    induction n with
    | zero => simp
    | succ n ih =>
      intro le
      rw [BitVec.cpopNatRec_succ, BitVec.cpopNatRec_add, ih (Nat.le_of_succ_le le), Nat.count_succ,
        hasBit_eq le]
      change _ + (w.toNat.testBit n).toNat = _
      cases w.toNat.testBit n <;> rfl
  rw [ones, BitVec.toNat_cpop]
  exact bits 64 (Nat.le_refl _)

theorem count_congr {p q : Nat → Prop} [DecidablePred p] [DecidablePred q] {n : Nat}
    (same : ∀ i < n, p i ↔ q i) : Nat.count p n = Nat.count q n := by
  rw [Nat.count_eq_card_filter_range, Nat.count_eq_card_filter_range]
  congr 1
  exact Finset.filter_congr fun i member => same i (Finset.mem_range.mp member)

theorem foldl_ones (words : List UInt64) (n : Nat) :
    words.foldl (fun count word => count + ones word) n = n + Nat.count
      (fun i => hasBit (words.getD (i / wordBits) 0) (i % wordBits) = true)
      (words.length * wordBits) := by
  induction words generalizing n with
  | nil => simp
  | cons word words ih =>
    rw [List.foldl_cons, ih, List.length_cons, Nat.add_one_mul, Nat.add_comm (_ * _),
      Nat.count_add, ones_eq, Nat.add_assoc]
    refine congrArg (n + ·) (congrArg₂ (· + ·) ?_ ?_)
    · refine count_congr fun i small => ?_
      rw [Nat.div_eq_of_lt small, Nat.mod_eq_of_lt small, List.getD_cons_zero]
    · refine count_congr fun i _ => ?_
      rw [Nat.add_div_left _ wordBits_pos, Nat.add_mod_left, List.getD_cons_succ]

theorem size_eq (s : IndexSet) :
    s.size = Nat.count (fun i => s.contains i = true) s.capacity := by
  rw [size, ← Array.foldl_toList, foldl_ones, Nat.zero_add, Array.length_toList]
  refine count_congr fun i _ => ?_
  rw [contains_eq, Array.getD_eq_getD_getElem?, List.getD_eq_getElem?_getD, Array.getElem?_toList]

/-! The next member. -/

/-- A walk from the word of a bound, less the bits below the bound, has the members from there on. -/
theorem walk_above {start : Nat} {word : UInt64} {rest : List UInt64}
    (words : s.words.toList.drop (start / wordBits) = word :: rest) :
    Walk.Has ⟨start / wordBits, word &&& (~~~0 <<< (start % wordBits).toUInt64), rest⟩ i ↔
      s.contains i = true ∧ start ≤ i := by
  have here (k : Nat) : s.words.getD (start / wordBits + k) 0 = (word :: rest).getD k 0 := by
    rw [← words, Array.getD_eq_getD_getElem?, List.getD_eq_getElem?_getD, List.getElem?_drop,
      Array.getElem?_toList]
  have wholeStart := Nat.div_add_mod start wordBits
  have wholeIndex := Nat.div_add_mod i wordBits
  simp only [Walk.Has, hasBit_and (mod_lt i), hasBit_mask (mod_lt i) (mod_lt start),
    Bool.and_eq_true, decide_eq_true_eq, contains_eq]
  rcases Nat.lt_trichotomy (i / wordBits) (start / wordBits) with before | same | after
  · have : ¬ start ≤ i := fun le => Nat.not_le.mpr before (Nat.div_le_div_right le)
    simp [this, Nat.ne_of_lt before, Nat.lt_asymm before]
  · have first := here 0
    rw [Nat.add_zero, List.getD_cons_zero] at first
    have le : start % wordBits ≤ i % wordBits ↔ start ≤ i := by
      rw [same] at wholeIndex
      omega
    simp [same, first, le]
  · obtain ⟨k, distance⟩ : ∃ k, i / wordBits = start / wordBits + (k + 1) :=
      ⟨i / wordBits - start / wordBits - 1, by omega⟩
    have later := here (k + 1)
    rw [List.getD_cons_succ, ← distance] at later
    have le : start ≤ i := by
      by_contra less
      exact Nat.not_le.mpr after (Nat.div_le_div_right (Nat.le_of_not_le less))
    have left : i / wordBits - start / wordBits - 1 = k := by omega
    simp only [Nat.ne_of_gt after, false_and, after, true_and, false_or, left, later, le, and_true]

theorem next?_spec (s : IndexSet) (start : Nat) :
    match s.next? start with
    | none => ∀ i, s.contains i = true → i < start
    | some i => s.contains i = true ∧ start ≤ i ∧ ∀ j, s.contains j = true → start ≤ j → i ≤ j := by
  unfold next?
  cases words : s.words.toList.drop (start / wordBits) with
  | nil =>
    intro i member
    have beyond := words
    rw [List.drop_eq_nil_iff, Array.length_toList] at beyond
    calc i < s.capacity := contains_lt_capacity member
      _ ≤ start / wordBits * wordBits := Nat.mul_le_mul_right _ beyond
      _ ≤ start := Nat.div_mul_le_self _ _
  | cons word rest =>
    have has (i : Nat) := walk_above (i := i) words
    simp only
    generalize Walk.mk _ _ rest = w at has ⊢
    have spec := w.next?_spec
    simp only [has] at spec
    cases step : w.next? with
    | none =>
      rw [step] at spec
      exact fun i member => Nat.lt_of_not_le fun le => spec i ⟨member, le⟩
    | some found =>
      obtain ⟨least, left⟩ := found
      rw [step] at spec
      obtain ⟨member, le⟩ := (spec least).1.mpr (.inl rfl)
      refine ⟨member, le, fun j member' le' => ?_⟩
      rcases (spec j).1.mp ⟨member', le'⟩ with rfl | more
      · exact Nat.le_refl _
      · exact Nat.le_of_lt ((spec j).2 more)

/-! Equality. -/

theorem length_le_of_getD {xs ys : List UInt64} (same : ∀ k, xs.getD k 0 = ys.getD k 0)
    (last : ∀ some : xs ≠ [], xs.getLast some ≠ 0) : xs.length ≤ ys.length := by
  by_contra longer
  have filled : xs ≠ [] := List.ne_nil_of_length_pos (by omega)
  have beyond : ys.length ≤ xs.length - 1 := by omega
  apply last filled
  have := same (xs.length - 1)
  rw [List.getD_eq_getElem?_getD, List.getD_eq_getElem?_getD, List.getElem?_eq_none beyond,
    ← List.getLast?_eq_getElem?, List.getLast?_eq_getLast_of_ne_nil filled] at this
  exact this

theorem significant_last (s : IndexSet) (some : s.significant ≠ []) :
    s.significant.getLast some ≠ 0 := by
  have nonzero := List.rdropWhile_last_not (· == 0) s.words.toList some
  exact fun zero => nonzero (beq_iff_eq.mpr zero)

theorem significant_inj : s.significant = t.significant ↔ ∀ i, s.contains i = t.contains i := by
  constructor
  · intro same i
    rw [contains_eq, contains_eq, ← significant_getD, ← significant_getD, same]
  · intro same
    have words (k : Nat) : s.significant.getD k 0 = t.significant.getD k 0 := by
      rw [significant_getD, significant_getD]
      apply word_ext
      intro b small
      have := same (k * wordBits + b)
      rwa [contains_eq, contains_eq, div_index small, mod_index small] at this
    have long := Nat.le_antisymm (length_le_of_getD words s.significant_last)
      (length_le_of_getD (fun k => (words k).symm) t.significant_last)
    refine List.ext_getElem long fun k left right => ?_
    have := words k
    rwa [List.getD_eq_getElem?_getD, List.getD_eq_getElem?_getD, List.getElem?_eq_getElem left,
      List.getElem?_eq_getElem right] at this

/-! Histories. -/

/-- What a history of operations has built and the finite set it describes. A set that is used
twice has been cloned. -/
inductive Denotes : IndexSet → Finset Nat → Prop
  | empty : Denotes empty ∅
  | withCapacity (bits : Nat) : Denotes (withCapacity bits) ∅
  | ofList (is : List Nat) : Denotes (ofList is) is.toFinset
  | insert {s : IndexSet} {S : Finset Nat} (i : Nat) :
    Denotes s S → Denotes (s.insert i) (Insert.insert i S)
  | erase {s : IndexSet} {S : Finset Nat} (i : Nat) : Denotes s S → Denotes (s.erase i) (S.erase i)
  | insertAll {s : IndexSet} {S : Finset Nat} (is : List Nat) :
    Denotes s S → Denotes (s.insertAll is) (S ∪ is.toFinset)
  | union {s t : IndexSet} {S T : Finset Nat} :
    Denotes s S → Denotes t T → Denotes (s.union t) (S ∪ T)
  | inter {s t : IndexSet} {S T : Finset Nat} :
    Denotes s S → Denotes t T → Denotes (s.inter t) (S ∩ T)
  | clear {s : IndexSet} {S : Finset Nat} : Denotes s S → Denotes s.clear ∅

variable {S T : Finset Nat}

/-- Everything an index set shows of itself agrees with a finite set. -/
structure Shows (s : IndexSet) (S : Finset Nat) : Prop where
  member : ∀ i, s.contains i = true ↔ i ∈ S
  size : s.size = S.card
  ascending : s.toList.Pairwise (· < ·)
  listed : ∀ i, i ∈ s.toList ↔ i ∈ S
  next : ∀ start,
    match s.next? start with
    | none => ∀ i ∈ S, i < start
    | some i => i ∈ S ∧ start ≤ i ∧ ∀ j ∈ S, start ≤ j → i ≤ j
  isEmpty : s.isEmpty = true ↔ S = ∅

theorem shows_of_member (member : ∀ i, s.contains i = true ↔ i ∈ S) : Shows s S where
  member := member
  size := by
    rw [size_eq, Nat.count_eq_card_filter_range]
    congr 1
    ext i
    rw [Finset.mem_filter, Finset.mem_range, member i]
    exact ⟨And.right, fun held => ⟨contains_lt_capacity ((member i).mpr held), held⟩⟩
  ascending := (toList_spec s).1
  listed i := by rw [mem_toList, member]
  next start := by
    have spec := next?_spec s start
    simp only [member] at spec
    exact spec
  isEmpty := by
    rw [isEmpty_iff, Finset.eq_empty_iff_forall_notMem]
    exact forall_congr' fun i => by rw [← member, Bool.not_eq_true]

theorem Denotes.member (built : Denotes s S) (i : Nat) : s.contains i = true ↔ i ∈ S := by
  induction built with
  | empty => simp
  | withCapacity bits => simp
  | ofList is => simp
  | insert j _ ih => simp [ih]
  | erase j _ ih => simp [ih, and_comm]
  | insertAll is _ ih => simp [ih, or_comm]
  | union _ _ left right => simp [left, right]
  | inter _ _ left right => simp [left, right]
  | clear => simp

/-- Whatever a history of operations has built shows the finite set that the history describes, and
two of them are equal, and hash the same words, exactly if they have the same members. -/
theorem Denotes.shows (built : Denotes s S) :
    Shows s S ∧ ∀ t T, Denotes t T →
      (s.same t = true ↔ S = T) ∧ (s.significant = t.significant ↔ S = T) := by
  refine ⟨shows_of_member built.member, fun t T other => ?_⟩
  have words : s.significant = t.significant ↔ S = T := by
    rw [significant_inj, Finset.ext_iff]
    refine forall_congr' fun i => ?_
    rw [Bool.eq_iff_iff, built.member, other.member]
  exact ⟨by rw [same, beq_iff_eq, words], words⟩

/-- Both sides of the first word boundary, and a last word that a removal has emptied. -/
theorem shows_word_boundary :
    let s := ((((withCapacity 640).insert 64).insert 63).insert 700).erase 700
    Shows s {63, 64} ∧ s.same (ofList [64, 63]) = true := by
  have built := ((((Denotes.withCapacity 640).insert 64).insert 63).insert 700).erase 700
  have members : Finset.erase (Insert.insert 700 (Insert.insert 63 (Insert.insert 64 ∅))) 700 =
      {63, 64} := by decide
  rw [members] at built
  obtain ⟨shown, equal⟩ := built.shows
  exact ⟨shown, (equal _ _ (.ofList [64, 63])).1.mpr (by decide)⟩

end IndexSet

end ModelCounting
