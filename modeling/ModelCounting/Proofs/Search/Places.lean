import ModelCounting.Proofs.Search.Queue

/-!
The places of a queue. Its heap and its table of places are inverse to each other, whatever is asked
of it and whatever the ranks are. So no variable is in the heap twice, and a queue holds what was
inserted and not popped since: of each variable, one copy for the insertions that have no pop yet.
-/

namespace ModelCounting

namespace VarQueue

variable {q q' : VarQueue} {v w : Var} {i j : Nat} {place : Option Nat}

def Listed (q : VarQueue) : Prop := ∀ v i, q.heap[i]? = some v → q.place? v = some i

def Indexed (q : VarQueue) : Prop := ∀ v i, q.place? v = some i ↔ q.heap[i]? = some v

theorem Indexed.placed (indexed : q.Indexed) : q.Placed := fun v i => (indexed v i).mp

theorem Indexed.listed (indexed : q.Indexed) : q.Listed := fun v i => (indexed v i).mpr

theorem Listed.indexed (listed : q.Listed) (placed : q.Placed) : q.Indexed :=
  fun v i => ⟨placed v i, listed v i⟩

theorem indexed_empty : Indexed {} := fun v i => by simp [place?]

/-! One entry of the table. -/

theorem place_of_ne (other : w ≠ v) : (q.setPlace v place).place? w = q.place? w := by
  have apart : v.id ≠ w.id := fun same => other (by cases v; cases w; simp_all)
  simp only [place?, setPlace]
  rw [Array.getElem?_setIfInBounds_ne apart]

theorem place_self (room : v.id < q.places.size) : (q.setPlace v place).place? v = place := by
  simp [place?, setPlace, room]

theorem lt_places (noted : q.place? v = some i) : v.id < q.places.size := by
  by_contra beyond
  simp [place?, Array.getElem?_eq_none (Nat.le_of_not_lt beyond)] at noted

theorem Listed.inj (listed : q.Listed) (here : q.heap[i]? = some v) (there : q.heap[j]? = some v) :
    i = j := Option.some.inj ((listed v i here).symm.trans (listed v j there))

theorem Listed.nodup (listed : q.Listed) : q.heap.toList.Nodup := by
  apply List.pairwise_iff_getElem.mpr
  intro i j hi hj less same
  refine Nat.ne_of_lt less (listed.inj (v := q.heap.toList[i]) ?_ ?_)
  · rw [← Array.getElem?_toList, List.getElem?_eq_getElem hi]
  · rw [same, ← Array.getElem?_toList, List.getElem?_eq_getElem hj]

theorem Indexed.contains_iff (indexed : q.Indexed) : q.contains v = true ↔ v ∈ q.heap := by
  rw [contains, Option.isSome_iff_exists, Array.mem_iff_getElem?]
  exact exists_congr fun i => indexed v i

/-! Exchanging two slots. -/

theorem Listed.swap (listed : q.Listed) (inside : i < q.size) (inside' : j < q.size) :
    (q.swap i j).Listed := by
  intro w k found
  have size : (q.swap i j).size = q.size := size_swap q i j
  have first := slot_eq (q := q.swap i j) (size.symm ▸ inside)
  have second := slot_eq (q := q.swap i j) (size.symm ▸ inside')
  have old {k : Nat} {w : Var} (found : (q.swap i j).heap[k]? = some w) :
      w.id < q.places.size := by
    rw [heap_swap inside inside'] at found
    exact lt_places (listed w _ found)
  have alone {k k' : Nat} {w : Var} (here : (q.swap i j).heap[k]? = some w)
      (there : (q.swap i j).heap[k']? = some w) : k = k' := by
    rw [heap_swap inside inside'] at here there
    have same := listed.inj here there
    grind
  have shape : q.swap i j = ({ q with heap := q.heap.swapIfInBounds i j }.setPlace
      ((q.swap i j).slot i) (some i)).setPlace ((q.swap i j).slot j) (some j) := rfl
  rw [shape]
  generalize (q.swap i j).slot i = a at first ⊢
  generalize (q.swap i j).slot j = b at second ⊢
  -- The place of the second slot is noted last.
  by_cases last : w = b
  · subst last
    rw [alone found second]
    exact place_self (by simpa [setPlace] using old second)
  rw [place_of_ne last]
  by_cases middle : w = a
  · subst middle
    rw [alone found first]
    exact place_self (old first)
  rw [place_of_ne middle]
  have other : k ≠ i ∧ k ≠ j := by
    constructor
    · rintro rfl
      exact middle (Option.some.inj (found.symm.trans first))
    · rintro rfl
      exact last (Option.some.inj (found.symm.trans second))
  rw [heap_swap inside inside', if_neg other.1, if_neg other.2] at found
  exact listed w k found

/-! The queue without its top. -/

def dropTop (q : VarQueue) : VarQueue :=
  let rest := { q with heap := (q.heap.swapIfInBounds 0 (q.size - 1)).pop }.setPlace (q.slot 0) none
  if rest.isEmpty then rest else rest.setPlace (rest.slot 0) (some 0)

theorem dropTop_heap (q : VarQueue) : q.dropTop.heap = (q.heap.swapIfInBounds 0 (q.size - 1)).pop := by
  unfold dropTop
  dsimp only
  split <;> rfl

@[simp] theorem size_dropTop (q : VarQueue) : q.dropTop.size = q.size - 1 := by
  rw [size, dropTop_heap, Array.size_pop, Array.size_swapIfInBounds]
  rfl

theorem heap_dropTop (filled : 0 < q.size) (k : Nat) : q.dropTop.heap[k]? =
    if k + 1 < q.size then q.heap[if k = 0 then q.size - 1 else k]? else none := by
  rw [dropTop_heap, heap_pop filled]

theorem slot_dropTop (low : 0 < i) (inside : i < q.dropTop.size) : q.dropTop.slot i = q.slot i := by
  have found := heap_dropTop (q := q) (by simp at inside; omega) i
  rw [if_pos (by simp at inside; omega), if_neg (by omega), slot_eq inside,
    slot_eq (by simp at inside; omega)] at found
  exact Option.some.inj found

theorem mem_of_dropTop (filled : 0 < q.size) (member : v ∈ q.dropTop.heap) : v ∈ q.heap := by
  obtain ⟨k, found⟩ := Array.mem_iff_getElem?.mp member
  rw [heap_dropTop filled] at found
  split at found
  · exact Array.mem_of_getElem? found
  · cases found

theorem Listed.not_mem_dropTop (listed : q.Listed) (filled : 0 < q.size) :
    q.slot 0 ∉ q.dropTop.heap := by
  intro member
  obtain ⟨k, found⟩ := Array.mem_iff_getElem?.mp member
  rw [heap_dropTop filled] at found
  split at found
  · have := listed.inj found (slot_eq filled)
    split at this <;> omega
  · cases found

theorem Listed.dropTop (listed : q.Listed) (filled : 0 < q.size) : q.dropTop.Listed := by
  intro w k found
  have top := slot_eq filled
  have away : w ≠ q.slot 0 := by
    rintro rfl
    exact listed.not_mem_dropTop filled (Array.mem_of_getElem? found)
  have shape := heap_dropTop filled
  unfold VarQueue.dropTop at found shape ⊢
  dsimp only at found shape ⊢
  generalize removed : VarQueue.setPlace _ (q.slot 0) none = rest at found shape ⊢
  have room : rest.places.size = q.places.size := by rw [← removed]; simp [setPlace]
  have kept : rest.place? w = q.place? w := by
    rw [← removed]
    exact place_of_ne away
  split at found
  · rename_i empty
    rw [Array.isEmpty_iff.mp empty] at found
    simp at found
  · rename_i some
    rw [if_neg some] at shape ⊢
    have front : rest.heap[0]? = Option.some (rest.slot 0) := slot_eq (Nat.pos_of_ne_zero fun none =>
      some (Array.isEmpty_iff_size_eq_zero.mpr none))
    generalize rest.slot 0 = first at front shape found ⊢
    change rest.heap[k]? = _ at found
    change ∀ k, rest.heap[k]? = _ at shape
    rw [shape] at found front
    by_cases same : w = first
    · subst same
      have here : k = 0 := by
        split at found
        · split at front
          · have := listed.inj found front
            grind
          · cases front
        · cases found
      rw [here]
      split at front
      · exact place_self (room ▸ lt_places (listed w _ front))
      · cases front
    · rw [place_of_ne same, kept]
      split at found
      · rename_i inside
        by_cases here : k = 0
        · subst here
          rw [if_pos inside] at front
          exact absurd (Option.some.inj (found.symm.trans front)) same
        · rw [if_neg here] at found
          exact listed w k found
      · cases found

section Ranked

variable {α : Type} {ranks : Array α} {top : Option Var}

theorem siftDown_empty [LT α] [DecidableLT α] (empty : q.size = 0) : q.siftDown ranks i = .ok q := by
  have none (a b : Nat) : q.higher ranks a b = .ok a := by
    unfold higher
    rw [if_neg (by omega)]
  rw [siftDown, none]
  simp only [bind, Except.bind, none, Nat.lt_irrefl, false_and, dite_false]

/-- Popping from a queue that is not empty answers its top, and moves the variable that takes its place
down. -/
theorem pop_ok [LT α] [DecidableLT α] (filled : 0 < q.size) (run : q.pop ranks = .ok (top, q')) :
    top = some (q.slot 0) ∧ q.dropTop.siftDown ranks 0 = .ok q' := by
  have some : ¬ q.isEmpty = true := fun empty =>
    Nat.ne_of_gt filled (Array.isEmpty_iff_size_eq_zero.mp empty)
  unfold pop at run
  rw [if_neg some] at run
  unfold dropTop
  dsimp only at run ⊢
  generalize VarQueue.setPlace _ (q.slot 0) none = rest at run ⊢
  split at run
  · rename_i empty
    cases run
    rw [if_pos empty]
    exact ⟨rfl, siftDown_empty (Array.isEmpty_iff_size_eq_zero.mp empty)⟩
  · rename_i filled'
    rw [if_neg filled']
    split at run
    · rename_i sunk
      cases run
      exact ⟨rfl, sunk⟩
    · cases run

/-! What the operations keep. -/

theorem siftUp_listed [LE α] [DecidableLE α] (listed : q.Listed) (inside : i < q.size)
    (run : q.siftUp ranks i = .ok q') : q'.Listed :=
  siftUp_keeps (fun _ _ _ hi hj listed => Listed.swap listed hi hj) listed inside run

theorem siftDown_listed [LT α] [DecidableLT α] (listed : q.Listed)
    (run : q.siftDown ranks i = .ok q') : q'.Listed :=
  siftDown_keeps (fun _ _ _ hi hj listed => Listed.swap listed hi hj) listed run

theorem Indexed.bump [LE α] [DecidableLE α] (indexed : q.Indexed) (run : q.bump ranks v = .ok q') :
    q'.Indexed ∧ ∀ w, w ∈ q'.heap ↔ w ∈ q.heap := by
  obtain ⟨placed, members⟩ := bump_moved indexed.placed run
  refine ⟨Listed.indexed ?_ placed, members⟩
  unfold VarQueue.bump at run
  split at run
  · rename_i i found
    exact siftUp_listed indexed.listed (Array.getElem?_eq_some_iff.mp ((indexed v i).mp found)).1 run
  · cases run
    exact indexed.listed

/-- An insertion either finds the variable there, or puts it into the last slot and moves it up. -/
theorem insert_ok [LE α] [DecidableLE α] (run : q.insert ranks v = .ok q') :
    ∃ r : VarQueue, r.heap = q.heap ∧ (∀ w, r.place? w = q.place? w) ∧ v.id < r.places.size ∧
      ((q.contains v = true ∧ q' = r) ∨ (q.contains v = false ∧
        ({ r with heap := r.heap.push v }.setPlace v (some q.size)).siftUp ranks q.size = .ok q')) := by
  simp only [insert] at run
  generalize wider : Array.replicate (v.id + 1 - q.places.size) none = blank at run
  have places (w : Var) : { q with places := q.places ++ blank }.place? w = q.place? w :=
    wider ▸ place_extend _
  have known : { q with places := q.places ++ blank }.contains v = q.contains v :=
    congrArg Option.isSome (places v)
  have room : v.id < (q.places ++ blank).size := by
    rw [← wider, Array.size_append, Array.size_replicate]
    omega
  refine ⟨{ q with places := q.places ++ blank }, rfl, places, room, ?_⟩
  rw [known] at run
  split at run
  · rename_i there
    cases run
    exact .inl ⟨there, rfl⟩
  · rename_i absent
    exact .inr ⟨Bool.eq_false_iff.mpr absent, run⟩

theorem Indexed.insert [LE α] [DecidableLE α] (indexed : q.Indexed)
    (run : q.insert ranks v = .ok q') : q'.Indexed ∧ ∀ w, w ∈ q'.heap ↔ w = v ∨ w ∈ q.heap := by
  obtain ⟨placed, members⟩ := insert_placed indexed.placed run
  refine ⟨Listed.indexed ?_ placed, members⟩
  obtain ⟨r, heap, places, room, ⟨_, rfl⟩ | ⟨absent, sifted⟩⟩ := insert_ok run
  · intro w i found
    rw [places]
    exact indexed.listed w i (heap ▸ found)
  · refine siftUp_listed (fun w i found => ?_) (by simp [setPlace, size, heap]) sifted
    have new : v ∉ q.heap := fun member => by
      rw [indexed.contains_iff.mpr member] at absent
      cases absent
    change (r.heap.push v)[i]? = some w at found
    rw [heap, Array.getElem?_push] at found
    split at found
    · rename_i last
      cases found
      rw [last]
      exact place_self room
    · have other : w ≠ v := by
        rintro rfl
        exact new (Array.mem_of_getElem? found)
      rw [place_of_ne other]
      exact (places w).trans (indexed.listed w i found)

theorem Indexed.pop [LT α] [DecidableLT α] (indexed : q.Indexed)
    (run : q.pop ranks = .ok (top, q')) : q'.Indexed ∧ (top = none → q.heap = #[]) ∧
      (∀ v, top = some v → v ∈ q.heap) ∧ ∀ w, w ∈ q'.heap ↔ w ∈ q.heap ∧ top ≠ some w := by
  obtain ⟨placed, kept, known, out⟩ := pop_placed indexed.placed run
  rcases Nat.eq_zero_or_pos q.size with empty | filled
  · have none : q.heap = #[] := Array.size_eq_zero_iff.mp empty
    have same : top = .none ∧ q' = q := by
      unfold VarQueue.pop at run
      rw [if_pos (show q.isEmpty = true by simp [isEmpty, none])] at run
      cases run
      exact ⟨rfl, rfl⟩
    obtain ⟨rfl, rfl⟩ := same
    exact ⟨indexed, fun _ => none, fun v same => absurd same.symm (Option.some_ne_none v), fun w => by simp⟩
  · obtain ⟨rfl, sunk⟩ := pop_ok filled run
    have gone : q.slot 0 ∉ q'.heap :=
      siftDown_keeps (P := fun r => q.slot 0 ∉ r.heap)
        (fun r i j hi hj absent member => absent ((mem_swap hi hj).mp member))
        (indexed.listed.not_mem_dropTop filled) sunk
    refine ⟨(siftDown_listed (indexed.listed.dropTop filled) sunk).indexed placed,
      fun same => absurd same (Option.some_ne_none _), out, fun w => ?_⟩
    constructor
    · intro member
      refine ⟨known w member, ?_⟩
      rintro ⟨⟩
      exact gone member
    · rintro ⟨member, other⟩
      exact ((kept w member).resolve_left other).2

end Ranked

end VarQueue

end ModelCounting
