import ModelCounting.Proofs.Answer
import ModelCounting.Search.Branching

/-!
The queue of variables. A place that the queue notes for a variable is where its heap holds the
variable, and no operation loses one: bumping moves variables about, inserting adds one, and
popping takes out the variable it answers. So a search that finds no unassigned variable in its
queue has assigned all of them.
-/

namespace ModelCounting

namespace VarQueue

variable {q q' : VarQueue} {v w : Var} {i j : Nat}

/-- Every place that is noted is right. -/
def Placed (q : VarQueue) : Prop := ∀ v i, q.place? v = some i → q.heap[i]? = some v

def Moved (q q' : VarQueue) : Prop := q'.Placed ∧ ∀ v, v ∈ q'.heap ↔ v ∈ q.heap

theorem Placed.moved (placed : q.Placed) : q.Moved q := ⟨placed, fun _ => Iff.rfl⟩

theorem Moved.trans {q'' : VarQueue} (first : q.Moved q') (second : q'.Moved q'') : q.Moved q'' :=
  ⟨second.1, fun v => (second.2 v).trans (first.2 v)⟩

theorem place_setPlace {place : Option Nat} (found : (q.setPlace v place).place? w = some i) :
    (w = v ∧ place = some i) ∨ (w ≠ v ∧ q.place? w = some i) := by
  simp only [place?, setPlace] at found ⊢
  by_cases same : w = v
  · subst same
    left
    rw [Array.getElem?_setIfInBounds] at found
    grind
  · right
    have apart : v.id ≠ w.id := fun h => same (by cases v; cases w; simp_all)
    rw [Array.getElem?_setIfInBounds_ne apart] at found
    exact ⟨same, found⟩

theorem heap_swap (inside : i < q.size) (inside' : j < q.size) (k : Nat) :
    (q.swap i j).heap[k]? = q.heap[if k = i then j else if k = j then i else k]? := by
  simp only [swap, setPlace, size] at *
  rw [Array.swapIfInBounds, dif_pos inside, dif_pos inside', Array.getElem?_swap]
  grind

theorem slot_eq (inside : i < q.size) : q.heap[i]? = some (q.slot i) := by
  simp [slot, size] at *
  grind

theorem mem_swap (inside : i < q.size) (inside' : j < q.size) :
    v ∈ (q.swap i j).heap ↔ v ∈ q.heap := by
  simp only [Array.mem_iff_getElem?, heap_swap inside inside']
  constructor
  · rintro ⟨k, found⟩
    exact ⟨_, found⟩
  · rintro ⟨k, found⟩
    refine ⟨if k = i then j else if k = j then i else k, ?_⟩
    rw [← found]
    congr 1
    grind

theorem Placed.swap (placed : q.Placed) (inside : i < q.size) (inside' : j < q.size) :
    (q.swap i j).Placed := by
  intro w k found
  have size : (q.swap i j).size = q.size := size_swap q i j
  have first := slot_eq (q := q.swap i j) (size.symm ▸ inside)
  have second := slot_eq (q := q.swap i j) (size.symm ▸ inside')
  rcases place_setPlace found with ⟨rfl, here⟩ | ⟨other, found⟩
  · cases here
    exact second
  rcases place_setPlace found with ⟨rfl, here⟩ | ⟨other', found⟩
  · cases here
    exact first
  -- A variable that is neither of the two exchanged is in neither of their slots.
  have old : q.heap[k]? = some w := placed w k found
  change w ≠ (q.swap i j).slot i at other'
  change w ≠ (q.swap i j).slot j at other
  rw [heap_swap inside inside'] at first second ⊢
  grind

section Ranked

variable {α : Type} {ranks : Array α}

theorem siftUp_keeps [LE α] [DecidableLE α] {P : VarQueue → Prop}
    (swapped : ∀ q i j, i < q.size → j < q.size → P q → P (q.swap i j)) (start : P q)
    (inside : i < q.size) (run : q.siftUp ranks i = .ok q') : P q' := by
  fun_induction siftUp ranks q i with
  | case1 q =>
    cases run
    exact start
  | case2 q i root parent r p _ _ ordered =>
    cases run
    exact start
  | case3 q i root parent r p _ _ unordered ih =>
    have inside' : parent < q.size := by omega
    exact ih (swapped q i parent inside inside' start) (by rw [size_swap]; exact inside') run
  | case4 => simp at run
  | case5 => simp at run

theorem siftDown_keeps [LT α] [DecidableLT α] {P : VarQueue → Prop}
    (swapped : ∀ q i j, i < q.size → j < q.size → P q → P (q.swap i j)) (start : P q)
    (run : q.siftDown ranks i = .ok q') : P q' := by
  fun_induction siftDown ranks q i with
  | case1 => simp at run
  | case2 q i top _ lower ih =>
    exact ih (swapped q i top (Nat.lt_trans lower.1 lower.2) lower.2 start) run
  | case3 =>
    cases run
    exact start

theorem Moved.swap {p : VarQueue} (moved : p.Moved q) (inside : i < q.size) (inside' : j < q.size) :
    p.Moved (q.swap i j) := moved.trans ⟨moved.1.swap inside inside', fun _ => mem_swap inside inside'⟩

theorem siftUp_moved [LE α] [DecidableLE α] (placed : q.Placed) (inside : i < q.size)
    (run : q.siftUp ranks i = .ok q') : q.Moved q' :=
  siftUp_keeps (fun _ _ _ hi hj moved => Moved.swap moved hi hj) placed.moved inside run

theorem siftDown_moved [LT α] [DecidableLT α] (placed : q.Placed)
    (run : q.siftDown ranks i = .ok q') : q.Moved q' :=
  siftDown_keeps (fun _ _ _ hi hj moved => Moved.swap moved hi hj) placed.moved run

theorem bump_moved [LE α] [DecidableLE α] (placed : q.Placed) (run : q.bump ranks v = .ok q') :
    q.Moved q' := by
  unfold bump at run
  split at run
  · rename_i i found
    have inside := Array.getElem?_eq_some_iff.mp (placed v i found)
    exact siftUp_moved placed inside.1 run
  · cases run
    exact placed.moved

theorem place_extend (n : Nat) :
    { q with places := q.places ++ Array.replicate n none }.place? v = q.place? v := by
  simp only [place?, Array.getElem?_append]
  split
  · rfl
  · grind

theorem insert_placed [LE α] [DecidableLE α] (placed : q.Placed) (run : q.insert ranks v = .ok q') :
    q'.Placed ∧ ∀ w, w ∈ q'.heap ↔ w = v ∨ w ∈ q.heap := by
  simp only [insert] at run
  generalize v.id + 1 - q.places.size = n at run
  have wider : { q with places := q.places ++ Array.replicate n none }.Placed := by
    intro w i found
    rw [place_extend] at found
    exact placed w i found
  split at run
  · rename_i known
    cases run
    obtain ⟨i, found⟩ := Option.isSome_iff_exists.mp known
    have member : v ∈ q.heap := Array.mem_of_getElem? (wider v i found)
    refine ⟨wider, fun w => ⟨.inr, ?_⟩⟩
    rintro (rfl | h)
    · exact member
    · exact h
  · have pushed : ({ q with
        heap := q.heap.push v
        places := q.places ++ Array.replicate n none }.setPlace v (some q.size)).Placed := by
      intro w i found
      rcases place_setPlace found with ⟨rfl, here⟩ | ⟨other, found⟩
      · cases here
        simp [setPlace, size]
      · have old := wider w i found
        simp only [setPlace, Array.getElem?_push] at old ⊢
        grind
    have moved := siftUp_moved pushed (by simp [size, setPlace]) run
    refine ⟨moved.1, fun w => (moved.2 w).trans ?_⟩
    simp [setPlace, or_comm]

theorem heap_pop (filled : 0 < q.size) (k : Nat) :
    (q.heap.swapIfInBounds 0 (q.size - 1)).pop[k]? =
      if k + 1 < q.size then q.heap[if k = 0 then q.size - 1 else k]? else none := by
  unfold size at *
  rw [Array.swapIfInBounds, dif_pos filled, dif_pos (by omega), Array.getElem?_pop,
    Array.getElem?_swap, Array.size_swap]
  grind

/-- Popping takes out the variable it answers, loses no other and adds none. -/
theorem pop_placed [LT α] [DecidableLT α] (placed : q.Placed) {top : Option Var}
    (run : q.pop ranks = .ok (top, q')) :
    q'.Placed ∧ (∀ w ∈ q.heap, top = some w ∨ (top ≠ none ∧ w ∈ q'.heap)) ∧
      (∀ w ∈ q'.heap, w ∈ q.heap) ∧ ∀ w, top = some w → w ∈ q.heap := by
  unfold pop at run
  split at run
  · rename_i empty
    cases run
    refine ⟨placed, fun w member => ?_, fun w member => member, by simp⟩
    simp only [isEmpty, Array.isEmpty_iff] at empty
    simp [empty] at member
  rename_i filled
  have filled : 0 < q.size := by
    simp only [isEmpty, Array.isEmpty_iff, ← Array.size_eq_zero_iff] at filled
    exact Nat.pos_of_ne_zero filled
  have first := slot_eq filled
  have shorter := heap_pop filled
  simp only at run
  generalize q.slot 0 = v at first run
  generalize (q.heap.swapIfInBounds 0 (q.size - 1)).pop = heap at shorter run
  have known : ∀ w ∈ heap, w ∈ q.heap := by
    intro w member
    obtain ⟨k, found⟩ := Array.mem_iff_getElem?.mp member
    rw [shorter] at found
    split at found
    · exact Array.mem_of_getElem? found
    · cases found
  have stays : ∀ w ∈ q.heap, w ≠ v → w ∈ heap := by
    intro w member other
    obtain ⟨k, found⟩ := Array.mem_iff_getElem?.mp member
    have inside := (Array.getElem?_eq_some_iff.mp found).1
    refine Array.mem_iff_getElem?.mpr ⟨if k = q.size - 1 then 0 else k, ?_⟩
    rw [shorter]
    unfold size at *
    grind
  have old : ∀ w i, ({ q with heap }.setPlace v none).place? w = some i →
      w ≠ v ∧ q.heap[i]? = some w := by
    intro w i found
    rcases place_setPlace found with ⟨_, here⟩ | ⟨other, found⟩
    · cases here
    · exact ⟨other, placed w i found⟩
  split at run
  · rename_i empty
    cases run
    have none_left : heap = #[] := by simpa [isEmpty, setPlace] using empty
    refine ⟨fun w i found => ?_, fun w member => ?_, known, fun w same => ?_⟩
    · obtain ⟨other, here⟩ := old w i found
      have := stays w (Array.mem_of_getElem? here) other
      simp [none_left] at this
    · by_cases same : w = v
      · exact .inl (by rw [same])
      · exact .inr ⟨by simp, stays w member same⟩
    · exact Option.some.inj same ▸ Array.mem_of_getElem? first
  · rename_i filled'
    split at run
    · rename_i q₁ sifted
      cases run
      have size' : 0 < ({ q with heap }.setPlace v none).size := by
        simp only [isEmpty, Array.isEmpty_iff, ← Array.size_eq_zero_iff] at filled'
        exact Nat.pos_of_ne_zero filled'
      have front := slot_eq size'
      generalize slot ({ q with heap }.setPlace v none) 0 = x at sifted front
      have placed' : (({ q with heap }.setPlace v none).setPlace x (some 0)).Placed := by
        intro w i found
        rcases place_setPlace found with ⟨rfl, here⟩ | ⟨other, found⟩
        · cases here
          exact front
        · obtain ⟨other', here⟩ := old w i found
          have inside := (Array.getElem?_eq_some_iff.mp here).1
          simp only [setPlace] at front ⊢
          rw [shorter] at front ⊢
          unfold size at *
          grind
      have moved := siftDown_moved placed' sifted
      refine ⟨moved.1, fun w member => ?_, fun w member => known w ((moved.2 w).mp member),
        fun w same => Option.some.inj same ▸ Array.mem_of_getElem? first⟩
      by_cases same : w = v
      · exact .inl (by rw [same])
      · exact .inr ⟨by simp, (moved.2 w).mpr (stays w member same)⟩
    · simp at run

end Ranked

end VarQueue

namespace Branching

variable {b b' : Branching} {v : Var} {count n : Nat}

/-- Every variable that satisfies the condition is in the queue, and those in the queue are among
the first `count`. -/
structure Awaits (b : Branching) (count : Nat) (waiting : Var → Prop) : Prop where
  placed : b.queue.Placed
  listed : ∀ v, waiting v → v ∈ b.queue.heap
  inside : ∀ v ∈ b.queue.heap, v.id < count

theorem Awaits.mono {waiting waiting' : Var → Prop} (awaits : b.Awaits count waiting)
    (fewer : ∀ v, waiting' v → waiting v) : b.Awaits count waiting' :=
  { awaits with listed := fun v h => awaits.listed v (fewer v h) }

variable {waiting : Var → Prop}

theorem insert_awaits {queue : VarQueue} (awaits : b.Awaits count waiting) (le : count ≤ n)
    (new : v.id < n) (run : b.queue.insert b.activity v = .ok queue) :
    { b with queue }.Awaits n fun w => w = v ∨ waiting w := by
  obtain ⟨placed, members⟩ := VarQueue.insert_placed awaits.placed run
  refine ⟨placed, fun w h => (members w).mpr (h.imp_right (awaits.listed w)), fun w member => ?_⟩
  rcases (members w).mp member with rfl | member
  · exact new
  · exact Nat.lt_of_lt_of_le (awaits.inside w member) le

theorem addVar_awaits (awaits : b.Awaits count waiting) (le : count ≤ n) (new : v.id < n)
    (run : b.addVar v = .ok b') : b'.Awaits n fun w => w = v ∨ waiting w := by
  simp only [addVar, bind_ok, pure_ok] at run
  obtain ⟨queue, inserted, rfl⟩ := run
  exact insert_awaits (b := { b with activity := b.activity.push 0, phases := b.phases.push false })
    ⟨awaits.placed, awaits.listed, awaits.inside⟩ le new inserted

theorem release_awaits {l : Lit} (awaits : b.Awaits count waiting) (known : l.var.id < count)
    (run : b.release l = .ok b') : b'.Awaits count fun w => w = l.var ∨ waiting w := by
  simp only [release, bind_ok, pure_ok] at run
  obtain ⟨queue, inserted, rfl⟩ := run
  exact insert_awaits (b := { b with phases := b.phases.setIfInBounds l.var.id l.phase })
    ⟨awaits.placed, awaits.listed, awaits.inside⟩ (Nat.le_refl _) known inserted

theorem bump_awaits (awaits : b.Awaits count waiting) (run : b.bump v = .ok b') :
    b'.Awaits count waiting := by
  simp only [bump, bind_ok, pure_ok] at run
  obtain ⟨queue, bumped, rfl⟩ := run
  have moved : b.queue.Moved queue := by
    split at bumped <;> exact VarQueue.bump_moved awaits.placed bumped
  exact ⟨moved.1, fun w h => (moved.2 w).mpr (awaits.listed w h),
    fun w member => awaits.inside w ((moved.2 w).mp member)⟩

/-- What picking a literal does: it finds a waiting variable that is unassigned and leaves the other
unassigned ones in the queue, or there is none. -/
theorem pick_awaits {value : Var → Truth} {choice : Option Lit}
    (awaits : b.Awaits count fun v => waiting v ∧ value v = .undef)
    (run : b.pick value n = .ok (choice, b')) :
    b'.Awaits count (fun v => waiting v ∧ value v = .undef ∧ ∀ l, choice = some l → l.var ≠ v) ∧
      (choice = none → ∀ v, waiting v → value v ≠ .undef) ∧
      ∀ l, choice = some l → value l.var = .undef ∧ l.var.id < count := by
  induction n generalizing b with
  | zero => simp [pick] at run
  | succ n ih =>
    simp only [pick, bind_ok, Prod.exists] at run
    obtain ⟨top, queue, popped, rest⟩ := run
    obtain ⟨placed, kept, known, out⟩ := VarQueue.pop_placed awaits.placed popped
    have inside (w : Var) (member : w ∈ queue.heap) := awaits.inside w (known w member)
    cases top with
    | none =>
      cases rest
      refine ⟨⟨placed, fun v h => ?_, inside⟩, fun _ v h unassigned => ?_, by simp⟩
      · have := kept v (awaits.listed v ⟨h.1, h.2.1⟩)
        simp at this
      · have := kept v (awaits.listed v ⟨h, unassigned⟩)
        simp at this
    | some v =>
      simp only at rest
      split at rest
      · rename_i unassigned
        cases rest
        refine ⟨⟨placed, fun w h => ?_, inside⟩, by simp, ?_⟩
        · rcases kept w (awaits.listed w ⟨h.1, h.2.1⟩) with same | ⟨_, member⟩
          · cases same
            exact absurd (Lit.var_of _ _) (h.2.2 _ rfl)
          · exact member
        · rintro l ⟨⟩
          simpa using ⟨unassigned, awaits.inside v (out v rfl)⟩
      · rename_i assigned
        -- The variable popped has a value, so it may be lost.
        refine ih (b := { b with queue }) ⟨placed, fun w h => ?_, inside⟩ rest
        rcases kept w (awaits.listed w h) with same | ⟨_, member⟩
        · cases same
          exact absurd h.2 assigned
        · exact member

end Branching

end ModelCounting
