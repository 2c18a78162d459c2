import ModelCounting.Proofs.Search.Places
import ModelCounting.Proofs.Search.Readiness

/-!
The order of a queue. As long as ranks only rise, and a variable whose rank rose is bumped before
anything else is asked, no variable ranks above the one at its parent. So popping answers a variable
that no other one in the queue ranks above.
-/

namespace ModelCounting

namespace VarQueue

variable {α : Type} {ranks ranks' : Array α} {q q' : VarQueue} {u v w : Var} {i j k : Nat}

/-! Ranks. -/

/-- The ranks in use are compared by a total preorder. -/
structure Comparable [LE α] [LT α] (proper : α → Prop) : Prop where
  total : ∀ r p, proper r → proper p → r ≤ p ∨ p ≤ r
  trans : ∀ r p s, proper r → proper p → proper s → r ≤ p → p ≤ s → r ≤ s
  lt_iff : ∀ r p, proper r → proper p → (r < p ↔ ¬ p ≤ r)

/-- Both variables have a rank, and the first ranks no higher than the second. -/
def NoHigher [LE α] (ranks : Array α) (v w : Var) : Prop :=
  ∃ r p, ranks[v.id]? = some r ∧ ranks[w.id]? = some p ∧ r ≤ p

structure Rated (proper : α → Prop) (ranks : Array α) (q : VarQueue) : Prop where
  proper : ∀ r ∈ ranks, proper r
  known : ∀ v ∈ q.heap, v.id < ranks.size

variable {proper : α → Prop}

theorem rank_ok {r : α} : rank ranks v = .ok r ↔ ranks[v.id]? = some r := by
  unfold rank
  split
  · rename_i found
    rw [found, Except.ok.injEq, Option.some.injEq]
  · rename_i missing
    rw [missing]
    exact iff_of_false nofun nofun

theorem Rated.fits {r : α} (rated : q.Rated proper ranks) (found : ranks[i]? = some r) : proper r :=
  rated.proper r (Array.mem_of_getElem? found)

theorem Rated.congr (rated : q.Rated proper ranks) (members : ∀ v, v ∈ q'.heap ↔ v ∈ q.heap) :
    q'.Rated proper ranks :=
  ⟨rated.proper, fun v member => rated.known v ((members v).mp member)⟩

theorem Rated.swap (rated : q.Rated proper ranks) (inside : i < q.size) (inside' : j < q.size) :
    (q.swap i j).Rated proper ranks := rated.congr fun _ => mem_swap inside inside'

theorem slot_swap (inside : i < q.size) (inside' : j < q.size) (k : Nat) :
    (q.swap i j).slot k = q.slot (if k = i then j else if k = j then i else k) := by
  rw [slot, slot, Array.getD_eq_getD_getElem?, Array.getD_eq_getD_getElem?, heap_swap inside inside']

section Order

variable [LE α]

def Ordered (ranks : Array α) (q : VarQueue) : Prop :=
  ∀ i, 0 < i → i < q.size → NoHigher ranks (q.slot i) (q.slot ((i - 1) / 2))

/-- Only the variable in one slot may rank above the one at its parent, and those at its children
rank no higher than that. -/
structure Rising (ranks : Array α) (q : VarQueue) (hole : Nat) : Prop where
  others : ∀ i, 0 < i → i < q.size → i ≠ hole → NoHigher ranks (q.slot i) (q.slot ((i - 1) / 2))
  grand : 0 < hole → ∀ i, 0 < i → i < q.size → (i - 1) / 2 = hole →
    NoHigher ranks (q.slot i) (q.slot ((hole - 1) / 2))

/-- Only the variables at the children of one slot may rank above the one in it, and they rank no
higher than the one at its parent. -/
structure Sinking (ranks : Array α) (q : VarQueue) (hole : Nat) : Prop where
  others : ∀ i, 0 < i → i < q.size → (i - 1) / 2 ≠ hole →
    NoHigher ranks (q.slot i) (q.slot ((i - 1) / 2))
  grand : 0 < hole → ∀ i, 0 < i → i < q.size → (i - 1) / 2 = hole →
    NoHigher ranks (q.slot i) (q.slot ((hole - 1) / 2))

theorem Rising.ordered (rising : q.Rising ranks i)
    (fits : 0 < i → i < q.size → NoHigher ranks (q.slot i) (q.slot ((i - 1) / 2))) :
    q.Ordered ranks := by
  intro k low inside
  by_cases here : k = i
  · subst here
    exact fits low inside
  · exact rising.others k low inside here

theorem Sinking.ordered (sinking : q.Sinking ranks i)
    (fits : ∀ k, 0 < k → k < q.size → (k - 1) / 2 = i → NoHigher ranks (q.slot k) (q.slot i)) :
    q.Ordered ranks := by
  intro k low inside
  by_cases child : (k - 1) / 2 = i
  · rw [child]
    exact fits k low inside child
  · exact sinking.others k low inside child

/-- The variable of a slot and the one at a child change places, if no child ranks above that one. -/
theorem Sinking.swap (sinking : q.Sinking ranks i) {top : Nat} (child : (top - 1) / 2 = i)
    (less : i < top) (inside : top < q.size) (above : NoHigher ranks (q.slot i) (q.slot top))
    (highest : ∀ k, 0 < k → k < q.size → (k - 1) / 2 = i → NoHigher ranks (q.slot k) (q.slot top)) :
    (q.swap i top).Sinking ranks top := by
  have slots := slot_swap (Nat.lt_trans less inside) inside
  constructor
  case others =>
    intro k low inside' other
    rw [size_swap] at inside'
    rw [slots, slots, if_neg other]
    by_cases here : k = i
    · rw [if_pos here, if_neg (show (k - 1) / 2 ≠ i by omega), here]
      exact sinking.grand (here ▸ low) top (by omega) inside child
    rw [if_neg here]
    by_cases last : k = top
    · rw [if_pos last, if_pos (last ▸ child)]
      exact above
    rw [if_neg last]
    by_cases sibling : (k - 1) / 2 = i
    · rw [if_pos sibling]
      exact highest k low inside' sibling
    · rw [if_neg sibling]
      exact sinking.others k low inside' sibling
  case grand =>
    intro _ k low inside' below
    rw [size_swap] at inside'
    rw [slots, slots, child, if_pos rfl, if_neg (show k ≠ i by omega), if_neg (show k ≠ top by omega)]
    exact below ▸ sinking.others k low inside' (by omega)

variable [LT α]

theorem NoHigher.trans (order : Comparable proper) (rated : q.Rated proper ranks)
    (first : NoHigher ranks u v) (second : NoHigher ranks v w) : NoHigher ranks u w := by
  obtain ⟨r, p, hr, hp, le⟩ := first
  obtain ⟨p', s, hp', hs, le'⟩ := second
  obtain rfl := Option.some.inj (hp.symm.trans hp')
  exact ⟨r, s, hr, hs, order.trans r p s (rated.fits hr) (rated.fits hp)
    (rated.fits hs) le le'⟩

theorem Rated.noHigher_self (rated : q.Rated proper ranks) (order : Comparable proper)
    (inside : i < q.size) : NoHigher ranks (q.slot i) (q.slot i) := by
  have there := rated.known _ (Array.mem_of_getElem? (slot_eq inside))
  have found := Array.getElem?_eq_getElem there
  have fits := rated.fits found
  exact ⟨_, _, found, found, (order.total _ _ fits fits).elim id id⟩

/-- The variable of a slot and the one at its parent change places. -/
theorem Rising.swap (rising : q.Rising ranks i) (order : Comparable proper)
    (rated : q.Rated proper ranks) (low : 0 < i) (inside : i < q.size)
    (above : NoHigher ranks (q.slot ((i - 1) / 2)) (q.slot i)) :
    (q.swap i ((i - 1) / 2)).Rising ranks ((i - 1) / 2) := by
  have parent : (i - 1) / 2 < i := by omega
  generalize p_eq : (i - 1) / 2 = p at *
  have inside' : p < q.size := Nat.lt_trans parent inside
  have slots := slot_swap inside inside'
  have below (k : Nat) (low : 0 < k) (inside : k < q.size) (away : k ≠ i) (child : (k - 1) / 2 = p) :
      NoHigher ranks (q.slot k) (q.slot p) := child ▸ rising.others k low inside away
  constructor
  case others =>
    intro k low' inside'' other
    rw [size_swap] at inside''
    rw [slots, slots, if_neg other]
    by_cases here : k = i
    · rw [if_pos here, here, p_eq, if_neg (Nat.ne_of_lt parent), if_pos rfl]
      exact above
    rw [if_neg here]
    by_cases child : (k - 1) / 2 = i
    · rw [if_pos child]
      exact p_eq ▸ rising.grand low k low' inside'' child
    rw [if_neg child]
    by_cases sibling : (k - 1) / 2 = p
    · rw [if_pos sibling]
      exact (below k low' inside'' here sibling).trans order rated above
    · rw [if_neg sibling]
      exact rising.others k low' inside'' here
  case grand =>
    intro low' k low'' inside'' child
    rw [size_swap] at inside''
    have up : NoHigher ranks (q.slot p) (q.slot ((p - 1) / 2)) :=
      rising.others p low' inside' (Nat.ne_of_lt parent)
    rw [slots, slots, if_neg (show k ≠ p by omega), if_neg (show (p - 1) / 2 ≠ i by omega),
      if_neg (show (p - 1) / 2 ≠ p by omega)]
    by_cases here : k = i
    · rw [if_pos here]
      exact up
    · rw [if_neg here]
      exact (below k low'' inside'' here child).trans order rated up

/-- Under an order the top ranks highest. -/
theorem Ordered.highest (ordered : q.Ordered ranks) (order : Comparable proper)
    (rated : q.Rated proper ranks) (inside : i < q.size) : NoHigher ranks (q.slot i) (q.slot 0) := by
  induction i using Nat.strongRecOn with
  | ind i ih =>
    rcases Nat.eq_zero_or_pos i with rfl | low
    · exact rated.noHigher_self order inside
    · have up := ih ((i - 1) / 2) (by omega) (by omega)
      exact (ordered i low inside).trans order rated up

theorem Ordered.slot_highest (ordered : q.Ordered ranks) (order : Comparable proper)
    (rated : q.Rated proper ranks) (member : w ∈ q.heap) : NoHigher ranks w (q.slot 0) := by
  obtain ⟨i, found⟩ := Array.mem_iff_getElem?.mp member
  have inside : i < q.size := (Array.getElem?_eq_some_iff.mp found).1
  rw [Option.some.inj (found.symm.trans (slot_eq inside))]
  exact ordered.highest order rated inside

/-- The ranks of the variables in a queue only rise, and only those of bumped ones do. -/
def Rises (ranks ranks' : Array α) (q : VarQueue) (bumped : Var → Prop) : Prop :=
  ∀ v ∈ q.heap, ∀ r, ranks[v.id]? = some r →
    ∃ r', ranks'[v.id]? = some r' ∧ r ≤ r' ∧ (r' ≤ r ∨ bumped v)

theorem Rises.carry {bumped : Var → Prop} (rises : Rises ranks ranks' q bumped)
    (order : Comparable proper) (rated : q.Rated proper ranks) (rated' : q.Rated proper ranks')
    (hv : v ∈ q.heap) (hw : w ∈ q.heap) (still : ¬ bumped v) (le : NoHigher ranks v w) :
    NoHigher ranks' v w := by
  obtain ⟨r, p, hr, hp, le⟩ := le
  obtain ⟨r', hr', _, down⟩ := rises v hv r hr
  obtain ⟨p', hp', up, _⟩ := rises w hw p hp
  have same := down.resolve_right still
  have first := order.trans r' r p (rated'.fits hr') (rated.fits hr) (rated.fits hp) same le
  exact ⟨r', p', hr', hp',
    order.trans r' p p' (rated'.fits hr') (rated.fits hp) (rated'.fits hp') first up⟩

structure Ranked (proper : α → Prop) (ranks : Array α) (q : VarQueue) : Prop where
  rated : q.Rated proper ranks
  ordered : q.Ordered ranks

theorem Ranked.carry {bumped : Var → Prop} (ranked : q.Ranked proper ranks)
    (order : Comparable proper) (rises : Rises ranks ranks' q bumped)
    (rated : q.Rated proper ranks') (still : ∀ v ∈ q.heap, ¬ bumped v) : q.Ranked proper ranks' := by
  refine ⟨rated, fun i low inside => ?_⟩
  have here := Array.mem_of_getElem? (slot_eq inside)
  have there := Array.mem_of_getElem? (slot_eq (q := q) (i := (i - 1) / 2) (by omega))
  exact rises.carry order ranked.rated rated here there (still _ here) (ranked.ordered i low inside)

end Order

/-! Moving a variable up. -/

section Up

variable [LE α] [LT α] [DecidableLE α]

theorem siftUp_ordered (order : Comparable proper) (rated : q.Rated proper ranks)
    (inside : i < q.size) (rising : q.Rising ranks i) (run : q.siftUp ranks i = .ok q') :
    q'.Ordered ranks := by
  fun_induction siftUp ranks q i with
  | case1 q =>
    cases run
    exact rising.ordered fun low => absurd low (Nat.lt_irrefl 0)
  | case2 q i root parent r p second first ordered =>
    cases run
    exact rising.ordered fun _ _ => ⟨r, p, rank_ok.mp first, rank_ok.mp second, ordered⟩
  | case3 q i root parent r p second first unordered ih =>
    have inside' : parent < q.size := by omega
    have hr := rank_ok.mp first
    have hp := rank_ok.mp second
    have above : NoHigher ranks (q.slot parent) (q.slot i) :=
      ⟨p, r, hp, hr, (order.total r p (rated.fits hr) (rated.fits hp)).resolve_left unordered⟩
    exact ih (rated.swap inside inside') (by rw [size_swap]; exact inside')
      (rising.swap order rated (Nat.pos_of_ne_zero root) inside above) run
  | case4 => cases run
  | case5 => cases run

theorem Ranked.insert (ranked : q.Ranked proper ranks) (order : Comparable proper)
    (indexed : q.Indexed) (known : v.id < ranks.size) (run : q.insert ranks v = .ok q') :
    q'.Ranked proper ranks := by
  have members := (indexed.insert run).2
  constructor
  case rated =>
    refine ⟨ranked.rated.proper, fun w member => ?_⟩
    rcases (members w).mp member with rfl | member
    · exact known
    · exact ranked.rated.known w member
  case ordered =>
    obtain ⟨r, heap, _, _, ⟨_, rfl⟩ | ⟨_, sifted⟩⟩ := insert_ok run
    · intro i low inside
      have same (k : Nat) : q'.slot k = q.slot k := by rw [slot, slot, heap]
      rw [same, same]
      exact ranked.ordered i low (by rwa [size, ← heap])
    generalize pushed : VarQueue.setPlace _ v (some q.size) = p at sifted
    have heap' : p.heap = q.heap.push v := by rw [← pushed, ← heap]; rfl
    have size' : p.size = q.size + 1 := by rw [size, heap', Array.size_push]; rfl
    have same (k : Nat) (inside : k < q.size) : p.slot k = q.slot k := by
      rw [slot, slot, heap', Array.getD_eq_getD_getElem?, Array.getD_eq_getD_getElem?,
        Array.getElem?_push, if_neg (show k ≠ q.heap.size from Nat.ne_of_lt inside)]
    have rated : p.Rated proper ranks := by
      refine ⟨ranked.rated.proper, fun w member => ?_⟩
      rw [heap'] at member
      rcases Array.mem_push.mp member with member | rfl
      · exact ranked.rated.known w member
      · exact known
    have rising : p.Rising ranks q.size := by
      constructor
      case others =>
        intro k low inside other
        rw [same k (by omega), same _ (by omega)]
        exact ranked.ordered k low (by omega)
      case grand =>
        intro _ k low inside child
        omega
    exact siftUp_ordered order rated (by omega) rising sifted

/-- Bumping brings the queue into order again after the rank of the variable rose. -/
theorem Ranked.bump (ranked : q.Ranked proper ranks) (order : Comparable proper)
    (indexed : q.Indexed) (rises : Rises ranks ranks' q (· = v)) (rated : q.Rated proper ranks')
    (run : q.bump ranks' v = .ok q') : q'.Ranked proper ranks' := by
  have members := (indexed.bump run).2
  refine ⟨rated.congr members, ?_⟩
  unfold VarQueue.bump at run
  split at run
  · rename_i i found
    have here := (indexed v i).mp found
    have inside : i < q.size := (Array.getElem?_eq_some_iff.mp here).1
    have carry (k l : Nat) (hk : k < q.size) (hl : l < q.size) (other : k ≠ i)
        (le : NoHigher ranks (q.slot k) (q.slot l)) : NoHigher ranks' (q.slot k) (q.slot l) := by
      refine rises.carry order ranked.rated rated (Array.mem_of_getElem? (slot_eq hk))
        (Array.mem_of_getElem? (slot_eq hl)) (fun same => ?_) le
      exact other (indexed.listed.inj (same ▸ slot_eq hk) here)
    have rising : q.Rising ranks' i := by
      constructor
      case others =>
        intro k low inside' other
        exact carry k _ inside' (by omega) other (ranked.ordered k low inside')
      case grand =>
        intro low k low' inside' child
        have up := ranked.ordered k low' inside'
        rw [child] at up
        exact carry k _ inside' (by omega) (by omega)
          (up.trans order ranked.rated (ranked.ordered i low inside))
    exact siftUp_ordered order rated inside rising run
  · rename_i missing
    cases run
    have absent (w : Var) (member : w ∈ q.heap) : w ≠ v := by
      rintro rfl
      obtain ⟨i, found⟩ := Array.mem_iff_getElem?.mp member
      exact absurd ((indexed w i).mpr found) (by simp [missing])
    exact (ranked.carry order rises rated absent).ordered

end Up

/-! Moving a variable down. -/

section Down

variable [LE α] [LT α] [DecidableLT α]

/-- The slot chosen is one of the two, and neither ranks above it. -/
theorem higher_ok (order : Comparable proper) (rated : q.Rated proper ranks) (inside : i < q.size)
    (run : q.higher ranks i j = .ok k) : (k = i ∨ k = j ∧ j < q.size) ∧
      NoHigher ranks (q.slot i) (q.slot k) ∧ (j < q.size → NoHigher ranks (q.slot j) (q.slot k)) := by
  have self := rated.noHigher_self order inside
  unfold higher at run
  split at run
  · rename_i there
    split at run
    · rename_i r p first second
      have hr := rank_ok.mp first
      have hp := rank_ok.mp second
      have compare := order.lt_iff p r (rated.fits hp) (rated.fits hr)
      have total := order.total r p (rated.fits hr) (rated.fits hp)
      split at run
      · rename_i less
        cases run
        have le := total.resolve_left (compare.mp less)
        exact ⟨.inr ⟨rfl, there⟩, ⟨p, r, hp, hr, le⟩, fun _ => rated.noHigher_self order there⟩
      · rename_i notLess
        cases run
        have le : r ≤ p := by
          by_contra above
          exact notLess (compare.mpr above)
        exact ⟨.inl rfl, self, fun _ => ⟨r, p, hr, hp, le⟩⟩
    · cases run
    · cases run
  · rename_i missing
    cases run
    exact ⟨.inl rfl, self, fun there => absurd there missing⟩

theorem highest_ok (order : Comparable proper) (rated : q.Rated proper ranks) (inside : i < q.size)
    (run : (do q.higher ranks (← q.higher ranks i (2 * i + 1)) (2 * i + 2)) = .ok top) :
    (top = i ∨ (top - 1) / 2 = i ∧ i < top ∧ top < q.size) ∧ NoHigher ranks (q.slot i) (q.slot top) ∧
      ∀ k, 0 < k → k < q.size → (k - 1) / 2 = i → NoHigher ranks (q.slot k) (q.slot top) := by
  obtain ⟨best, first, second⟩ := bind_ok.mp run
  obtain ⟨here, self, left⟩ := higher_ok order rated inside first
  have inside' : best < q.size := by
    rcases here with rfl | ⟨rfl, there⟩
    · exact inside
    · exact there
  obtain ⟨here', self', right⟩ := higher_ok order rated inside' second
  refine ⟨by omega, self.trans order rated self', fun k low there child => ?_⟩
  have children : k = 2 * i + 1 ∨ k = 2 * i + 2 := by omega
  rcases children with rfl | rfl
  · exact (left there).trans order rated self'
  · exact right there

theorem siftDown_ordered (order : Comparable proper) (rated : q.Rated proper ranks)
    (inside : i < q.size) (sinking : q.Sinking ranks i) (run : q.siftDown ranks i = .ok q') :
    q'.Ordered ranks := by
  fun_induction siftDown ranks q i with
  | case1 => cases run
  | case2 q i top chosen lower ih =>
    obtain ⟨where_, above, highest⟩ := highest_ok order rated inside chosen
    obtain ⟨child, less, there⟩ := where_.resolve_left (Nat.ne_of_gt lower.1)
    exact ih (rated.swap inside there) (by rw [size_swap]; exact there)
      (sinking.swap child less there above highest) run
  | case3 q i top chosen stays =>
    cases run
    obtain ⟨where_, _, highest⟩ := highest_ok order rated inside chosen
    have same : top = i := by omega
    rw [same] at highest
    exact sinking.ordered highest

theorem Ranked.pop {top : Option Var} (ranked : q.Ranked proper ranks) (order : Comparable proper)
    (indexed : q.Indexed) (run : q.pop ranks = .ok (top, q')) :
    q'.Ranked proper ranks ∧ ∀ v, top = some v → ∀ w ∈ q.heap, NoHigher ranks w v := by
  obtain ⟨_, none, _, members⟩ := indexed.pop run
  have rated : q'.Rated proper ranks :=
    ⟨ranked.rated.proper, fun w member => ranked.rated.known w ((members w).mp member).1⟩
  rcases Nat.eq_zero_or_pos q.size with empty | filled
  · have gone (w : Var) : w ∉ q.heap := by
      rw [Array.size_eq_zero_iff.mp empty]
      exact Array.not_mem_empty w
    have empty' : q'.size = 0 := by
      by_contra some
      have member := Array.mem_of_getElem? (slot_eq (Nat.pos_of_ne_zero some))
      exact gone _ ((members _).mp member).1
    exact ⟨⟨rated, fun i _ inside => by omega⟩, fun v _ w member => absurd member (gone w)⟩
  obtain ⟨rfl, sunk⟩ := pop_ok filled run
  refine ⟨⟨rated, ?_⟩, ?_⟩
  · have rated' : q.dropTop.Rated proper ranks :=
      ⟨ranked.rated.proper, fun w member => ranked.rated.known w (mem_of_dropTop filled member)⟩
    rcases Nat.eq_zero_or_pos q.dropTop.size with empty | filled'
    · rw [siftDown_empty empty] at sunk
      cases sunk
      intro i low inside
      omega
    · have sinking : q.dropTop.Sinking ranks 0 := by
        constructor
        case others =>
          intro k low inside child
          rw [slot_dropTop low inside, slot_dropTop (Nat.pos_of_ne_zero child) (by omega)]
          rw [size_dropTop] at inside
          exact ranked.ordered k low (by omega)
        case grand =>
          intro low
          omega
      exact siftDown_ordered order rated' filled' sinking sunk
  · rintro v ⟨⟩ w member
    exact ranked.ordered.slot_highest order ranked.rated member

end Down

end VarQueue

end ModelCounting
