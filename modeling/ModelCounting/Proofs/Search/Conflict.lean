import ModelCounting.Proofs.ClauseSet
import ModelCounting.Proofs.Search.Propagation

/-!
Conflict analysis. The marked literals form a clause that follows from the clauses in use: first it
is the clause in conflict, and each step resolves it with a reason. The lesson is this clause once a
single literal of the current level is left, without the literals that the others imply.
-/

namespace ModelCounting

namespace Engine

variable {live : ClauseRef → Prop} {e : Engine} {l : Lit} {value : Var → Bool}

structure Grounded (live : ClauseRef → Prop) (e : Engine) (value : Var → Bool) : Prop where
  clauses : ∀ r, live r → Holds value (e.bank.lits r).toList
  roots : ∀ l ∈ e.trail.lits, e.trail.level l.var = 0 → l.holds value = true

theorem Grounded.fails (grounded : e.Grounded live value) (on : -l ∈ e.trail.lits)
    (root : e.trail.level l.var = 0) : l.holds value = false := by
  have := grounded.roots _ on (by rwa [Lit.var_neg])
  simpa [Store.holds_neg] using this

end Engine

namespace Trail

variable {t : Trail} {l m : Lit}

theorem Faithful.false_unique (faithful : t.Faithful) (on : -l ∈ t.lits) (on' : -m ∈ t.lits)
    (same : l.var = m.var) : l = m := by
  have := faithful.consistent on on' (by simpa using same)
  rw [← Lit.neg_neg l, this, Lit.neg_neg]

end Trail

namespace Analysis

variable {t : Trail} {n : Nat} {a : Analysis} {current : List Lit} {l : Lit}

/-- What the marks stand for, as the walk is at position `n` of the trail: false literals, of which
`current` are those of the current level. -/
structure Tracks (t : Trail) (n : Nat) (current : List Lit) (a : Analysis) : Prop where
  pending : a.pending = current.length
  nodup : ((current ++ a.lower.toList).map Lit.var).Nodup
  seen_iff : ∀ v, a.isSeen v = true ↔ v ∈ (current ++ a.lower.toList).map Lit.var
  size : a.seen.size = t.varCount
  current_on : ∀ l ∈ current, t.level l.var = t.depth ∧ ∃ i < n, t.lits[i]? = some (-l)
  lower_on : ∀ l ∈ a.lower, -l ∈ t.lits ∧ 0 < t.level l.var ∧ t.level l.var < t.depth

theorem Tracks.on (tracks : Tracks t n current a) (member : l ∈ current ++ a.lower.toList) :
    -l ∈ t.lits := by
  rcases List.mem_append.mp member with member | member
  · obtain ⟨_, i, _, here⟩ := tracks.current_on l member
    exact Array.mem_of_getElem? here
  · exact (tracks.lower_on l (by simpa using member)).1

theorem Tracks.mem_of_seen (tracks : Tracks t n current a) (faithful : t.Faithful)
    (seen : a.isSeen l.var = true) (on : -l ∈ t.lits) : l ∈ current ++ a.lower.toList := by
  obtain ⟨m, member, same⟩ := List.mem_map.mp ((tracks.seen_iff _).mp seen)
  rwa [faithful.false_unique on (tracks.on member) same.symm]

/-- The marks of `a` and those of the literals of a list, unless they are fixed at the root. -/
structure Marked (t : Trail) (n : Nat) (current : List Lit) (a : Analysis) (ls : List Lit)
    (current' : List Lit) (a' : Analysis) : Prop where
  tracks : Tracks t n current' a'
  keeps : current ⊆ current'
  keeps_lower : ∀ l ∈ a.lower, l ∈ a'.lower
  marked : ∀ l ∈ ls, t.level l.var = 0 ∨ l ∈ current' ++ a'.lower.toList

theorem isSeen_set (a : Analysis) (v w : Var) (b : Bool) (inside : v.id < a.seen.size) :
    (a.seen.setIfInBounds v.id b).getD w.id false = if w = v then b else a.isSeen w := by
  split
  · rename_i same
    rw [same, Trail.getD_set_self inside]
  · rename_i other
    rw [Trail.getD_set_ne (Trail.id_ne_of_ne (Ne.symm other))]
    rfl

theorem Tracks.mark (tracks : Tracks t n current a) (wf : t.WellFormed)
    (here : ∃ i < n, t.lits[i]? = some (-l)) :
    ∃ current', Marked t n current a [l] current' (a.mark t l) := by
  obtain ⟨i, before, here⟩ := here
  have on := Array.mem_of_getElem? here
  have le : t.level l.var ≤ t.depth := by simpa using wf.level_le_depth on
  have inside : l.var.id < a.seen.size := by
    rw [tracks.size]
    simpa using wf.var_lt on
  unfold Analysis.mark
  split
  · rename_i known
    refine ⟨current, tracks, List.Subset.refl _, fun _ h => h, fun m member => ?_⟩
    obtain rfl := List.mem_singleton.mp member
    rw [Bool.or_eq_true, beq_iff_eq] at known
    rcases known with seen | root
    · exact .inr (tracks.mem_of_seen wf.toFaithful seen on)
    · exact .inl root
  · rename_i fresh
    rw [Bool.or_eq_true, beq_iff_eq, not_or] at fresh
    obtain ⟨unseen, root⟩ := fresh
    have absent : l.var ∉ (current ++ a.lower.toList).map Lit.var := fun member =>
      unseen ((tracks.seen_iff _).mpr member)
    have size : (a.seen.setIfInBounds l.var.id true).size = t.varCount :=
      (Array.size_setIfInBounds ..).trans tracks.size
    have seen_iff (v : Var) : (a.seen.setIfInBounds l.var.id true).getD v.id false = true ↔
        v = l.var ∨ v ∈ (current ++ a.lower.toList).map Lit.var := by
      rw [isSeen_set a l.var v true inside, ← tracks.seen_iff]
      split <;> simp_all
    simp only
    split
    · rename_i top
      refine ⟨l :: current, ⟨?_, ?_, fun v => (seen_iff v).trans ?_, size, ?_, tracks.lower_on⟩,
        fun _ h => List.mem_cons_of_mem _ h, fun _ h => h, fun m member => ?_⟩
      · simp [tracks.pending]
      · exact List.nodup_cons.mpr ⟨absent, tracks.nodup⟩
      · simp
      · intro m member
        rcases List.mem_cons.mp member with rfl | member
        · exact ⟨Nat.le_antisymm le top, i, before, here⟩
        · exact tracks.current_on m member
      · exact .inr (by simpa using .inl (List.mem_singleton.mp member))
    · rename_i low
      refine ⟨current, ⟨tracks.pending, ?_, fun v => (seen_iff v).trans ?_, size,
        tracks.current_on, ?_⟩, List.Subset.refl _, fun _ h => by simp [h], fun m member => ?_⟩
      · have perm : (current ++ (a.lower.push l).toList).Perm (l :: (current ++ a.lower.toList)) := by
          rw [Array.toList_push, ← List.append_assoc]
          exact List.perm_append_singleton _ _
        exact (perm.map Lit.var).nodup_iff.mpr (List.nodup_cons.mpr ⟨absent, tracks.nodup⟩)
      · simp [or_comm, or_assoc, eq_comm]
      · intro m member
        rcases Array.mem_push.mp member with member | rfl
        · exact tracks.lower_on m member
        · exact ⟨on, Nat.pos_of_ne_zero root, Nat.lt_of_not_le low⟩
      · exact .inr (by simpa using .inr (.inr (List.mem_singleton.mp member)))

theorem Tracks.marks (tracks : Tracks t n current a) (wf : t.WellFormed)
    {ls : List Lit} (here : ∀ l ∈ ls, ∃ i < n, t.lits[i]? = some (-l)) :
    ∃ current', Marked t n current a ls current' (ls.foldl (Analysis.mark t) a) := by
  induction ls generalizing a current with
  | nil => exact ⟨current, tracks, List.Subset.refl _, fun _ h => h, by simp⟩
  | cons l ls ih =>
    obtain ⟨current₁, first⟩ := tracks.mark wf (here l List.mem_cons_self)
    obtain ⟨current', rest⟩ := ih first.tracks fun m member => here m (List.mem_cons_of_mem _ member)
    refine ⟨current', rest.tracks, List.Subset.trans first.keeps rest.keeps,
      fun m member => rest.keeps_lower m (first.keeps_lower m member), fun m member => ?_⟩
    rcases List.mem_cons.mp member with rfl | member
    · refine (first.marked m List.mem_cons_self).imp_right fun known => ?_
      simp only [List.mem_append, Array.mem_toList_iff] at known ⊢
      exact known.imp (fun h => rest.keeps h) (rest.keeps_lower m)
    · exact rest.marked m member

theorem Tracks.markClause {e : Engine} (tracks : Tracks e.trail n current a)
    (r : ClauseRef) (skip : Nat) (wf : e.trail.WellFormed)
    (here : ∀ l ∈ (e.bank.lits r).toList.drop skip, ∃ i < n, e.trail.lits[i]? = some (-l)) :
    ∃ current', Marked e.trail n current a ((e.bank.lits r).toList.drop skip) current'
      (a.markClause e r skip) := by
  unfold Analysis.markClause
  simp only
  split
  · have same : Tracks e.trail n current { a with clauses := a.clauses.push r } :=
      ⟨tracks.pending, tracks.nodup, tracks.seen_iff, tracks.size, tracks.current_on,
        tracks.lower_on⟩
    obtain ⟨current', marked⟩ := same.marks wf here
    exact ⟨current', marked.tracks, marked.keeps, marked.keeps_lower, marked.marked⟩
  · exact tracks.marks wf here

theorem Tracks.unmark (tracks : Tracks t (n + 1) current a) (here : t.lits[n]? = some l)
    (member : -l ∈ current) :
    Tracks t n (current.erase (-l)) { a with
      seen := a.seen.setIfInBounds l.var.id false
      pending := a.pending - 1 } := by
  have perm := List.perm_cons_erase member
  have nodup := ((perm.append_right a.lower.toList).map Lit.var).nodup_iff.mp tracks.nodup
  rw [List.cons_append, List.map_cons, List.nodup_cons, Lit.var_neg] at nodup
  have inside : l.var.id < a.seen.size := by
    by_contra outside
    have seen := (tracks.seen_iff l.var).mpr (by
      rw [← Lit.var_neg]
      exact List.mem_map_of_mem (List.mem_append_left _ member))
    rw [isSeen, Array.getD_eq_getD_getElem?, Array.getElem?_eq_none (Nat.le_of_not_lt outside)] at seen
    cases seen
  refine ⟨?_, nodup.2, fun v => ?_, ?_, fun m inner => ?_, tracks.lower_on⟩
  · have := List.length_erase_of_mem member
    have := List.length_pos_of_mem member
    have := tracks.pending
    simp only at *
    omega
  · change (a.seen.setIfInBounds l.var.id false).getD v.id false = true ↔ _
    rw [isSeen_set a l.var v false inside]
    have old := tracks.seen_iff v
    rw [((perm.append_right a.lower.toList).map Lit.var).mem_iff, List.cons_append, List.map_cons,
      List.mem_cons, Lit.var_neg] at old
    split
    · rename_i same
      subst same
      exact ⟨nofun, fun h => absurd h nodup.1⟩
    · rename_i other
      rw [old]
      exact or_iff_right other
  · exact (Array.size_setIfInBounds ..).trans tracks.size
  · obtain ⟨level, i, before, here'⟩ := tracks.current_on m (List.mem_of_mem_erase inner)
    refine ⟨level, i, Nat.lt_of_le_of_ne (Nat.le_of_lt_succ before) ?_, here'⟩
    rintro rfl
    have same : -m = l := Option.some.inj (here'.symm.trans here)
    refine nodup.1 (List.mem_map.mpr ⟨m, List.mem_append_left _ inner, ?_⟩)
    rw [← same, Lit.var_neg]

section Resolving

variable {live : ClauseRef → Prop} {e : Engine} {a' : Analysis} {value : Var → Bool}

theorem mem_drop_one {lits : Array Lit} {q : Lit} (front : lits[0]? = some l)
    (member : q ∈ lits.toList) (other : q ≠ l) : q ∈ lits.toList.drop 1 := by
  rw [← Array.getElem?_toList] at front
  cases shape : lits.toList with
  | nil => simp [shape] at member
  | cons p ps =>
    rw [shape] at front member
    exact (List.mem_cons.mp member).resolve_left fun same =>
      other (same.trans (Option.some.inj front))

theorem not_mem_drop_one {lits : Array Lit} (front : lits[0]? = some l)
    (nodup : lits.toList.Nodup) : l ∉ lits.toList.drop 1 := by
  rw [← Array.getElem?_toList] at front
  cases shape : lits.toList with
  | nil => simp
  | cons p ps =>
    rw [shape] at front nodup
    obtain rfl : p = l := Option.some.inj front
    exact (List.nodup_cons.mp nodup).1

/-- What resolving arrives at: one true literal of the current level, and marked literals of lower
levels, one of which is true if the literal is not and one of the clause was. -/
structure Resolved (live : ClauseRef → Prop) (e : Engine) (current : List Lit) (a : Analysis)
    (l : Lit) (a' : Analysis) : Prop where
  on : l ∈ e.trail.lits
  level_eq : e.trail.level l.var = e.trail.depth
  tracks : Tracks e.trail 0 [] a'
  entailed : ∀ value, e.Grounded live value → Holds value (current ++ a.lower.toList) →
    Holds value (-l :: a'.lower.toList)

/-- Replacing a literal by the rest of its reason. -/
theorem Marked.holds {r : ClauseRef} {current₁ current' : List Lit} (wf : e.WellFormed live)
    (here : e.trail.lits[n]? = some l) (reason : e.trail.reason l.var = some r)
    (marked : Marked e.trail n current₁ a ((e.bank.lits r).toList.drop 1) current' a')
    (grounded : e.Grounded live value) (perm : current.Perm (-l :: current₁))
    (holds : Holds value (current ++ a.lower.toList)) :
    Holds value (current' ++ a'.lower.toList) := by
  obtain ⟨m, member, true_⟩ := holds
  rw [List.mem_append, perm.mem_iff, List.mem_cons] at member
  rcases member with (rfl | member) | member
  · obtain ⟨alive, front, others⟩ := wf.reasoned n l r here reason
    obtain ⟨q, inside, true_q⟩ := grounded.clauses r alive
    have other : q ≠ l := by
      rintro rfl
      rw [Store.holds_neg, true_q] at true_
      cases true_
    have inside' := mem_drop_one front inside other
    obtain ⟨j, _, on⟩ := others q (by simpa using inside) other
    rcases marked.marked q inside' with root | known
    · rw [grounded.fails (Array.mem_of_getElem? on) root] at true_q
      cases true_q
    · exact ⟨q, known, true_q⟩
  · exact ⟨m, List.mem_append_left _ (marked.keeps member), true_⟩
  · refine ⟨m, List.mem_append_right _ ?_, true_⟩
    simpa using marked.keeps_lower m (by simpa using member)

theorem Tracks.level_eq {p : Lit} (tracks : Tracks e.trail (n + 1) current a)
    (wf : e.trail.WellFormed) (left : current ≠ []) (here : e.trail.lits[n]? = some p) :
    e.trail.level p.var = e.trail.depth := by
  obtain ⟨c, member⟩ := List.exists_mem_of_ne_nil _ left
  obtain ⟨level, i, before, at_i⟩ := tracks.current_on c member
  have low := wf.level_eq i _ at_i
  rw [Lit.var_neg, level] at low
  refine Nat.le_antisymm (wf.level_le_depth (Array.mem_of_getElem? here)) ?_
  rw [wf.level_eq n p here, low]
  exact e.trail.levelAt_mono (Nat.le_of_lt_succ before)

theorem Tracks.mem_current {p : Lit} (tracks : Tracks e.trail n current a)
    (faithful : e.trail.Faithful) (on : p ∈ e.trail.lits)
    (level : e.trail.level p.var = e.trail.depth) (seen : a.isSeen p.var = true) :
    -p ∈ current := by
  have known := tracks.mem_of_seen (l := -p) faithful (by rw [Lit.var_neg]; exact seen)
    (by rw [Lit.neg_neg]; exact on)
  refine (List.mem_append.mp known).resolve_right fun lower => ?_
  have := (tracks.lower_on _ (by simpa using lower)).2.2
  rw [Lit.var_neg] at this
  omega

theorem Tracks.pass {p : Lit} (tracks : Tracks e.trail (n + 1) current a)
    (here : e.trail.lits[n]? = some p) (unseen : ¬ a.isSeen p.var = true) :
    Tracks e.trail n current a := by
  refine { tracks with current_on := fun c member => ?_ }
  obtain ⟨level, i, before, at_i⟩ := tracks.current_on c member
  refine ⟨level, i, Nat.lt_of_le_of_ne (Nat.le_of_lt_succ before) ?_, at_i⟩
  rintro rfl
  refine unseen ((tracks.seen_iff _).mpr (List.mem_map.mpr ⟨c, ?_, ?_⟩))
  · exact List.mem_append_left _ member
  · rw [← Option.some.inj (at_i.symm.trans here), Lit.var_neg]

theorem Tracks.markReason {p : Lit} {r : ClauseRef} (tracks : Tracks e.trail n current a)
    (wf : e.WellFormed live) (here : e.trail.lits[n]? = some p)
    (reason : e.trail.reason p.var = some r) :
    ∃ current', Marked e.trail n current a ((e.bank.lits r).toList.drop 1) current'
      (a.markClause e r 1) := by
  obtain ⟨alive, front, others⟩ := wf.reasoned n p r here reason
  refine tracks.markClause r 1 wf.trail fun q inside => ?_
  refine others q (by simpa using List.mem_of_mem_drop inside) ?_
  rintro rfl
  exact not_mem_drop_one front (wf.stored.nodup r alive) inside

theorem resolve_ok (wf : e.WellFormed live) (tracks : Tracks e.trail n current a)
    (left : current ≠ []) (le : n ≤ e.trail.lits.size) (run : a.resolve e n = .ok (l, a')) :
    Resolved live e current a l a' := by
  induction n generalizing a current with
  | zero => cases run
  | succ n ih =>
    have here : e.trail.lits[n]? = some (e.trail.lits.getD n default) := Engine.getElem?_getD le
    unfold Analysis.resolve at run
    simp only at run
    generalize e.trail.lits.getD n default = p at here run
    have on := Array.mem_of_getElem? here
    have level_eq := tracks.level_eq wf.trail left here
    split at run
    · rename_i seen
      have member := tracks.mem_current wf.trail.toFaithful on level_eq seen
      have perm := List.perm_cons_erase member
      have unmarked := tracks.unmark here member
      -- The walk stops at the last literal of the current level.
      split at run
      · rename_i none_left
        cases run
        have empty : current.erase (-l) = [] := by
          rw [← List.length_eq_zero_iff]
          have := unmarked.pending
          simp only at this
          omega
        rw [empty] at unmarked perm
        refine ⟨on, level_eq, { unmarked with current_on := by simp }, fun value _ holds => ?_⟩
        refine holds.mono fun q inside => ?_
        have := (perm.append_right a.lower.toList).mem_iff.mp inside
        simpa using this
      · rename_i some_left
        split at run
        · rename_i r reason
          obtain ⟨current', marked⟩ := unmarked.markReason wf here reason
          have ne : current' ≠ [] := by
            obtain ⟨c, still⟩ : ∃ c, c ∈ current.erase (-p) := by
              refine List.exists_mem_of_ne_nil _ fun empty => some_left ?_
              have := unmarked.pending
              rw [empty] at this
              exact this
            exact List.ne_nil_of_mem (marked.keeps still)
          have rest := ih marked.tracks ne (Nat.le_of_succ_le le) run
          refine ⟨rest.on, rest.level_eq, rest.tracks, fun value grounded holds => ?_⟩
          exact rest.entailed value grounded (marked.holds wf here reason grounded perm holds)
        · cases run
    · rename_i unseen
      exact ih (tracks.pass here unseen) left (Nat.le_of_succ_le le) run

theorem Tracks.minimized (tracks : Tracks e.trail n [] a) (wf : e.WellFormed live)
    (grounded : e.Grounded live value) (holds : Holds value a.lower.toList) :
    Holds value (a.lower.filter (a.needed e)).toList := by
  obtain ⟨m, member, true_⟩ := holds
  obtain ⟨i, here⟩ := Array.mem_iff_getElem?.mp (tracks.lower_on m (by simpa using member)).1
  -- The reason of a dropped literal has a true literal that stands before it on the trail.
  induction i using Nat.strongRecOn generalizing m with
  | ind i ih =>
    by_cases stays : a.needed e m = true
    · exact ⟨m, by simpa using ⟨by simpa using member, stays⟩, true_⟩
    · unfold needed at stays
      split at stays
      · exact absurd rfl stays
      rename_i r reason
      obtain ⟨alive, front, others⟩ := wf.reasoned i (-m) r here (by rwa [Lit.var_neg])
      obtain ⟨q, inside, true_q⟩ := grounded.clauses r alive
      have other : q ≠ -m := by
        rintro rfl
        rw [Store.holds_neg, true_] at true_q
        cases true_q
      obtain ⟨j, before, on⟩ := others q (by simpa using inside) other
      have inside' := mem_drop_one front inside other
      have known : a.isSeen q.var = true ∨ e.trail.level q.var = 0 := by
        by_contra unknown
        rw [not_or, Bool.not_eq_true] at unknown
        refine stays (List.any_eq_true.mpr ⟨q, inside', ?_⟩)
        simp [unknown.1, Nat.pos_of_ne_zero unknown.2]
      rcases known with seen | root
      · have member' := tracks.mem_of_seen wf.trail.toFaithful seen (Array.mem_of_getElem? on)
        exact ih j before q (by simpa using member') true_q on
      · rw [grounded.fails (Array.mem_of_getElem? on) root] at true_q
        cases true_q

end Resolving

section Lessons

variable {lits : Array Lit}

/-- The place found is one from the second on, and no literal there is of a higher level. -/
theorem highest_ok (t : Trail) (long : 1 < lits.size) :
    (1 ≤ highest t lits ∧ highest t lits < lits.size) ∧ ∀ i, 1 ≤ i → i < lits.size →
      t.level (lits.getD i default).var ≤ t.level (lits.getD (highest t lits) default).var := by
  suffices found : ∀ n, let best := (List.range' 2 n).foldl (fun best i =>
      if t.level (lits.getD best default).var < t.level (lits.getD i default).var then i else best) 1
      (1 ≤ best ∧ best < n + 2) ∧ ∀ i, 1 ≤ i → i < n + 2 →
        t.level (lits.getD i default).var ≤ t.level (lits.getD best default).var by
    have := found (lits.size - 2)
    rwa [show lits.size - 2 + 2 = lits.size by omega] at this
  intro n
  induction n with
  | zero =>
    refine ⟨by simp, fun i above below => ?_⟩
    obtain rfl : i = 1 := by omega
    exact Nat.le_refl _
  | succ n ih =>
    simp only [List.range'_1_concat, List.foldl_append, List.foldl_cons, List.foldl_nil]
    simp only at ih
    generalize List.foldl _ 1 (List.range' 2 n) = best at ih ⊢
    obtain ⟨⟨above, below⟩, highest⟩ := ih
    have split (i : Nat) (at_most : i < n + 1 + 2) : i < n + 2 ∨ i = 2 + n := by omega
    split
    · rename_i higher
      refine ⟨by omega, fun i above' below' => ?_⟩
      rcases split i below' with old | rfl
      · exact Nat.le_of_lt (Nat.lt_of_le_of_lt (highest i above' old) higher)
      · exact Nat.le_refl _
    · rename_i lower
      refine ⟨by omega, fun i above' below' => ?_⟩
      rcases split i below' with old | rfl
      · exact highest i above' old
      · exact Nat.le_of_not_lt lower

end Lessons

end Analysis

namespace Engine

variable {live : ClauseRef → Prop} {e : Engine} {l : Lit} {value : Var → Bool}

/-- A lesson that can be asserted: one literal of the current level, which comes first, the others
of levels up to that of the second one, all false and none fixed at the root, and one of them true
wherever the clauses in use hold. -/
structure Teaches (live : ClauseRef → Prop) (e : Engine) (lesson : Lesson) : Prop where
  filled : 0 < lesson.lits.size
  nodup : lesson.lits.toList.Nodup
  falsified : ∀ l ∈ lesson.lits, -l ∈ e.trail.lits
  unfixed : ∀ l ∈ lesson.lits, 0 < e.trail.level l.var
  first_level : e.trail.level (lesson.lits.getD 0 default).var = e.trail.depth
  level_lt : lesson.level < e.trail.depth
  second_level : 1 < lesson.lits.size →
    e.trail.level (lesson.lits.getD 1 default).var = lesson.level
  others_level : ∀ l ∈ lesson.lits, l ≠ lesson.lits.getD 0 default →
    e.trail.level l.var ≤ lesson.level
  unit_level : lesson.lits.size = 1 → lesson.level = 0
  entailed : ∀ value, e.Grounded live value → Holds value lesson.lits.toList

theorem teaches_lesson {lower : Array Lit} (on : -l ∈ e.trail.lits)
    (level_eq : e.trail.level l.var = e.trail.depth)
    (nodup : lower.toList.Nodup) (lower_on : ∀ m ∈ lower, -m ∈ e.trail.lits ∧
      0 < e.trail.level m.var ∧ e.trail.level m.var < e.trail.depth)
    (above : 0 < e.trail.depth)
    (entailed : ∀ value, e.Grounded live value → Holds value (l :: lower.toList)) :
    Teaches live e (Analysis.lesson e.trail (#[l] ++ lower)) := by
  have fresh : l ∉ lower := fun member => by
    have := (lower_on l member).2.2
    omega
  have nodup' : (#[l] ++ lower).toList.Nodup := by
    simpa using List.nodup_cons.mpr ⟨by simpa using fresh, nodup⟩
  have falsified (m : Lit) (member : m ∈ #[l] ++ lower) : -m ∈ e.trail.lits := by
    rcases Array.mem_append.mp member with member | member
    · obtain rfl : m = l := by simpa using member
      exact on
    · exact (lower_on m member).1
  have unfixed (m : Lit) (member : m ∈ #[l] ++ lower) : 0 < e.trail.level m.var := by
    rcases Array.mem_append.mp member with member | member
    · obtain rfl : m = l := by simpa using member
      rwa [level_eq]
    · exact (lower_on m member).2.1
  have front : (#[l] ++ lower).getD 0 default = l := by simp [Array.getD]
  have size_eq : (#[l] ++ lower).size = lower.size + 1 := by simp [Nat.add_comm]
  have entailed' (value : Var → Bool) (grounded : e.Grounded live value) :
      Holds value (#[l] ++ lower).toList := by simpa using entailed value grounded
  have others (m : Lit) (member : m ∈ #[l] ++ lower) (other : m ≠ l) : m ∈ lower := by
    rcases Array.mem_append.mp member with member | member
    · exact absurd (by simpa using member) other
    · exact member
  generalize #[l] ++ lower = lits at *
  unfold Analysis.lesson
  split
  · rename_i single
    refine ⟨single ▸ Nat.one_pos, nodup', falsified, unfixed, by rwa [front], above, fun long => ?_,
      fun m member other => ?_, fun _ => rfl, entailed'⟩
    · exact absurd single (Nat.ne_of_gt long)
    · obtain rfl : lower = #[] := Array.size_eq_zero_iff.mp (by omega)
      rw [front] at other
      exact absurd (others m member other) (by simp)
  · have long : 1 < lits.size := by omega
    obtain ⟨⟨from_one, inside⟩, top⟩ := Analysis.highest_ok e.trail long
    generalize Analysis.highest e.trail lits = h at from_one inside top ⊢
    have perm := swap_perm lits 1 h
    have swapped (i : Nat) : (lits.swapIfInBounds 1 h)[i]? =
        lits[if i = 1 then h else if i = h then 1 else i]? := by
      rw [Array.swapIfInBounds, dif_pos long, dif_pos inside, Array.getElem?_swap]
      grind
    have first_eq : (lits.swapIfInBounds 1 h).getD 0 default = l := by
      rw [← front, Array.getD_eq_getD_getElem?, swapped, Array.getD_eq_getD_getElem?]
      grind
    have second_eq : (lits.swapIfInBounds 1 h).getD 1 default = lits.getD h default := by
      rw [Array.getD_eq_getD_getElem?, swapped, Array.getD_eq_getD_getElem?, if_pos rfl]
    have at_most (m : Lit) (member : m ∈ lits) (other : m ≠ l) :
        e.trail.level m.var ≤ e.trail.level (lits.getD h default).var := by
      obtain ⟨i, inside', rfl⟩ := Array.mem_iff_getElem.mp member
      have at_i : lits[i] = lits.getD i default := by simp [Array.getD, inside']
      rw [at_i] at other ⊢
      exact top i (Nat.pos_of_ne_zero fun zero => other (by rw [zero, front])) inside'
    have second_ne : lits.getD h default ≠ l := by
      rw [← front]
      intro same
      have := getD_inj nodup' inside (by omega) same
      omega
    have below := lower_on _ (others _ (getD_mem inside) second_ne)
    change Teaches live e ⟨_, e.trail.level ((lits.swapIfInBounds 1 h).getD 1 default).var⟩
    rw [second_eq]
    refine ⟨?_, perm.toList.nodup_iff.mpr nodup', fun m member => falsified m (perm.mem_iff.mp member),
      fun m member => unfixed m (perm.mem_iff.mp member), ?_, below.2.2, fun _ => by rw [second_eq],
      fun m member other => ?_, fun single => ?_, fun value grounded => ?_⟩
    · rw [perm.size_eq]
      omega
    · rw [first_eq, level_eq]
    · rw [first_eq] at other
      exact at_most m (perm.mem_iff.mp member) other
    · rw [perm.size_eq] at single
      omega
    · exact (entailed' value grounded).mono fun m member => perm.toList.mem_iff.mpr member

def Unmarked (seen : Array Bool) (varCount : Nat) : Prop :=
  seen.size = varCount ∧ ∀ n, seen.getD n false = false

theorem clearMarks_unmarked {a : Analysis} {lits : Array Lit}
    (marked : ∀ v, a.isSeen v = true → v ∈ lits.toList.map Lit.var) :
    Unmarked (a.clearMarks lits).seen a.seen.size := by
  unfold Analysis.clearMarks
  simp only [Unmarked]
  rw [← Array.foldl_toList]
  generalize lits.toList = ls at marked
  suffices cleared : ∀ seen : Array Bool, (∀ n, seen.getD n false = true →
      (⟨n⟩ : Var) ∈ ls.map Lit.var) →
      (ls.foldl (fun seen l => seen.setIfInBounds l.var.id false) seen).size = seen.size ∧
        ∀ n, (ls.foldl (fun seen l => seen.setIfInBounds l.var.id false) seen).getD n false = false
    from cleared a.seen fun n seen => marked ⟨n⟩ seen
  clear marked
  induction ls with
  | nil => exact fun seen marked => ⟨rfl, fun n => by simpa using marked n⟩
  | cons l ls ih =>
    intro seen marked
    have smaller (n : Nat) (still : (seen.setIfInBounds l.var.id false).getD n false = true) :
        (⟨n⟩ : Var) ∈ ls.map Lit.var := by
      by_cases here : l.var.id = n
      · subst here
        by_cases inside : l.var.id < seen.size
        · rw [Trail.getD_set_self inside] at still
          cases still
        · rw [Array.getD_eq_getD_getElem?, Array.getElem?_eq_none (by simpa using inside)] at still
          cases still
      · rw [Trail.getD_set_ne here] at still
        have := marked n still
        rw [List.map_cons, List.mem_cons] at this
        refine this.resolve_left fun same => here ?_
        rw [← same]
    obtain ⟨size, unset⟩ := ih _ smaller
    exact ⟨size.trans (Array.size_setIfInBounds ..), unset⟩

theorem WellFormed.markConflict (wf : e.WellFormed live) {seen : Array Bool} {r : ClauseRef}
    (unmarked : Unmarked seen e.trail.varCount) (conflicting : Conflicting live e r)
    (above : 0 < e.trail.depth) :
    ∃ current, current ≠ [] ∧ Analysis.Marked e.trail e.trail.lits.size [] { seen }
      (e.bank.lits r).toList current (Analysis.markClause e { seen } r 0) := by
  have start : Analysis.Tracks e.trail e.trail.lits.size [] { seen } := by
    refine ⟨rfl, by simp, fun v => ?_, unmarked.1, by simp, by simp⟩
    simp [Analysis.isSeen, unmarked.2]
  obtain ⟨current, marked⟩ := start.markClause r 0 wf.trail fun m member => by
    obtain ⟨i, here⟩ := Array.mem_iff_getElem?.mp (conflicting.falsified m (by simpa using member))
    exact ⟨i, (Array.getElem?_eq_some_iff.mp here).1, here⟩
  refine ⟨current, ?_, marked⟩
  obtain ⟨m, member, level⟩ := conflicting.current
  rcases marked.marked m (by simpa using member) with root | known
  · omega
  · rcases List.mem_append.mp known with known | lower
    · exact List.ne_nil_of_mem known
    · have := (marked.tracks.lower_on m (by simpa using lower)).2.2
      omega

/-- A conflict above the root teaches a lesson, and the marks are unset again. -/
theorem WellFormed.analyze_ok (wf : e.WellFormed live) {seen : Array Bool} {minimize : Bool}
    {r : ClauseRef} {lesson : Lesson} {a : Analysis} (unmarked : Unmarked seen e.trail.varCount)
    (conflicting : Conflicting live e r) (above : 0 < e.trail.depth)
    (run : e.analyze minimize seen r = .ok (lesson, a)) :
    Teaches live e lesson ∧ Unmarked a.seen e.trail.varCount := by
  unfold analyze at run
  simp only [bind_ok, pure_ok, Prod.exists, Prod.mk.injEq] at run
  obtain ⟨l, a₁, resolved, rfl, rfl⟩ := run
  obtain ⟨current, left, marked⟩ := wf.markConflict unmarked conflicting above
  have met (m : Lit) (member : m ∈ e.bank.lits r) : e.trail.level m.var = 0 ∨
      m ∈ current ++ (Analysis.markClause e { seen } r 0).lower.toList :=
    marked.marked m (by simpa using member)
  have result := Analysis.resolve_ok wf marked.tracks left (Nat.le_refl _) resolved
  have nodup : a₁.lower.toList.Nodup := by
    have := result.tracks.nodup
    rw [List.nil_append] at this
    exact List.Nodup.of_map _ this
  have entailed (value : Var → Bool) (grounded : e.Grounded live value) :
      Holds value (-l :: a₁.lower.toList) := by
    refine result.entailed value grounded ?_
    obtain ⟨m, member, true_⟩ := grounded.clauses r conflicting.alive
    rw [Array.mem_toList_iff] at member
    rcases met m member with root | known
    · rw [grounded.fails (conflicting.falsified m member) root] at true_
      cases true_
    · exact ⟨m, known, true_⟩
  have on : - -l ∈ e.trail.lits := by rw [Lit.neg_neg]; exact result.on
  have level : e.trail.level (-l).var = e.trail.depth := by rw [Lit.var_neg, result.level_eq]
  constructor
  · split
    · refine teaches_lesson on level ?_ (fun m member => ?_) above fun value grounded => ?_
      · rw [Array.toList_filter]
        exact nodup.filter _
      · exact result.tracks.lower_on m (Array.mem_filter.mp member).1
      · obtain ⟨m, member, true_⟩ := entailed value grounded
        rcases List.mem_cons.mp member with rfl | member
        · exact ⟨_, List.mem_cons_self, true_⟩
        · exact (result.tracks.minimized wf grounded ⟨m, member, true_⟩).mono
            fun q inside => List.mem_cons_of_mem _ inside
    · exact teaches_lesson on level nodup result.tracks.lower_on above entailed
  · rw [← result.tracks.size]
    refine clearMarks_unmarked fun v seen => ?_
    have := (result.tracks.seen_iff v).mp seen
    rw [List.nil_append] at this
    rw [Array.toList_append, List.map_append]
    exact List.mem_append_right _ this

end Engine

end ModelCounting
