import ModelCounting.Proofs.Search.Trail

/-!
The clause bank and the watch lists. Each clause in use is watched exactly at its first two
literals, and each assigned literal that has a reason is the first literal of that clause, whose
other literals became false before it.
-/

namespace ModelCounting

namespace ClauseBank

variable {b : ClauseBank} {q r : ClauseRef} {lits : Array Lit}

theorem ref_ext {q r : ClauseRef} (same : q.slot = r.slot) : q = r := by
  cases q
  cases r
  exact congrArg ClauseRef.mk same

theorem get_modify (b : ClauseBank) (r q : ClauseRef) (change : Clause → Clause) :
    ({ b with slots := b.slots.modify r.slot change } : ClauseBank).get q =
      if q = r ∧ r.slot < b.slots.size then change (b.get q) else b.get q := by
  simp only [get, Array.getD_eq_getD_getElem?, Array.getElem?_modify]
  by_cases same : r.slot = q.slot
  · obtain rfl := ref_ext same
    by_cases inside : r.slot < b.slots.size
    · simp [inside]
    · simp [inside]
  · have : q ≠ r := fun h => same (by rw [h])
    simp [same, this]

theorem lits_setLits (b : ClauseBank) (r : ClauseRef) (lits : Array Lit) (q : ClauseRef) :
    (b.setLits r lits).lits q = if q = r ∧ r.slot < b.slots.size then lits else b.lits q := by
  rw [ClauseBank.lits, setLits, get_modify]
  split <;> rfl

theorem slot_lt (filled : 0 < (b.lits r).size) : r.slot < b.slots.size := by
  by_contra outside
  simp only [ClauseBank.lits, get, Array.getD_eq_getD_getElem?] at filled
  rw [Array.getElem?_eq_none (Nat.le_of_not_lt outside)] at filled
  exact absurd filled (by decide)

end ClauseBank

def Watched (lits : Array Lit) (l : Lit) : Prop := lits[0]? = some l ∨ lits[1]? = some l

theorem Watched.mem {lits : Array Lit} {l : Lit} (watched : Watched lits l) : l ∈ lits := by
  rcases watched with here | here <;> exact Array.mem_of_getElem? here

namespace Engine

variable {live : ClauseRef → Prop} {e : Engine} {t : Trail}

def Ranged (e : Engine) : Prop := ∀ r, ∀ l ∈ e.bank.lits r, l.var.id < e.trail.varCount

structure Stored (live : ClauseRef → Prop) (bank : ClauseBank) (varCount : Nat) : Prop where
  long : ∀ r, live r → 1 < (bank.lits r).size
  nodup : ∀ r, live r → (bank.lits r).toList.Nodup
  inside : ∀ r, ∀ l ∈ bank.lits r, l.var.id < varCount

/-- Watch lists that agree with the bank: a clause in use has one watcher in the list of the
complement of each of its two watched literals, and there are no other watchers. -/
structure Posted (live : ClauseRef → Prop) (bank : ClauseBank) (lists : Lit → List Watcher) :
    Prop where
  watched : ∀ r, live r → ∀ l, Watched (bank.lits r) l → ∃ w ∈ lists (-l), w.clause = r
  watcher : ∀ l, ∀ w ∈ lists l,
    live w.clause ∧ Watched (bank.lits w.clause) (-l) ∧ w.blocker ∈ bank.lits w.clause
  single : ∀ l, ((lists l).map (·.clause)).Nodup

def Reasoned (live : ClauseRef → Prop) (bank : ClauseBank) (t : Trail) : Prop :=
  ∀ (i : Nat) (l : Lit) (r : ClauseRef), t.lits[i]? = some l → t.reason l.var = some r →
    live r ∧ (bank.lits r)[0]? = some l ∧
      ∀ m ∈ bank.lits r, m ≠ l → ∃ j < i, t.lits[j]? = some (-m)

def watchers (e : Engine) (l : Lit) : List Watcher := (e.watches.getD l.code #[]).toList

structure WellFormed (live : ClauseRef → Prop) (e : Engine) : Prop where
  trail : e.trail.WellFormed
  room : e.watches.size = 2 * e.trail.varCount
  stored : Stored live e.bank e.trail.varCount
  posted : Posted live e.bank e.watchers
  reasoned : Reasoned live e.bank e.trail

def Satisfied (t : Trail) (lits : Array Lit) (l : Lit) : Prop :=
  ∃ q ∈ lits, q ∈ t.lits ∧ t.level q.var ≤ t.level l.var

def Drawn (live : ClauseRef → Prop) (e : Engine) (n : Nat) : Prop :=
  ∀ r, live r → ∀ l, Watched (e.bank.lits r) l → ∀ i < n, e.trail.lits[i]? = some (-l) →
    Satisfied e.trail (e.bank.lits r) l

/-! Changes of the watch lists. -/

/-- Watch lists in which only the watchers of one clause change. -/
theorem Posted.repost {live' : ClauseRef → Prop} {bank bank' : ClauseBank}
    {lists lists' : Lit → List Watcher} {r : ClauseRef} (posted : Posted live bank lists)
    (alive : ∀ q ≠ r, live' q ↔ live q) (lits_eq : ∀ q ≠ r, bank'.lits q = bank.lits q)
    (others : ∀ l w, w.clause ≠ r → (w ∈ lists' l ↔ w ∈ lists l))
    (watched : live' r → ∀ l, Watched (bank'.lits r) l → ∃ w ∈ lists' (-l), w.clause = r)
    (watcher : ∀ l, ∀ w ∈ lists' l, w.clause = r →
      live' r ∧ Watched (bank'.lits r) (-l) ∧ w.blocker ∈ bank'.lits r)
    (single : ∀ l, ((lists' l).map (·.clause)).Nodup) : Posted live' bank' lists' where
  watched q alive' l here := by
    by_cases same : q = r
    · subst same
      exact watched alive' l here
    · rw [lits_eq q same] at here
      obtain ⟨w, member, clause⟩ := posted.watched q ((alive q same).mp alive') l here
      exact ⟨w, (others _ w (clause ▸ same)).mpr member, clause⟩
  watcher l w member := by
    by_cases same : w.clause = r
    · rw [same]
      exact watcher l w member same
    · obtain ⟨alive', here, blocker⟩ := posted.watcher l w ((others l w same).mp member)
      rw [lits_eq _ same]
      exact ⟨(alive _ same).mpr alive', here, blocker⟩
  single := single

theorem single_append {ws : List Watcher} {w : Watcher} (single : (ws.map (·.clause)).Nodup)
    (fresh : ∀ w' ∈ ws, w'.clause ≠ w.clause) : ((ws ++ [w]).map (·.clause)).Nodup := by
  rw [List.map_append, List.nodup_append]
  refine ⟨single, by simp, fun q member q' last same => ?_⟩
  obtain ⟨w', inside, rfl⟩ := List.mem_map.mp member
  exact fresh w' inside (same.trans (by simpa using last))

/-! The order of the literals in a clause. -/

theorem swap_perm (lits : Array Lit) (i j : Nat) : (lits.swapIfInBounds i j).Perm lits := by
  unfold Array.swapIfInBounds
  split
  · split
    · exact Array.swap_perm ..
    · exact Array.Perm.refl _
  · exact Array.Perm.refl _

theorem orient_perm (f : Lit) (lits : Array Lit) : (orient f lits).Perm lits := by
  unfold orient
  split
  · exact swap_perm lits 0 1
  · exact Array.Perm.refl _

theorem getD_mem {lits : Array Lit} {i : Nat} (inside : i < lits.size) :
    lits.getD i default ∈ lits := by
  simp [Array.getD, inside]

theorem getElem?_getD {lits : Array Lit} {i : Nat} (inside : i < lits.size) :
    lits[i]? = some (lits.getD i default) := by
  simp [Array.getD, inside]

theorem orient_watched {f : Lit} {lits : Array Lit} (long : 1 < lits.size) (l : Lit) :
    Watched (orient f lits) l ↔ Watched lits l := by
  unfold orient Watched
  split
  · rw [Array.swapIfInBounds, dif_pos (by omega), dif_pos long]
    grind
  · rfl

theorem findUnfalsified_some {lits : Array Lit} {n k p : Nat}
    (found : findUnfalsified t lits n k = some p) :
    k ≤ p ∧ p < k + n ∧ t.value (lits.getD p default) ≠ .fls := by
  induction n generalizing k with
  | zero => simp [findUnfalsified] at found
  | succ n ih =>
    unfold findUnfalsified at found
    split at found
    · rename_i unfalsified
      cases found
      exact ⟨Nat.le_refl _, by omega, unfalsified⟩
    · obtain ⟨above, below, unfalsified⟩ := ih found
      exact ⟨by omega, by omega, unfalsified⟩

theorem findUnfalsified_none {lits : Array Lit} {n k : Nat}
    (missing : findUnfalsified t lits n k = none) {p : Nat} (above : k ≤ p) (below : p < k + n) :
    t.value (lits.getD p default) = .fls := by
  induction n generalizing k with
  | zero => omega
  | succ n ih =>
    unfold findUnfalsified at missing
    split at missing
    · cases missing
    · rename_i falsified
      by_cases here : p = k
      · subst here
        exact not_not.mp falsified
      · exact ih missing (by omega) (by omega)

theorem replacement_some {lits : Array Lit} {p : Nat} (found : replacement? t lits = some p) :
    2 ≤ p ∧ p < lits.size ∧ t.value (lits.getD p default) ≠ .fls := by
  obtain ⟨above, below, unfalsified⟩ := findUnfalsified_some found
  exact ⟨above, by omega, unfalsified⟩

theorem replacement_none {lits : Array Lit} (missing : replacement? t lits = none) {p : Nat}
    (above : 2 ≤ p) (below : p < lits.size) : t.value (lits.getD p default) = .fls :=
  findUnfalsified_none missing above (by omega)

end Engine

end ModelCounting
