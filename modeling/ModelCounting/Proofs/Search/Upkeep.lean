import ModelCounting.Proofs.Search.Backtracking
import ModelCounting.Proofs.Search.Propagation

/-!
Upkeep of the engine. Adding a variable, opening and closing levels, assigning a literal, and
storing or removing a clause keep an engine well-formed and keep the consequences that are drawn.
-/

namespace ModelCounting

namespace ClauseBank

variable {b b' : ClauseBank} {r q : ClauseRef} {lits : Array Lit} {learnt : Bool}

structure Booked (live : ClauseRef → Prop) (b : ClauseBank) : Prop where
  nodup : b.freed.Nodup
  inside : ∀ r ∈ b.freed, r.slot < b.slots.size
  unused : ∀ r ∈ b.freed, ¬ live r

structure Alloc (live : ClauseRef → Prop) (b : ClauseBank) (lits : Array Lit) (r : ClauseRef)
    (b' : ClauseBank) : Prop where
  fresh : ¬ live r
  lits_eq : ∀ q, b'.lits q = if q = r then lits else b.lits q
  booked : b'.Booked fun q => q = r ∨ live q

theorem Booked.alloc {live : ClauseRef → Prop} (booked : b.Booked live)
    (stored : ∀ r, live r → r.slot < b.slots.size) (run : b.alloc lits learnt = (r, b')) :
    b.Alloc live lits r b' := by
  unfold ClauseBank.alloc at run
  split at run
  · rename_i r₀ freed shape
    cases run
    have inside := booked.inside r (by simp [shape])
    have nodup := booked.nodup
    rw [shape] at nodup
    obtain ⟨absent, nodup⟩ := List.nodup_cons.mp nodup
    refine ⟨booked.unused r (by simp [shape]), fun q => ?_, nodup, fun q member => ?_, fun q member => ?_⟩
    · simp only [ClauseBank.lits, get]
      by_cases same : q = r
      · rw [same, Trail.getD_set_self inside, if_pos rfl]
      · rw [if_neg same, Trail.getD_set_ne fun slot => same (ref_ext slot.symm)]
    · rw [Array.size_setIfInBounds]
      exact booked.inside q (by simp [shape, member])
    · rintro (rfl | alive)
      · exact absent member
      · exact booked.unused q (by simp [shape, member]) alive
  · rename_i shape
    cases run
    refine ⟨fun alive => Nat.lt_irrefl _ (stored _ alive), fun q => ?_, by simp [shape], by simp [shape],
      by simp [shape]⟩
    simp only [ClauseBank.lits, get, Array.getD_eq_getD_getElem?, Array.getElem?_push]
    by_cases same : q = ⟨b.slots.size⟩
    · simp [same]
    · have : q.slot ≠ b.slots.size := fun slot => same (ref_ext slot)
      simp [same, this]

theorem lits_free (inside : r.slot < b.slots.size) (q : ClauseRef) :
    (b.free r).lits q = if q = r then #[] else b.lits q := by
  have same := get_modify b r q fun c => { c with lits := #[], activity := 0 }
  change ((b.free r).get q) = _ at same
  rw [ClauseBank.lits, same]
  by_cases here : q = r
  · rw [if_pos ⟨here, inside⟩, if_pos here]
  · rw [if_neg fun h => here h.1, if_neg here]
    rfl

theorem Booked.free {live : ClauseRef → Prop} (booked : b.Booked live) (alive : live r)
    (inside : r.slot < b.slots.size) : (b.free r).Booked fun q => live q ∧ q ≠ r where
  nodup := List.nodup_cons.mpr ⟨fun member => booked.unused r member alive, booked.nodup⟩
  inside q member := by
    simp only [ClauseBank.free, Array.size_modify]
    rcases List.mem_cons.mp member with rfl | member
    · exact inside
    · exact booked.inside q member
  unused q member := by
    rintro ⟨alive', other⟩
    rcases List.mem_cons.mp member with rfl | member
    · exact other rfl
    · exact booked.unused q member alive'

end ClauseBank

namespace Engine

variable {live : ClauseRef → Prop} {e e' : Engine} {l : Lit} {r : ClauseRef} {k n : Nat}

/-! Variables, levels and literals. -/

theorem addVar_watchers (e : Engine) (l : Lit) : e.addVar.watchers l = e.watchers l := by
  unfold watchers addVar
  simp only [Array.getD_eq_getD_getElem?, Array.getElem?_push, Array.size_push]
  grind

theorem WellFormed.addVar (wf : e.WellFormed live) : e.addVar.WellFormed live where
  trail := wf.trail.addVar
  room := by
    change ((e.watches.push #[]).push #[]).size = 2 * e.trail.addVar.varCount
    rw [Trail.addVar_varCount, Array.size_push, Array.size_push, wf.room]
    omega
  stored :=
    { wf.stored with
      inside := fun r l member => by
        change l.var.id < e.trail.addVar.varCount
        rw [Trail.addVar_varCount]
        exact Nat.lt_succ_of_lt (wf.stored.inside r l member) }
  posted := by
    rw [funext (addVar_watchers e)]
    exact wf.posted
  reasoned i l r here reason := by
    change e.trail.addVar.reason l.var = some r at reason
    rw [Trail.addVar_reason] at reason
    exact wf.reasoned i l r here reason

theorem Drawn.addVar (drawn : Drawn live e n) : Drawn live e.addVar n := by
  intro r alive l watched i lt here
  obtain ⟨q, member, on, low⟩ := drawn r alive l watched i lt here
  refine ⟨q, member, on, ?_⟩
  change e.trail.addVar.level q.var ≤ e.trail.addVar.level l.var
  rw [Trail.addVar_level, Trail.addVar_level]
  exact low

theorem WellFormed.openLevel (wf : e.WellFormed live) (settled : e.trail.head = e.trail.lits.size) :
    { e with trail := e.trail.openLevel }.WellFormed live where
  trail := wf.trail.openLevel settled
  room := wf.room
  stored := wf.stored
  posted := wf.posted
  reasoned := wf.reasoned

theorem Drawn.mono {live' : ClauseRef → Prop} (drawn : Drawn live e n) (fewer : ∀ r, live' r → live r)
    (lits_eq : ∀ r, live' r → e'.bank.lits r = e.bank.lits r) (trail : e'.trail = e.trail)
    (le : k ≤ n) : Drawn live' e' k := by
  intro r alive l watched i lt here
  rw [lits_eq r alive, trail] at *
  exact drawn r (fewer r alive) l watched i (Nat.lt_of_lt_of_le lt le) here

theorem WellFormed.assign {reason : Option ClauseRef} (wf : e.WellFormed live)
    (inside : l.var.id < e.trail.varCount)
    (implied : ∀ r, reason = some r → live r ∧ (e.bank.lits r)[0]? = some l ∧
      ∀ m ∈ e.bank.lits r, m ≠ l → -m ∈ e.trail.lits)
    (run : e.assign l reason = .ok e') :
    ∃ t, e' = { e with trail := t } ∧ e'.WellFormed live ∧ e.trail.Assigned l reason t := by
  unfold Engine.assign at run
  split at run
  · rename_i t assigned
    cases run
    obtain ⟨wf', became⟩ := wf.trail.assign inside assigned
    exact ⟨t, rfl, ⟨wf', by rw [became.varCount_eq]; exact wf.room,
      by rw [became.varCount_eq]; exact wf.stored, wf.posted, wf.reasoned.assign became implied⟩, became⟩
  · cases run

theorem Drawn.assign {reason : Option ClauseRef} {t : Trail} (drawn : Drawn live e n)
    (assigned : e.trail.Assigned l reason t) (le : n ≤ e.trail.lits.size) :
    Drawn live { e with trail := t } n := by
  intro r alive m watched i lt here
  have old : e.trail.lits[i]? = some (-m) := by
    have inside : i < e.trail.lits.size := Nat.lt_of_lt_of_le lt le
    rw [← here, Array.getElem?_eq_getElem inside]
    exact (assigned.keeps i _ (Array.getElem?_eq_getElem inside)).symm
  exact (drawn r alive m watched i lt old).grows assigned.toGrows (Array.mem_of_getElem? old)

theorem WellFormed.lower {t : Trail} (wf : e.WellFormed live) (wf' : t.WellFormed)
    (lowered : e.trail.Lowered k t) : { e with trail := t }.WellFormed live where
  trail := wf'
  room := by rw [lowered.varCount_eq]; exact wf.room
  stored := by rw [lowered.varCount_eq]; exact wf.stored
  posted := wf.posted
  reasoned i l r here reason := by
    obtain ⟨here', low⟩ := (lowered.keeps i l).mp here
    rw [lowered.reason_eq l (Array.mem_of_getElem? here)] at reason
    obtain ⟨alive, front, others⟩ := wf.reasoned i l r here' reason
    refine ⟨alive, front, fun m member other => ?_⟩
    obtain ⟨j, before, at_j⟩ := others m member other
    refine ⟨j, before, (lowered.keeps j _).mpr ⟨at_j, ?_⟩⟩
    rw [wf.trail.level_eq j _ at_j]
    rw [wf.trail.level_eq i _ here'] at low
    exact Nat.le_trans (e.trail.levelAt_mono (Nat.le_of_lt before)) low

theorem Drawn.lower {t : Trail} (drawn : Drawn live e n) (lowered : e.trail.Lowered k t)
    (le : t.lits.size ≤ n) : Drawn live { e with trail := t } t.lits.size := by
  intro r alive l watched i lt here
  obtain ⟨here', low⟩ := (lowered.keeps i _).mp here
  obtain ⟨q, member, on, below⟩ := drawn r alive l watched i (Nat.lt_of_lt_of_le lt le) here'
  rw [Lit.var_neg] at low
  refine ⟨q, member, lowered.mem_iff.mpr ⟨on, Nat.le_trans below low⟩, ?_⟩
  rw [lowered.level_eq, lowered.level_eq]
  exact below

/-! Clauses. -/

theorem WellFormed.relits {bank : ClauseBank} (wf : e.WellFormed live)
    (lits_eq : ∀ r, bank.lits r = e.bank.lits r) : { e with bank }.WellFormed live where
  trail := wf.trail
  room := wf.room
  stored := wf.stored.perm fun r => lits_eq r ▸ .refl _
  posted := wf.posted.same (fun r => lits_eq r ▸ .refl _) fun r _ l => by rw [lits_eq]
  reasoned i l r here reason := by
    rw [show ({ e with bank } : Engine).bank.lits r = _ from lits_eq r]
    exact wf.reasoned i l r here reason

theorem Posted.attach {bank bank' : ClauseBank} {lists lists' : Lit → List Watcher} {lits : Array Lit}
    {x y : Lit} (posted : Posted live bank lists) (alloc : bank.Alloc live lits r bank')
    (watched_iff : ∀ m, Watched lits m ↔ m = x ∨ m = y) (apart : x ≠ y)
    (lists_eq : ∀ m, lists' m = if m = -y then lists m ++ [⟨r, x⟩]
      else if m = -x then lists m ++ [⟨r, y⟩] else lists m) :
    Posted (fun q => q = r ∨ live q) bank' lists' := by
  have own : bank'.lits r = lits := by rw [alloc.lits_eq, if_pos rfl]
  have fresh {m : Lit} {w : Watcher} (member : w ∈ lists m) : w.clause ≠ r := fun same =>
    alloc.fresh (same ▸ (posted.watcher m w member).1)
  have x_mem : x ∈ lits := ((watched_iff x).mpr (.inl rfl)).mem
  have y_mem : y ∈ lits := ((watched_iff y).mpr (.inr rfl)).mem
  have neg_ne : -x ≠ -y := fun same => apart (by rw [← Lit.neg_neg x, same, Lit.neg_neg])
  refine posted.repost (r := r) (fun q other => by simp [other])
    (fun q other => by rw [alloc.lits_eq, if_neg other]) (fun m w other => ?_)
    (fun _ m here => ?_) (fun m w member same => ?_) fun m => ?_
  · have : w ≠ ⟨r, x⟩ ∧ w ≠ ⟨r, y⟩ := ⟨fun h => other (h ▸ rfl), fun h => other (h ▸ rfl)⟩
    rw [lists_eq]
    split
    · simp [this]
    · split <;> simp [this]
  · rw [own, watched_iff] at here
    rcases here with rfl | rfl
    · exact ⟨⟨r, y⟩, by simp [lists_eq, neg_ne], rfl⟩
    · exact ⟨⟨r, x⟩, by simp [lists_eq], rfl⟩
  · rw [own, watched_iff]
    rw [lists_eq] at member
    have absent : w ∉ lists m := fun old => fresh old same
    split at member
    · rename_i at_y
      obtain rfl : w = ⟨r, x⟩ := by simpa [absent] using member
      rw [at_y, Lit.neg_neg]
      exact ⟨.inl rfl, .inr rfl, x_mem⟩
    · split at member
      · rename_i at_x
        obtain rfl : w = ⟨r, y⟩ := by simpa [absent] using member
        rw [at_x, Lit.neg_neg]
        exact ⟨.inl rfl, .inl rfl, y_mem⟩
      · exact absurd member absent
  · rw [lists_eq]
    split
    · exact single_append (posted.single m) fun _ => fresh
    · split
      · exact single_append (posted.single m) fun _ => fresh
      · exact posted.single m

theorem Stored.attach {bank bank' : ClauseBank} {lits : Array Lit} (stored : Stored live bank n)
    (alloc : bank.Alloc live lits r bank') (long : 1 < lits.size) (nodup : lits.toList.Nodup)
    (inside : ∀ l ∈ lits, l.var.id < n) : Stored (fun q => q = r ∨ live q) bank' n where
  long q alive := by
    rw [alloc.lits_eq]
    split
    · exact long
    · exact stored.long q (alive.resolve_left ‹_›)
  nodup q alive := by
    rw [alloc.lits_eq]
    split
    · exact nodup
    · exact stored.nodup q (alive.resolve_left ‹_›)
  inside q m member := by
    rw [alloc.lits_eq] at member
    split at member
    · exact inside m member
    · exact stored.inside q m member

theorem attach_watchers {x y : Lit} (room : (-x).code < e.watches.size)
    (room' : (-y).code < e.watches.size) (apart : x ≠ y) (m : Lit) :
    ((e.addWatcher (-x) ⟨r, y⟩).addWatcher (-y) ⟨r, x⟩).watchers m =
      if m = -y then e.watchers m ++ [⟨r, x⟩]
      else if m = -x then e.watchers m ++ [⟨r, y⟩] else e.watchers m := by
  have neg_ne : -y ≠ -x := fun same => apart (by rw [← Lit.neg_neg x, ← same, Lit.neg_neg])
  rw [watchers_addWatcher _ _ _ _ (by simpa [addWatcher] using room'),
    watchers_addWatcher _ _ _ _ room, watchers_addWatcher _ _ _ _ room, if_neg neg_ne]
  by_cases at_y : m = -y
  · rw [if_pos at_y, if_pos at_y, at_y]
  · rw [if_neg at_y, if_neg at_y]
    by_cases at_x : m = -x
    · rw [if_pos at_x, if_pos at_x, at_x]
    · rw [if_neg at_x, if_neg at_x]

theorem WellFormed.attach {bank : ClauseBank} {lits : Array Lit} (wf : e.WellFormed live)
    (alloc : e.bank.Alloc live lits r bank) (nodup : lits.toList.Nodup)
    (inside : ∀ l ∈ lits, l.var.id < e.trail.varCount)
    (run : { e with bank }.attach r = .ok e') :
    1 < lits.size ∧ e'.trail = e.trail ∧ e'.bank = bank ∧ e'.WellFormed fun q => q = r ∨ live q := by
  unfold Engine.attach at run
  have own : bank.lits r = lits := by rw [alloc.lits_eq, if_pos rfl]
  simp only [own] at run
  by_cases long : 1 < lits.size
  · rw [if_pos long] at run
    cases run
    have first_mem : lits.getD 0 default ∈ lits := getD_mem (Nat.lt_of_succ_lt long)
    have second_mem : lits.getD 1 default ∈ lits := getD_mem long
    have apart : lits.getD 0 default ≠ lits.getD 1 default := fun same =>
      absurd (getD_inj nodup (Nat.lt_of_succ_lt long) long same) (by decide)
    have room {m : Lit} (member : m ∈ lits) : (-m).code < ({ e with bank } : Engine).watches.size := by
      change _ < e.watches.size
      rw [wf.room]
      exact code_lt (by rw [Lit.var_neg]; exact inside m member)
    refine ⟨long, rfl, rfl, wf.trail, ?_, wf.stored.attach alloc long nodup inside, ?_, ?_⟩
    · simpa [addWatcher] using wf.room
    · exact wf.posted.attach alloc (fun m => watched_iff long) apart
        (attach_watchers (room first_mem) (room second_mem) apart)
    · intro i m q here reason
      obtain ⟨alive, front, others⟩ := wf.reasoned i m q here reason
      have other : q ≠ r := fun same => alloc.fresh (same ▸ alive)
      change _ ∧ (bank.lits q)[0]? = _ ∧ ∀ p ∈ bank.lits q, _
      rw [alloc.lits_eq, if_neg other]
      exact ⟨.inr alive, front, others⟩
  · rw [if_neg long] at run
    cases run

/-- A stored clause whose first literal is made true, while the second is unassigned or false at the
current level, has no consequences to draw. -/
theorem Drawn.learn {lits : Array Lit} {reason : Option ClauseRef} (drawn : Drawn live e n)
    (wf : e.trail.WellFormed) (le : n ≤ e.trail.lits.size)
    (lits_eq : ∀ q, e'.bank.lits q = if q = r then lits else e.bank.lits q)
    (assigned : e.trail.Assigned (lits.getD 0 default) reason e'.trail) (long : 1 < lits.size)
    (second : e.trail.level (lits.getD 1 default).var = e.trail.depth) :
    Drawn (fun q => q = r ∨ live q) e' n := by
  intro q alive l watched i lt here
  have old : e.trail.lits[i]? = some (-l) := by
    have at_i := Array.getElem?_eq_getElem (Nat.lt_of_lt_of_le lt le)
    rw [← here, at_i]
    exact (assigned.keeps i _ at_i).symm
  have falsified := Array.mem_of_getElem? old
  rw [lits_eq] at watched ⊢
  split at watched
  · rename_i same
    rw [if_pos same]
    rcases (watched_iff long).mp watched with rfl | rfl
    · exact absurd (Lit.var_neg _)
        ((wf.undef_iff _).mp assigned.unassigned _ falsified)
    · refine ⟨_, getD_mem (Nat.lt_of_succ_lt long), assigned.mem, ?_⟩
      have kept := assigned.level_eq _ falsified
      rw [Lit.var_neg] at kept
      refine Nat.le_of_eq ?_
      rw [assigned.level_self, kept, second]
  · rename_i other
    rw [if_neg other]
    exact (drawn q (alive.resolve_left other) l watched i lt old).grows assigned.toGrows falsified

theorem dropWatchers_watchers (e : Engine) (l : Lit) (r : ClauseRef) (m : Lit) :
    (e.dropWatchers l r).watchers m =
      if m = l then (e.watchers m).filter (·.clause ≠ r) else e.watchers m := by
  simp only [watchers, dropWatchers, Array.getD_eq_getD_getElem?, Array.getElem?_modify]
  by_cases same : m = l
  · subst same
    rw [if_pos rfl, if_pos rfl]
    cases e.watches[m.code]? <;> simp
  · have : l.code ≠ m.code := fun h => same (by cases l; cases m; simp_all)
    rw [if_neg this, if_neg same]

theorem dropWatchers_sublist (e : Engine) (l : Lit) (r : ClauseRef) (m : Lit) :
    ((e.dropWatchers l r).watchers m).Sublist (e.watchers m) := by
  rw [dropWatchers_watchers]
  split
  · exact List.filter_sublist
  · exact List.Sublist.refl _

theorem WellFormed.reason_ne {i : Nat} {q : ClauseRef} (wf : e.WellFormed live)
    (unlocked : e.locked r = false) (here : e.trail.lits[i]? = some l)
    (reason : e.trail.reason l.var = some q) : q ≠ r := by
  rintro rfl
  have first : (e.bank.lits q).getD 0 default = l := by
    rw [Array.getD_eq_getD_getElem?, (wf.reasoned i l q here reason).2.1]
    rfl
  simp only [locked, first] at unlocked
  rw [(wf.trail.true_iff l).mpr (Array.mem_of_getElem? here), reason] at unlocked
  simp at unlocked

theorem WellFormed.remove (wf : e.WellFormed live) (alive : live r) (unlocked : e.locked r = false) :
    (e.remove r).WellFormed (fun q => live q ∧ q ≠ r) ∧ (e.remove r).trail = e.trail ∧
      (e.remove r).bank = e.bank.free r := by
  have trail : (e.remove r).trail = e.trail := by
    unfold Engine.remove
    rw [unlocked]
    rfl
  have bank : (e.remove r).bank = e.bank.free r := by
    unfold Engine.remove
    rw [unlocked]
    rfl
  have room : (e.remove r).watches.size = e.watches.size := by
    unfold Engine.remove
    rw [unlocked]
    simp [detach, dropWatchers]
  have long := wf.stored.long r alive
  have slot := ClauseBank.slot_lt (Nat.lt_of_succ_lt long)
  have lits_other (q : ClauseRef) (other : q ≠ r) : (e.remove r).bank.lits q = e.bank.lits q := by
    rw [bank, ClauseBank.lits_free slot, if_neg other]
  have lists (m : Lit) : (e.remove r).watchers m = (e.detach r).watchers m := by
    unfold Engine.remove
    rw [unlocked]
    rfl
  -- The watchers of the clause are in the two lists that are filtered, and in no other.
  have stays (m : Lit) (w : Watcher) :
      w ∈ (e.remove r).watchers m ↔ w ∈ e.watchers m ∧ w.clause ≠ r := by
    rw [lists, detach, dropWatchers_watchers, dropWatchers_watchers]
    by_cases other : w.clause = r
    · have absent : w ∈ e.watchers m →
          m = -(e.bank.lits r).getD 0 default ∨ m = -(e.bank.lits r).getD 1 default := by
        intro member
        have watched := (wf.posted.watcher m w member).2.1
        rw [other, watched_iff long] at watched
        exact watched.imp (fun h => by rw [← h, Lit.neg_neg]) fun h => by rw [← h, Lit.neg_neg]
      grind
    · grind
  refine ⟨⟨trail ▸ wf.trail, by rw [room, trail]; exact wf.room, ?_, ?_, ?_⟩, trail, bank⟩
  · refine ⟨fun q alive' => ?_, fun q alive' => ?_, fun q m member => ?_⟩
    · rw [lits_other q alive'.2]
      exact wf.stored.long q alive'.1
    · rw [lits_other q alive'.2]
      exact wf.stored.nodup q alive'.1
    · rw [trail]
      by_cases same : q = r
      · rw [bank, ClauseBank.lits_free slot, if_pos same] at member
        simp at member
      · rw [lits_other q same] at member
        exact wf.stored.inside q m member
  · refine wf.posted.repost (r := r) (fun q other => and_iff_left other) lits_other
      (fun m w other => (stays m w).trans (and_iff_left other)) (fun alive' => absurd rfl alive'.2)
      (fun m w member same => absurd same ((stays m w).mp member).2) fun m => ?_
    rw [lists]
    have fewer : ((e.detach r).watchers m).Sublist (e.watchers m) :=
      (dropWatchers_sublist _ _ r m).trans (dropWatchers_sublist e _ r m)
    exact (wf.posted.single m).sublist (fewer.map _)
  · rw [trail]
    intro i m q here reason
    obtain ⟨alive', front, others⟩ := wf.reasoned i m q here reason
    have other := wf.reason_ne unlocked here reason
    rw [lits_other q other]
    exact ⟨⟨alive', other⟩, front, others⟩

end Engine

end ModelCounting
