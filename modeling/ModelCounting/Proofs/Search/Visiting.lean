import Mathlib.Data.List.Nodup
import ModelCounting.Proofs.Search.Watching

/-!
Looking at watchers. A watcher that is looked at is kept, moves to another literal of its clause,
makes the one literal left true, or finds the clause in conflict; what every step keeps, visiting
the watchers of a literal keeps. On a well-formed engine it never fails.
-/

namespace ModelCounting

namespace Engine

/-- What becomes of a watcher that was looked at. -/
inductive Verdict where
  | stays (w : Watcher)
  /-- It went to the list of another literal. -/
  | leaves
  | conflict (w : Watcher)

/-- Looks at one watcher of a literal whose complement `falseLit` became false. -/
def look (falseLit : Lit) (w : Watcher) (e : Engine) : Except Fault (Verdict × Engine) :=
  if e.trail.value w.blocker = .tru then .ok (.stays w, e)
  else
    let lits := orient falseLit (e.bank.lits w.clause)
    if lits.getD 1 default ≠ falseLit then .error .assertion
    else
      let first := lits.getD 0 default
      let renewed : Watcher := ⟨w.clause, first⟩
      if first ≠ w.blocker ∧ e.trail.value first = .tru then
        .ok (.stays renewed, e.setLits w.clause lits)
      else match replacement? e.trail lits with
        | some k =>
          let lits := lits.swapIfInBounds 1 k
          .ok (.leaves, (e.setLits w.clause lits).addWatcher (-lits.getD 1 default) renewed)
        | none =>
          let e := e.setLits w.clause lits
          if e.trail.value first = .fls then
            .ok (.conflict renewed, { e with trail.head := e.trail.lits.size })
          else match e.assign first (some w.clause) with
            | .ok e => .ok (.stays renewed, e)
            | .error fault => .error fault

/-- Visiting a list of watchers looks at its first one, and goes on unless there is a conflict. -/
theorem visit_cons (f : Lit) (w : Watcher) (ws : List Watcher) (kept : Array Watcher) (e : Engine) :
    visit f (w :: ws) kept e = match look f w e with
      | .ok (.stays w', e) => visit f ws (kept.push w') e
      | .ok (.leaves, e) => visit f ws kept e
      | .ok (.conflict w', e) => .ok (some w.clause, kept.push w' ++ ws, e)
      | .error fault => .error fault := by
  unfold look
  rw [visit]
  split
  · rfl
  simp only
  split
  · rfl
  split
  · rfl
  cases replacement? e.trail (orient f (e.bank.lits w.clause)) with
  | some k => rfl
  | none =>
    simp only
    split
    · rfl
    · cases Engine.assign _ _ _ <;> rfl

/-- An engine after propagating: the trail has grown by literals that have reasons, and the clauses
are the same up to the order of their literals. -/
structure Spread (e e' : Engine) : Prop where
  grows : e.trail.Grows e'.trail
  implied : ∀ l ∈ e'.trail.lits, l ∈ e.trail.lits ∨ e'.trail.reason l.var ≠ none
  perm : ∀ r, (e'.bank.lits r).Perm (e.bank.lits r)
  learnt : ∀ r, (e'.bank.get r).learnt = (e.bank.get r).learnt
  slots : e'.bank.slots.size = e.bank.slots.size
  freed : e'.bank.freed = e.bank.freed
  room : e'.watches.size = e.watches.size

variable {live due : ClauseRef → Prop} {e e' e'' : Engine} {f l : Lit} {w : Watcher} {v : Verdict}

theorem Spread.refl (e : Engine) : e.Spread e where
  grows := .refl _
  implied _ member := .inl member
  perm _ := .refl _
  learnt _ := rfl
  slots := rfl
  freed := rfl
  room := rfl

theorem Spread.trans (first : e.Spread e') (second : e'.Spread e'') : e.Spread e'' where
  grows := first.grows.trans second.grows
  implied l member := by
    rcases second.implied l member with member | reason
    · rcases first.implied l member with member' | reason
      · exact .inl member'
      · exact .inr (by rwa [second.grows.reason_eq l member])
    · exact .inr reason
  perm r := (second.perm r).trans (first.perm r)
  learnt r := (second.learnt r).trans (first.learnt r)
  slots := second.slots.trans first.slots
  freed := second.freed.trans first.freed
  room := second.room.trans first.room

theorem Spread.ranged (spread : e.Spread e') (ranged : e.Ranged) : e'.Ranged := by
  intro r l member
  rw [spread.grows.varCount_eq]
  exact ranged r l ((spread.perm r).mem_iff.mp member)

theorem setLits_spread {r : ClauseRef} {lits : Array Lit} (perm : lits.Perm (e.bank.lits r)) :
    e.Spread (e.setLits r lits) where
  grows := .refl _
  implied _ member := .inl member
  perm q := by
    change ((e.bank.setLits r lits).lits q).Perm _
    rw [ClauseBank.lits_setLits]
    split
    · rename_i here
      rwa [here.1]
    · exact .refl _
  learnt q := by
    change ((e.bank.setLits r lits).get q).learnt = _
    rw [ClauseBank.setLits, ClauseBank.get_modify]
    split <;> rfl
  slots := by simp [setLits, ClauseBank.setLits]
  freed := rfl
  room := rfl

theorem assign_spread {reason : ClauseRef} (assigned : e.trail.Assigned l (some reason) e'.trail)
    (bank : e'.bank = e.bank) (room : e'.watches.size = e.watches.size) : e.Spread e' where
  grows := assigned.toGrows
  implied m member := by
    rcases assigned.mem_iff.mp member with old | rfl
    · exact .inl old
    · exact .inr (by simp [assigned.reason_self])
  perm _ := by rw [bank]
  learnt _ := by rw [bank]
  slots := by rw [bank]
  freed := by rw [bank]
  room := room

theorem look_spread (wf : e.trail.WellFormed) (ranged : e.Ranged) (falsified : -f ∈ e.trail.lits)
    (run : look f w e = .ok (v, e')) :
    e'.trail.WellFormed ∧ e.Spread e' ∧
      ((∀ w', v ≠ .conflict w') → e'.trail.head = e.trail.head) ∧
      ((∃ w', v = .conflict w') → e'.trail.head = e'.trail.lits.size) := by
  unfold look at run
  split at run
  · cases run
    exact ⟨wf, .refl e, fun _ => rfl, by simp⟩
  simp only at run
  split at run
  · simp at run
  rename_i second
  have second := not_not.mp second
  have perm := orient_perm f (e.bank.lits w.clause)
  generalize orient f (e.bank.lits w.clause) = lits at run second perm
  have spread := setLits_spread perm
  split at run
  · cases run
    exact ⟨wf, spread, fun _ => rfl, by simp⟩
  split at run
  · rename_i k found
    cases run
    have perm' := (swap_perm lits 1 k).trans perm
    have spread' := setLits_spread perm'
    refine ⟨wf, ⟨spread'.grows, spread'.implied, spread'.perm, spread'.learnt, spread'.slots,
      spread'.freed, by simp [addWatcher, setLits]⟩, fun _ => rfl, by simp⟩
  · split at run
    · cases run
      refine ⟨wf.skip, ?_, by simp, fun _ => rfl⟩
      exact ⟨⟨rfl, rfl, fun _ _ h => h, fun _ _ => rfl, fun _ _ => rfl⟩, fun _ h => .inl h,
        spread.perm, spread.learnt, spread.slots, spread.freed, spread.room⟩
    · rename_i unfalsified
      split at run
      · rename_i e₁ assigned
        cases run
        -- An empty clause reads as holding the false literal in every place.
        have inside : (lits.getD 0 default).var.id < e.trail.varCount := by
          by_cases filled : 0 < lits.size
          · exact ranged w.clause _ (perm.mem_iff.mp (getD_mem filled))
          · have empty : ∀ i, lits.getD i default = default := by
              intro i
              simp only [Array.getD_eq_getD_getElem?]
              rw [Array.getElem?_eq_none (by omega)]
              rfl
            rw [empty] at second
            refine absurd ?_ unfalsified
            rw [empty, second]
            exact (wf.false_iff f).mpr falsified
        unfold assign at assigned
        split at assigned
        · rename_i trail placed
          cases assigned
          obtain ⟨wf', became⟩ := wf.assign inside placed
          have assigned : (e.setLits w.clause lits).Spread { e.setLits w.clause lits with trail } :=
            assign_spread became rfl rfl
          exact ⟨wf', spread.trans assigned, fun _ => became.head_eq, by simp⟩
        · simp at assigned
      · simp at run

theorem visit_spread {ws : List Watcher} {kept kept' : Array Watcher}
    {conflict : Option ClauseRef} (wf : e.trail.WellFormed) (ranged : e.Ranged)
    (falsified : -f ∈ e.trail.lits) (run : visit f ws kept e = .ok (conflict, kept', e')) :
    e'.trail.WellFormed ∧ e.Spread e' ∧
      (conflict = none → e'.trail.head = e.trail.head) ∧
      (conflict ≠ none → e'.trail.head = e'.trail.lits.size) := by
  induction ws generalizing kept e with
  | nil =>
    cases run
    exact ⟨wf, .refl _, fun _ => rfl, by simp⟩
  | cons w ws ih =>
    rw [visit_cons] at run
    split at run
    · rename_i w' e₁ looked
      obtain ⟨wf₁, first, head, _⟩ := look_spread wf ranged falsified looked
      obtain ⟨wf', rest, same, ends⟩ := ih wf₁ (first.ranged ranged)
        (first.grows.mem falsified) run
      exact ⟨wf', first.trans rest, fun h => (same h).trans (head (by simp)), ends⟩
    · rename_i e₁ looked
      obtain ⟨wf₁, first, head, _⟩ := look_spread wf ranged falsified looked
      obtain ⟨wf', rest, same, ends⟩ := ih wf₁ (first.ranged ranged)
        (first.grows.mem falsified) run
      exact ⟨wf', first.trans rest, fun h => (same h).trans (head (by simp)), ends⟩
    · rename_i w' e₁ looked
      cases run
      obtain ⟨wf₁, first, _, ends⟩ := look_spread wf ranged falsified looked
      exact ⟨wf₁, first, by simp, fun _ => ends ⟨w', rfl⟩⟩
    · simp at run

/-! Rearranging the literals of a clause. -/

section Rearranging

variable {bank bank' : ClauseBank} {t t' : Trail} {lists : Lit → List Watcher} {r : ClauseRef}
  {lits : Array Lit} {n : Nat}

theorem Stored.perm (stored : Stored live bank n)
    (perm : ∀ r, (bank'.lits r).Perm (bank.lits r)) : Stored live bank' n where
  long r alive := by rw [(perm r).size_eq]; exact stored.long r alive
  nodup r alive := (perm r).toList.nodup_iff.mpr (stored.nodup r alive)
  inside r l member := stored.inside r l ((perm r).mem_iff.mp member)

theorem Stored.setLits_eq (stored : Stored live bank n) (alive : live r) (q : ClauseRef) :
    (bank.setLits r lits).lits q = if q = r then lits else bank.lits q := by
  have slot := ClauseBank.slot_lt (Nat.lt_of_succ_lt (stored.long r alive))
  rw [ClauseBank.lits_setLits]
  simp [slot]

theorem Reasoned.perm (reasoned : Reasoned live bank t)
    (perm : ∀ r, (bank'.lits r).Perm (bank.lits r))
    (first : ∀ r, ∀ l ∈ t.lits, live r → (bank.lits r)[0]? = some l → t.reason l.var = some r →
      (bank'.lits r)[0]? = some l) : Reasoned live bank' t := by
  intro i l r here reason
  obtain ⟨alive, front, rest⟩ := reasoned i l r here reason
  exact ⟨alive, first r l (Array.mem_of_getElem? here) alive front reason,
    fun m member => rest m ((perm r).mem_iff.mp member)⟩

theorem Reasoned.assign {reason : Option ClauseRef} (reasoned : Reasoned live bank t)
    (assigned : t.Assigned l reason t')
    (implied : ∀ r, reason = some r → live r ∧ (bank.lits r)[0]? = some l ∧
      ∀ m ∈ bank.lits r, m ≠ l → -m ∈ t.lits) : Reasoned live bank t' := by
  intro i m r here because
  have here' := here
  rw [assigned.lits_eq, Array.getElem?_push] at here'
  split at here'
  · rename_i ends
    obtain rfl : l = m := Option.some.inj here'
    obtain ⟨alive, front, others⟩ := implied r (assigned.reason_self.symm.trans because)
    refine ⟨alive, front, fun q member other => ?_⟩
    obtain ⟨j, at_j⟩ := Array.mem_iff_getElem?.mp (others q member other)
    exact ⟨j, ends ▸ (Array.getElem?_eq_some_iff.mp at_j).1, assigned.keeps j _ at_j⟩
  · rw [assigned.reason_eq m (Array.mem_of_getElem? here')] at because
    obtain ⟨alive, front, others⟩ := reasoned i m r here' because
    refine ⟨alive, front, fun q member other => ?_⟩
    obtain ⟨j, before, at_j⟩ := others q member other
    exact ⟨j, before, assigned.keeps j _ at_j⟩

theorem Posted.same (posted : Posted live bank lists)
    (perm : ∀ r, (bank'.lits r).Perm (bank.lits r))
    (same : ∀ r, live r → ∀ l, Watched (bank'.lits r) l ↔ Watched (bank.lits r) l) :
    Posted live bank' lists where
  watched r alive l watched := posted.watched r alive l ((same r alive l).mp watched)
  watcher l w member := by
    obtain ⟨alive, watched, blocker⟩ := posted.watcher l w member
    exact ⟨alive, (same _ alive _).mpr watched, (perm _).mem_iff.mpr blocker⟩
  single := posted.single

theorem Satisfied.perm {lits' : Array Lit} (perm : lits'.Perm lits) {l : Lit}
    (satisfied : Satisfied t lits l) : Satisfied t lits' l := by
  obtain ⟨q, member, on, low⟩ := satisfied
  exact ⟨q, perm.mem_iff.mpr member, on, low⟩

theorem Satisfied.grows {l : Lit} (satisfied : Satisfied t lits l) (grows : t.Grows t')
    (falsified : -l ∈ t.lits) : Satisfied t' lits l := by
  obtain ⟨q, member, on, low⟩ := satisfied
  refine ⟨q, member, grows.mem on, ?_⟩
  have := grows.level_eq _ falsified
  rw [Lit.var_neg] at this
  rw [grows.level_eq q on, this]
  exact low

end Rearranging

/-- The engine while the watchers of the literal at `place` are looked at, when their list reads as
given. -/
structure Opened (live : ClauseRef → Prop) (l : Lit) (place : Nat) (list : List Watcher)
    (e : Engine) : Prop where
  trail : e.trail.WellFormed
  room : e.watches.size = 2 * e.trail.varCount
  stored : Stored live e.bank e.trail.varCount
  posted : Posted live e.bank fun m => if m = l then list else e.watchers m
  reasoned : Reasoned live e.bank e.trail
  here : e.trail.lits[place]? = some l
  top : ∀ n ∈ e.trail.starts, n ≤ place

/-- A list of watchers is being visited: those in `kept` were looked at and stay, those in `pending`
are still to be looked at. The clauses that are due have no other consequences to draw. -/
structure Visiting (live due : ClauseRef → Prop) (l : Lit) (place : Nat) (pending : List Watcher)
    (kept : Array Watcher) (e : Engine) : Prop
    extends Opened live l place (kept.toList ++ pending) e where
  owed : ∀ r, due r → live r
  drawn : ∀ r, due r → ∀ m, Watched (e.bank.lits r) m → ∀ i ≤ place,
    e.trail.lits[i]? = some (-m) →
      Satisfied e.trail (e.bank.lits r) m ∨ i = place ∧ ∃ w ∈ pending, w.clause = r

theorem watched_iff {lits : Array Lit} {m : Lit} (long : 1 < lits.size) :
    Watched lits m ↔ m = lits.getD 0 default ∨ m = lits.getD 1 default := by
  simp only [Watched, getElem?_getD (Nat.lt_of_succ_lt long), getElem?_getD long, Option.some.injEq,
    eq_comm]

theorem orient_second {lits : Array Lit} (long : 1 < lits.size) (watched : Watched lits f) :
    (orient f lits).getD 1 default = f := by
  unfold orient
  rw [watched_iff long] at watched
  by_cases first : lits.getD 0 default = f
  · have front := Array.getElem?_eq_some_iff.mp
      (first ▸ getElem?_getD (Nat.lt_of_succ_lt long) : lits[0]? = some f)
    rw [if_pos first, Array.swapIfInBounds, dif_pos front.1, dif_pos long,
      Array.getD_eq_getD_getElem?, Array.getElem?_swap]
    simp [front.2]
  · rw [if_neg first]
    exact (watched.resolve_left fun h => first h.symm).symm

theorem orient_same {lits : Array Lit} {m : Lit} (first : lits[0]? = some m) (other : m ≠ f) :
    orient f lits = lits := by
  unfold orient
  rw [if_neg]
  intro h
  apply other
  rw [← h, Array.getD_eq_getD_getElem?, first]
  rfl

theorem getD_inj {lits : Array Lit} (nodup : lits.toList.Nodup) {i j : Nat} (hi : i < lits.size)
    (hj : j < lits.size) (same : lits.getD i default = lits.getD j default) : i = j := by
  simp only [Array.getD, hi, hj, dif_pos] at same
  exact (nodup.getElem_inj_iff).mp same

namespace Opened

variable {place : Nat} {list ws : List Watcher} {kept : Array Watcher}

theorem on_trail (opened : Opened live l place list e) : l ∈ e.trail.lits :=
  Array.mem_of_getElem? opened.here

theorem place_lt (opened : Opened live l place list e) : place < e.trail.lits.size :=
  (Array.getElem?_eq_some_iff.mp opened.here).1

theorem level_eq (opened : Opened live l place list e) :
    e.trail.level l.var = e.trail.depth := by
  rw [opened.trail.level_eq place l opened.here]
  have all : e.trail.starts.toList.countP (· ≤ place) = e.trail.starts.toList.length := by
    rw [List.countP_eq_length]
    intro n member
    simpa using opened.top n (by simpa using member)
  simpa [Trail.levelAt, Trail.depth] using all

theorem satisfied (opened : Opened live l place list e) {lits : Array Lit} {q : Lit}
    (member : q ∈ lits) (true_ : e.trail.value q = .tru) : Satisfied e.trail lits (-l) := by
  have on := (opened.trail.true_iff q).mp true_
  refine ⟨q, member, on, ?_⟩
  rw [Lit.var_neg, opened.level_eq]
  exact opened.trail.level_le_depth on

theorem watcher (opened : Opened live l place (kept.toList ++ w :: ws) e) :
    live w.clause ∧ Watched (e.bank.lits w.clause) (-l) ∧ w.blocker ∈ e.bank.lits w.clause :=
  opened.posted.watcher l w (by simp)

end Opened

section Posting

variable {bank : ClauseBank} {lists : Lit → List Watcher} {before after : List Watcher} {w' : Watcher}

theorem Posted.renew (posted : Posted live bank fun m => if m = l then before ++ w :: after else lists m)
    (w' : Watcher) (clause : w'.clause = w.clause) (blocker : w'.blocker ∈ bank.lits w.clause) :
    Posted live bank fun m => if m = l then before ++ w' :: after else lists m where
  watched r alive m watched := by
    obtain ⟨w₀, member, same⟩ := posted.watched r alive m watched
    by_cases at_l : -m = l
    · simp only [at_l, if_true, List.mem_append, List.mem_cons] at member ⊢
      rcases member with member | rfl | member
      · exact ⟨w₀, .inl member, same⟩
      · exact ⟨w', .inr (.inl rfl), clause.trans same⟩
      · exact ⟨w₀, .inr (.inr member), same⟩
    · simp only [at_l, if_false] at member ⊢
      exact ⟨w₀, member, same⟩
  watcher m w₀ member := by
    by_cases at_l : m = l
    · simp only [at_l, if_true, List.mem_append, List.mem_cons] at member
      have old (w₁ : Watcher) (here : w₁ ∈ before ++ w :: after) :=
        posted.watcher l w₁ (by simpa using here)
      rw [at_l]
      rcases member with member | rfl | member
      · exact old w₀ (by simp [member])
      · rw [clause]
        obtain ⟨alive, watched, _⟩ := old w (by simp)
        exact ⟨alive, watched, blocker⟩
      · exact old w₀ (by simp [member])
    · simp only [at_l, if_false] at member
      exact posted.watcher m w₀ (by simpa [at_l] using member)
  single m := by
    have := posted.single m
    by_cases at_l : m = l
    · simpa [at_l, clause] using this
    · simpa [at_l] using this

/-- A watcher may move to the list of another literal of its clause, which is watched from then on
in place of the one that became false. -/
theorem Posted.move {bank' : ClauseBank} {lists' : Lit → List Watcher} {moved : Array Lit}
    {first x : Lit}
    (posted : Posted live bank fun m => if m = l then before ++ w :: after else lists m)
    (bank_eq : ∀ q, bank'.lits q = if q = w.clause then moved else bank.lits q)
    (lists_eq : ∀ m, lists' m = if m = -x then lists (-x) ++ [⟨w.clause, first⟩] else lists m)
    (perm : moved.Perm (bank.lits w.clause))
    (old_watched : ∀ m, Watched (bank.lits w.clause) m ↔ m = first ∨ m = -l)
    (new_watched : ∀ m, Watched moved m ↔ m = first ∨ m = x)
    (first_ne : first ≠ -l) (x_ne : x ≠ -l) (x_ne_first : x ≠ first) :
    Posted live bank' fun m => if m = l then before ++ after else lists' m := by
  have neg_x_ne : -x ≠ l := fun h => x_ne (by rw [← h, Lit.neg_neg])
  have own : bank'.lits w.clause = moved := by rw [bank_eq, if_pos rfl]
  have alive : live w.clause := (posted.watcher l w (by simp)).1
  have single := posted.single l
  simp only [if_true, List.map_append, List.map_cons] at single
  obtain ⟨absent, single⟩ := List.nodup_cons.mp (List.nodup_middle.mp single)
  -- A watcher of the clause in another list watches the first literal.
  have elsewhere {m : Lit} {w₀ : Watcher} (other : m ≠ l) (member : w₀ ∈ lists m)
      (same : w₀.clause = w.clause) : -m = first := by
    obtain ⟨_, watched, _⟩ := posted.watcher m w₀ (by simpa [other] using member)
    rw [same, old_watched] at watched
    exact watched.resolve_right fun h => other (by rw [← Lit.neg_neg m, h, Lit.neg_neg])
  have fresh {w₀ : Watcher} (member : w₀ ∈ lists (-x)) : w₀.clause ≠ w.clause := fun same =>
    x_ne_first (by rw [← elsewhere neg_x_ne member same, Lit.neg_neg])
  refine posted.repost (r := w.clause) (fun _ _ => Iff.rfl)
    (fun q other => by rw [bank_eq, if_neg other]) (fun m w₀ other => ?_) (fun _ m watched => ?_)
    (fun m w₀ member same => ?_) fun m => ?_
  · have : w₀ ≠ w ∧ w₀ ≠ ⟨w.clause, first⟩ := ⟨fun h => other (h ▸ rfl), fun h => other (h ▸ rfl)⟩
    by_cases at_l : m = l
    · simp [at_l, this]
    · simp only [at_l, if_false, lists_eq]
      split
      · rename_i at_x
        simp [at_x, this]
      · rfl
  · rw [own, new_watched] at watched
    rcases watched with rfl | rfl
    · have other : -m ≠ l := fun h => first_ne (by rw [← h, Lit.neg_neg])
      have apart : -m ≠ -x := fun h => x_ne_first (by rw [← Lit.neg_neg x, ← h, Lit.neg_neg])
      obtain ⟨w₀, member, same⟩ := posted.watched _ alive m ((old_watched m).mpr (.inl rfl))
      exact ⟨w₀, by simpa [other, lists_eq, apart] using member, same⟩
    · exact ⟨⟨w.clause, first⟩, by simp [neg_x_ne, lists_eq], rfl⟩
  · rw [own, new_watched]
    by_cases at_l : m = l
    · simp only [at_l, if_true] at member
      rw [← List.map_append] at absent
      exact absurd (same ▸ List.mem_map_of_mem member) absent
    · simp only [at_l, if_false, lists_eq] at member
      have blocker (member : w₀ ∈ lists m) : w₀.blocker ∈ moved := by
        obtain ⟨_, _, inside⟩ := posted.watcher m w₀ (by simpa [at_l] using member)
        exact perm.mem_iff.mpr (same ▸ inside)
      split at member
      · rename_i at_x
        have new : w₀ = ⟨w.clause, first⟩ := by
          rcases List.mem_append.mp member with old | new
          · exact absurd same (fresh old)
          · exact List.mem_singleton.mp new
        rw [new, at_x, Lit.neg_neg]
        exact ⟨alive, .inr rfl, Watched.mem ((new_watched first).mpr (.inl rfl))⟩
      · exact ⟨alive, .inl (elsewhere at_l member same), blocker member⟩
  · have old := posted.single m
    by_cases at_l : m = l
    · simpa [at_l] using single
    · simp only [at_l, if_false, lists_eq] at old ⊢
      split
      · rename_i at_x
        rw [at_x] at old
        exact single_append old fun _ => fresh
      · exact old

end Posting

theorem code_lt {m : Lit} {n : Nat} (inside : m.var.id < n) : m.code < 2 * n := by
  change m.code / 2 < n at inside
  omega

namespace Opened

variable {place : Nat} {ws : List Watcher} {kept : Array Watcher} {w' : Watcher}

theorem keep (opened : Opened live l place (kept.toList ++ w :: ws) e) (w' : Watcher) (wf : e'.trail.WellFormed)
    (spread : e.Spread e') (lists : e'.watchers = e.watchers)
    (same : ∀ r, live r → ∀ m, Watched (e'.bank.lits r) m ↔ Watched (e.bank.lits r) m)
    (reasoned : Reasoned live e'.bank e'.trail) (clause : w'.clause = w.clause)
    (blocker : w'.blocker ∈ e'.bank.lits w.clause) :
    Opened live l place ((kept.push w').toList ++ ws) e' where
  trail := wf
  room := by rw [spread.room, spread.grows.varCount_eq]; exact opened.room
  stored := by
    rw [spread.grows.varCount_eq]
    exact opened.stored.perm spread.perm
  posted := by
    rw [lists]
    have := (opened.posted.same spread.perm same).renew w' clause blocker
    simpa using this
  reasoned := reasoned
  here := spread.grows.keeps place l opened.here
  top := by rw [spread.grows.starts_eq]; exact opened.top

end Opened

namespace Visiting

variable {place : Nat} {ws : List Watcher} {kept : Array Watcher} {w' : Watcher}

theorem before (visiting : Visiting live due l place (w :: ws) kept e) (spread : e.Spread e') {i : Nat}
    (le : i ≤ place) {m : Lit} (here : e'.trail.lits[i]? = some m) : e.trail.lits[i]? = some m := by
  have inside : i < e.trail.lits.size := Nat.lt_of_le_of_lt le visiting.place_lt
  have old := Array.getElem?_eq_getElem inside
  rw [spread.grows.keeps i _ old] at here
  rwa [← here]

theorem keep (visiting : Visiting live due l place (w :: ws) kept e) (w' : Watcher) (wf : e'.trail.WellFormed)
    (spread : e.Spread e') (lists : e'.watchers = e.watchers)
    (same : ∀ r, live r → ∀ m, Watched (e'.bank.lits r) m ↔ Watched (e.bank.lits r) m)
    (reasoned : Reasoned live e'.bank e'.trail) (clause : w'.clause = w.clause)
    (blocker : w'.blocker ∈ e'.bank.lits w.clause)
    (satisfied : Satisfied e'.trail (e'.bank.lits w.clause) (-l)) :
    Visiting live due l place ws (kept.push w') e' where
  toOpened := visiting.toOpened.keep w' wf spread lists same reasoned clause blocker
  owed := visiting.owed
  drawn r owes m watched i le here := by
    have old := visiting.before spread le here
    have watched := (same r (visiting.owed r owes) m).mp watched
    rcases visiting.drawn r owes m watched i le old with done | ⟨rfl, w₀, member, at_r⟩
    · exact .inl ((done.grows spread.grows (Array.mem_of_getElem? old)).perm (spread.perm r))
    · rcases List.mem_cons.mp member with rfl | member
      · left
        have : m = -l := by
          have := Option.some.inj (visiting.here.symm.trans old)
          rw [this, Lit.neg_neg]
        rw [this, ← at_r]
        exact satisfied
      · exact .inr ⟨rfl, w₀, member, at_r⟩

end Visiting

theorem watchers_addWatcher (e : Engine) (l m : Lit) (w : Watcher) (room : l.code < e.watches.size) :
    (e.addWatcher l w).watchers m = if m = l then e.watchers l ++ [w] else e.watchers m := by
  simp only [watchers, addWatcher, Array.getD_eq_getD_getElem?, Array.getElem?_modify]
  by_cases same : l = m
  · subst same
    simp [room]
  · have : l.code ≠ m.code := fun h => same (by cases l; cases m; simp_all)
    simp [this, Ne.symm same]

namespace Visiting

variable {place : Nat} {ws : List Watcher} {kept : Array Watcher} {w' : Watcher}

theorem move (visiting : Visiting live due l place (w :: ws) kept e) {lits : Array Lit} {k : Nat}
    (perm : lits.Perm (e.bank.lits w.clause))
    (same : ∀ m, Watched lits m ↔ Watched (e.bank.lits w.clause) m)
    (second : lits.getD 1 default = -l) (third : 2 ≤ k) (inside : k < lits.size)
    (unfalsified : e.trail.value (lits.getD k default) ≠ .fls)
    (unreasoned : ∀ m ∈ e.trail.lits, (e.bank.lits w.clause)[0]? = some m →
      e.trail.reason m.var ≠ some w.clause) :
    Visiting live due l place ws kept ((e.setLits w.clause (lits.swapIfInBounds 1 k)).addWatcher
      (-(lits.swapIfInBounds 1 k).getD 1 default) ⟨w.clause, lits.getD 0 default⟩) := by
  obtain ⟨alive, watched, _⟩ := visiting.watcher
  have nodup : lits.toList.Nodup := perm.toList.nodup_iff.mpr (visiting.stored.nodup _ alive)
  have long : 1 < lits.size := by omega
  -- The clause now watches `first` and `x` instead of `first` and the false literal.
  have first_eq : (lits.swapIfInBounds 1 k).getD 0 default = lits.getD 0 default := by
    rw [Array.swapIfInBounds, dif_pos long, dif_pos inside]
    simp only [Array.getD_eq_getD_getElem?, Array.getElem?_swap]
    grind
  have second_eq : (lits.swapIfInBounds 1 k).getD 1 default = lits.getD k default := by
    rw [Array.swapIfInBounds, dif_pos long, dif_pos inside]
    simp only [Array.getD_eq_getD_getElem?, Array.getElem?_swap]
    grind
  have perm' := (swap_perm lits 1 k).trans perm
  have long' : 1 < (lits.swapIfInBounds 1 k).size := by simpa using long
  have first_ne : lits.getD 0 default ≠ -l := fun h =>
    absurd (getD_inj nodup (by omega) long (h.trans second.symm)) (by omega)
  have x_ne_first : lits.getD k default ≠ lits.getD 0 default := fun h =>
    absurd (getD_inj nodup inside (by omega) h) (by omega)
  have x_ne : lits.getD k default ≠ -l := fun h =>
    absurd (getD_inj nodup inside long (h.trans second.symm)) (by omega)
  have x_mem : lits.getD k default ∈ e.bank.lits w.clause := perm.mem_iff.mp (getD_mem inside)
  have first_mem : lits.getD 0 default ∈ e.bank.lits w.clause :=
    perm.mem_iff.mp (getD_mem (by omega))
  have old_watched (m : Lit) : Watched (e.bank.lits w.clause) m ↔ m = lits.getD 0 default ∨ m = -l := by
    rw [← same, watched_iff long, second]
  have new_watched (m : Lit) : Watched (lits.swapIfInBounds 1 k) m ↔
      m = lits.getD 0 default ∨ m = lits.getD k default := by
    rw [watched_iff long', first_eq, second_eq]
  rw [second_eq]
  generalize lits.getD k default = x at *
  generalize lits.getD 0 default = first at *
  generalize lits.swapIfInBounds 1 k = moved at *
  have room : (-x).code < e.watches.size := by
    rw [visiting.room]
    exact code_lt (by rw [Lit.var_neg]; exact visiting.stored.inside _ x x_mem)
  have bank (q : ClauseRef) : (e.bank.setLits w.clause moved).lits q =
      if q = w.clause then moved else e.bank.lits q := visiting.stored.setLits_eq alive q
  have lists (m : Lit) :
      ((e.setLits w.clause moved).addWatcher (-x) ⟨w.clause, first⟩).watchers m =
        if m = -x then e.watchers (-x) ++ [⟨w.clause, first⟩] else e.watchers m :=
    watchers_addWatcher (e.setLits w.clause moved) (-x) m _ room
  have spread := setLits_spread perm'
  constructor
  · constructor
    · exact visiting.trail
    · simpa [addWatcher, Engine.setLits] using visiting.room
    · exact visiting.stored.perm spread.perm
    · exact visiting.posted.move bank lists perm' old_watched new_watched first_ne x_ne x_ne_first
    · refine visiting.reasoned.perm spread.perm fun r m member alive' front reason => ?_
      change ((e.bank.setLits w.clause moved).lits r)[0]? = _
      rw [bank, if_neg]
      · exact front
      · rintro rfl
        exact unreasoned m member front reason
    · exact visiting.here
    · exact visiting.top
  · exact visiting.owed
  · intro r owes m watched' i le here
    change e.trail.lits[i]? = some (-m) at here
    change Watched ((e.bank.setLits w.clause moved).lits r) m at watched'
    change Satisfied e.trail ((e.bank.setLits w.clause moved).lits r) m ∨ _
    rw [bank] at watched' ⊢
    by_cases same_clause : r = w.clause
    · subst same_clause
      rw [if_pos rfl, new_watched] at watched'
      rw [if_pos rfl]
      rcases watched' with rfl | rfl
      · rcases visiting.drawn _ owes m ((old_watched m).mpr (.inl rfl)) i le here with done | ⟨rfl, _⟩
        · exact .inl (done.perm perm')
        · have := Option.some.inj (visiting.here.symm.trans here)
          exact absurd (by rw [this, Lit.neg_neg]) first_ne
      · exact absurd ((visiting.trail.false_iff m).mpr (Array.mem_of_getElem? here)) unfalsified
    · rw [if_neg same_clause] at watched' ⊢
      rcases visiting.drawn r owes m watched' i le here with done | ⟨ends, w₀, member, at_r⟩
      · exact .inl done
      · rcases List.mem_cons.mp member with rfl | member
        · exact absurd at_r.symm same_clause
        · exact .inr ⟨ends, w₀, member, at_r⟩

end Visiting

structure Conflicting (live : ClauseRef → Prop) (e : Engine) (r : ClauseRef) : Prop where
  alive : live r
  falsified : ∀ l ∈ e.bank.lits r, -l ∈ e.trail.lits
  current : ∃ l ∈ e.bank.lits r, e.trail.level l.var = e.trail.depth

/-- What looking at a watcher leads to. -/
def Verdict.Holds (live due : ClauseRef → Prop) (l : Lit) (place : Nat) (w : Watcher)
    (ws : List Watcher) (kept : Array Watcher) (e : Engine) : Verdict → Prop
  | .stays w' => Visiting live due l place ws (kept.push w') e
  | .leaves => Visiting live due l place ws kept e
  | .conflict w' => Opened live l place ((kept.push w').toList ++ ws) e ∧ Drawn due e place ∧
      Conflicting live e w.clause ∧ e.trail.head = e.trail.lits.size

namespace Visiting

variable {place : Nat} {ws : List Watcher} {kept : Array Watcher} {first : Lit}

/-- The literals of the watcher's clause may be put in another order, as long as the same two are
watched and a literal that the clause is the reason of stays in front. -/
theorem turn (visiting : Visiting live due l place (w :: ws) kept e) {lits : Array Lit}
    (perm : lits.Perm (e.bank.lits w.clause))
    (same : ∀ m, Watched lits m ↔ Watched (e.bank.lits w.clause) m)
    (front : ∀ m ∈ e.trail.lits, (e.bank.lits w.clause)[0]? = some m → lits[0]? = some m) :
    (e.setLits w.clause lits).bank.lits w.clause = lits ∧
      Visiting live due l place (w :: ws) kept (e.setLits w.clause lits) := by
  have bank (q : ClauseRef) : (e.setLits w.clause lits).bank.lits q =
      if q = w.clause then lits else e.bank.lits q :=
    visiting.stored.setLits_eq visiting.watcher.1 q
  have spread := setLits_spread perm
  have same' (r : ClauseRef) (_ : live r) (m : Lit) :
      Watched ((e.setLits w.clause lits).bank.lits r) m ↔ Watched (e.bank.lits r) m := by
    rw [bank]
    split
    · rename_i here
      rw [same, here]
    · rfl
  refine ⟨by rw [bank, if_pos rfl], ⟨visiting.trail, visiting.room, ?_, ?_, ?_, visiting.here,
    visiting.top⟩, visiting.owed, ?_⟩
  · exact visiting.stored.perm spread.perm
  · exact visiting.posted.same spread.perm same'
  · refine visiting.reasoned.perm spread.perm fun r m member _ first _ => ?_
    rw [bank]
    split
    · rename_i here
      exact front m member (here ▸ first)
    · exact first
  · intro r owes m watched i le here
    have watched := (same' r (visiting.owed r owes) m).mp watched
    exact (visiting.drawn r owes m watched i le here).imp_left fun done => done.perm (spread.perm r)

theorem clash (visiting : Visiting live due l place (w :: ws) kept e)
    (front : (e.bank.lits w.clause)[0]? = some first)
    (falsified : ∀ m ∈ e.bank.lits w.clause, -m ∈ e.trail.lits) :
    (Verdict.conflict ⟨w.clause, first⟩).Holds live due l place w ws kept
      { e with trail.head := e.trail.lits.size } := by
  obtain ⟨alive, watched, _⟩ := visiting.watcher
  have posted : Posted live e.bank fun m =>
      if m = l then (kept.push ⟨w.clause, first⟩).toList ++ ws else e.watchers m := by
    simpa using visiting.posted.renew ⟨w.clause, first⟩ rfl (Array.mem_of_getElem? front)
  refine ⟨⟨visiting.trail.skip, visiting.room, visiting.stored, posted,
    visiting.reasoned, visiting.here, visiting.top⟩, fun r owes m watched' i lt here => ?_,
    ⟨alive, falsified, -l, watched.mem, ?_⟩, rfl⟩
  · rcases visiting.drawn r owes m watched' i (Nat.le_of_lt lt) here with done | ⟨ends, _⟩
    · exact done
    · omega
  · rw [Lit.var_neg]
    exact visiting.level_eq

theorem imply (visiting : Visiting live due l place (w :: ws) kept e)
    (front : (e.bank.lits w.clause)[0]? = some first)
    (falsified : ∀ m ∈ e.bank.lits w.clause, m ≠ first → -m ∈ e.trail.lits)
    (unassigned : e.trail.valueVar first.var = .undef) :
    ∃ e', e.assign first (some w.clause) = .ok e' ∧
      Visiting live due l place ws (kept.push ⟨w.clause, first⟩) e' := by
  have member := Array.mem_of_getElem? front
  have inside := visiting.stored.inside _ first member
  obtain ⟨t, run⟩ : ∃ t, e.trail.assign first (some w.clause) = .ok t := by
    simp [Trail.assign, unassigned]
  obtain ⟨wf, assigned⟩ := visiting.trail.assign inside run
  have spread : e.Spread { e with trail := t } := assign_spread assigned rfl rfl
  refine ⟨{ e with trail := t }, by simp [Engine.assign, run], ?_⟩
  refine visiting.keep _ wf spread rfl (fun _ _ _ => Iff.rfl) ?_ rfl member
    ⟨first, member, assigned.mem, ?_⟩
  · refine visiting.reasoned.assign assigned fun r same => ?_
    obtain rfl := Option.some.inj same
    exact ⟨visiting.watcher.1, front, falsified⟩
  · refine Nat.le_of_eq ?_
    rw [Lit.var_neg, assigned.level_self, assigned.level_eq l visiting.on_trail, visiting.level_eq]

theorem look_ok (visiting : Visiting live due l place (w :: ws) kept e) :
    ∃ v e', look (-l) w e = .ok (v, e') ∧ v.Holds live due l place w ws kept e' := by
  obtain ⟨alive, watched, blocks⟩ := visiting.watcher
  have long := visiting.stored.long _ alive
  have wf := visiting.trail
  have false_l : e.trail.value (-l) = .fls :=
    (wf.false_iff _).mpr (by rw [Lit.neg_neg]; exact visiting.on_trail)
  have perm := orient_perm (-l) (e.bank.lits w.clause)
  have second := orient_second long watched
  have same := orient_watched (f := -l) long
  -- A clause that is a reason has a true literal in front, so orienting it changes nothing.
  have kept_front (m : Lit) (member : m ∈ e.trail.lits)
      (front : (e.bank.lits w.clause)[0]? = some m) :
      (orient (-l) (e.bank.lits w.clause))[0]? = some m := by
    rw [orient_same front]
    · exact front
    · rintro rfl
      rw [(wf.true_iff _).mpr member] at false_l
      cases false_l
  unfold look
  by_cases blocked : e.trail.value w.blocker = .tru
  · rw [if_pos blocked]
    exact ⟨_, _, rfl, visiting.keep _ wf (.refl e) rfl (fun _ _ _ => Iff.rfl) visiting.reasoned rfl
      blocks (visiting.satisfied blocks blocked)⟩
  rw [if_neg blocked]
  simp only
  generalize orient (-l) (e.bank.lits w.clause) = lits at *
  rw [if_neg (not_not.mpr second)]
  have long' : 1 < lits.size := by rw [perm.size_eq]; exact long
  have front : lits[0]? = some (lits.getD 0 default) := getElem?_getD (by omega)
  obtain ⟨lits_eq, turned⟩ := visiting.turn perm same kept_front
  have front' : ((e.setLits w.clause lits).bank.lits w.clause)[0]? = some (lits.getD 0 default) := by
    rw [lits_eq]
    exact front
  have member := Array.mem_of_getElem? front'
  by_cases holds : lits.getD 0 default ≠ w.blocker ∧ e.trail.value (lits.getD 0 default) = .tru
  · rw [if_pos holds]
    exact ⟨_, _, rfl, turned.keep ⟨w.clause, lits.getD 0 default⟩ wf (.refl _) rfl
      (fun _ _ _ => Iff.rfl) turned.reasoned rfl member (turned.satisfied member holds.2)⟩
  rw [if_neg holds]
  have unsatisfied : e.trail.value (lits.getD 0 default) ≠ .tru := by
    intro true_
    by_cases blocking : lits.getD 0 default = w.blocker
    · exact blocked (blocking ▸ true_)
    · exact holds ⟨blocking, true_⟩
  cases replaced : replacement? e.trail lits with
  | some k =>
    obtain ⟨third, inside, unfalsified⟩ := replacement_some replaced
    refine ⟨_, _, rfl, visiting.move perm same second third inside unfalsified
      fun m member front _ => unsatisfied ?_⟩
    rw [Array.getD_eq_getD_getElem?, kept_front m member front]
    exact (wf.true_iff m).mpr member
  | none =>
    -- No literal can take over, so all but the first are false.
    have others {m : Lit} (member : m ∈ lits) (other : m ≠ lits.getD 0 default) :
        -m ∈ e.trail.lits := by
      rw [← wf.false_iff]
      obtain ⟨i, inside, rfl⟩ := Array.mem_iff_getElem.mp member
      have at_i : lits[i] = lits.getD i default := by simp [Array.getD, inside]
      rw [at_i] at other ⊢
      rcases Nat.lt_or_ge i 2 with low | high
      · have : i ≠ 0 := fun h => other (by rw [h])
        obtain rfl : i = 1 := by omega
        rw [second]
        exact false_l
      · exact replacement_none replaced high inside
    simp only
    split
    · rename_i conflict
      refine ⟨_, _, rfl, turned.clash front' fun m member => ?_⟩
      by_cases is_first : m = lits.getD 0 default
      · rw [is_first]
        exact (wf.false_iff _).mp conflict
      · exact others (lits_eq ▸ member) is_first
    · rename_i unfalsified
      have undefined : e.trail.value (lits.getD 0 default) = .undef :=
        ((e.trail.value_cases _).resolve_left unsatisfied).resolve_left unfalsified
      obtain ⟨e', run, visiting'⟩ := turned.imply front'
        (fun m member other => others (lits_eq ▸ member) other)
        ((Trail.value_of_var _ _).mp undefined)
      exact ⟨.stays ⟨w.clause, lits.getD 0 default⟩, e', by rw [run], visiting'⟩

theorem visit_ok (visiting : Visiting live due l place ws kept e) :
    ∃ conflict kept' e', visit (-l) ws kept e = .ok (conflict, kept', e') ∧
      match conflict with
      | none => Visiting live due l place [] kept' e'
      | some r => Opened live l place kept'.toList e' ∧ Drawn due e' place ∧
          Conflicting live e' r ∧ e'.trail.head = e'.trail.lits.size := by
  induction ws generalizing kept e with
  | nil => exact ⟨none, kept, e, rfl, visiting⟩
  | cons w ws ih =>
    obtain ⟨v, e₁, looked, holds⟩ := visiting.look_ok
    rw [visit_cons, looked]
    cases v with
    | stays w' => exact ih holds
    | leaves => exact ih holds
    | conflict w' =>
      obtain ⟨opened, rest⟩ := holds
      exact ⟨some w.clause, kept.push w' ++ ws, e₁, rfl, by simpa using opened, rest⟩

end Visiting

end Engine

end ModelCounting
