import ModelCounting.Proofs.Search.Visiting

/-!
Unit propagation. Each round visits the watchers of the literal at the head of the queue. So
propagation ends, never fails on a well-formed engine, and either draws all consequences of the
trail or names a clause whose literals are all false.
-/

namespace ModelCounting

namespace Engine

variable {live due : ClauseRef → Prop} {e e' : Engine} {f l : Lit} {w : Watcher} {v : Verdict}

def close (e : Engine) (l : Lit) (list : Array Watcher) : Engine :=
  { e with watches := e.watches.setIfInBounds l.code list }

theorem close_watchers (e : Engine) {l : Lit} (inside : l.code < e.watches.size)
    (list : Array Watcher) (m : Lit) :
    (e.close l list).watchers m = if m = l then list.toList else e.watchers m := by
  unfold watchers close
  split
  · rename_i same
    rw [same, Trail.getD_set_self inside]
  · rename_i other
    rw [Trail.getD_set_ne]
    intro same
    apply other
    cases l
    cases m
    exact congrArg Lit.mk same.symm

/-- The engine as the watchers of the next literal are looked at. -/
def next (e : Engine) (l : Lit) : Engine :=
  { e with
    trail.head := e.trail.head + 1
    propagations := e.propagations + 1
    watches := e.watches.setIfInBounds l.code #[] }

theorem next_spread (e : Engine) (l : Lit) : e.Spread (e.next l) where
  grows := ⟨rfl, rfl, fun _ _ h => h, fun _ _ => rfl, fun _ _ => rfl⟩
  implied _ member := .inl member
  perm _ := .refl _
  learnt _ := rfl
  slots := rfl
  freed := rfl
  room := by simp [next]

theorem advance_eq (l_eq : e.trail.lits.getD e.trail.head default = l) :
    e.advance = match visit (-l) (e.watchers l) #[] (e.next l) with
      | .ok (conflict, kept, e') => .ok (conflict, e'.close l kept)
      | .error fault => .error fault := by
  subst l_eq
  rfl

theorem close_spread (e : Engine) (l : Lit) (list : Array Watcher) :
    e.Spread (e.close l list) where
  grows := .refl _
  implied _ member := .inl member
  perm _ := .refl _
  learnt _ := rfl
  slots := rfl
  freed := rfl
  room := by simp [close]

theorem advance_spread {conflict : Option ClauseRef} (wf : e.trail.WellFormed) (ranged : e.Ranged)
    (waiting : e.trail.head < e.trail.lits.size) (run : e.advance = .ok (conflict, e')) :
    e'.trail.WellFormed ∧ e.Spread e' ∧
      (conflict = none → e'.trail.head = e.trail.head + 1) ∧
      (conflict ≠ none → e'.trail.head = e'.trail.lits.size) := by
  rw [advance_eq rfl] at run
  split at run
  · rename_i conflict' kept e₁ visited
    cases run
    have opened := next_spread e (e.trail.lits.getD e.trail.head default)
    obtain ⟨wf₁, spread, same, ends⟩ := visit_spread (wf.next waiting) (opened.ranged ranged)
      (by rw [Lit.neg_neg]; exact getD_mem waiting) visited
    exact ⟨wf₁, (opened.trans spread).trans (close_spread e₁ _ kept), same, ends⟩
  · simp at run

theorem look_fault {fault : Fault} (run : look f w e = .error fault) : fault = .assertion := by
  unfold look at run
  split at run
  · cases run
  simp only at run
  split at run
  · cases run
    rfl
  split at run
  · cases run
  split at run
  · cases run
  split at run
  · cases run
  split at run
  · cases run
  · rename_i failed
    cases run
    simp only [assign, Trail.assign] at failed
    grind

theorem visit_fault {ws : List Watcher} {kept : Array Watcher} {fault : Fault}
    (run : visit f ws kept e = .error fault) : fault = .assertion := by
  induction ws generalizing kept e with
  | nil => cases run
  | cons w ws ih =>
    rw [visit_cons] at run
    split at run
    · exact ih run
    · exact ih run
    · cases run
    · rename_i failed
      cases run
      exact look_fault failed

theorem advance_fault {fault : Fault} (run : e.advance = .error fault) : fault = .assertion := by
  rw [advance_eq rfl] at run
  split at run
  · cases run
  · rename_i failed
    cases run
    exact visit_fault failed

/-- Each round takes a literal from the queue, so propagation ends. -/
theorem propagateWithin_spread {n : Nat} (wf : e.trail.WellFormed) (ranged : e.Ranged)
    (enough : e.trail.varCount < n + e.trail.head) :
    (∀ fault, e.propagateWithin n = .error fault → fault = .assertion) ∧
      ∀ conflict e', e.propagateWithin n = .ok (conflict, e') →
        e'.trail.WellFormed ∧ e.Spread e' ∧ e'.trail.head = e'.trail.lits.size := by
  -- Each round moves the head by one, and the head is at most the number of variables.
  have le := Nat.le_trans wf.head_le wf.size_le
  induction n generalizing e with
  | zero => omega
  | succ n ih =>
    unfold propagateWithin
    split
    · rename_i waiting
      cases advanced : e.advance with
      | error fault => simpa using advance_fault advanced
      | ok result =>
        obtain ⟨conflict, e₁⟩ := result
        obtain ⟨wf₁, spread, next, ends⟩ := advance_spread wf ranged waiting advanced
        cases conflict with
        | some r =>
          refine ⟨by simp, fun conflict e' run => ?_⟩
          cases run
          exact ⟨wf₁, spread, ends (by simp)⟩
        | none =>
          have counted := spread.grows.varCount_eq
          have next := next rfl
          obtain ⟨faults, result⟩ := ih wf₁ (spread.ranged ranged) (by omega)
            (Nat.le_trans wf₁.head_le wf₁.size_le)
          refine ⟨faults, fun conflict e' run => ?_⟩
          obtain ⟨wf', rest, drawn⟩ := result conflict e' run
          exact ⟨wf', spread.trans rest, drawn⟩
    · rename_i empty
      refine ⟨by simp, fun conflict e' run => ?_⟩
      cases run
      have := wf.head_le
      exact ⟨wf, .refl e, by omega⟩

theorem propagate_spread {conflict : Option ClauseRef} (wf : e.trail.WellFormed) (ranged : e.Ranged)
    (run : e.propagate = .ok (conflict, e')) :
    e'.trail.WellFormed ∧ e.Spread e' ∧ e'.trail.head = e'.trail.lits.size :=
  (propagateWithin_spread wf ranged (by omega)).2 conflict e' run

theorem propagate_fault {fault : Fault} (wf : e.trail.WellFormed) (ranged : e.Ranged)
    (run : e.propagate = .error fault) : fault = .assertion :=
  (propagateWithin_spread wf ranged (by omega)).1 fault run

/-- What propagation answers whatever was left out before: the queue is empty, and a clause that is
named is in conflict. -/
structure Emptied (live : ClauseRef → Prop) (e : Engine) (conflict : Option ClauseRef)
    (e' : Engine) : Prop where
  wellFormed : e'.WellFormed live
  spread : e.Spread e'
  settled : e'.trail.head = e'.trail.lits.size
  conflicting : ∀ r, conflict = some r → Conflicting live e' r

def DrawnOn (due : ClauseRef → Prop) (conflict : Option ClauseRef) (e : Engine) : Prop :=
  ∃ k, Drawn due e k ∧ (∀ n ∈ e.trail.starts, n ≤ k) ∧ (conflict = none → k = e.trail.lits.size)

/-- What propagation answers: the queue is empty, and all consequences are drawn, or else those of
the lower levels and a clause is in conflict. -/
structure Propagated (live : ClauseRef → Prop) (e : Engine) (conflict : Option ClauseRef)
    (e' : Engine) : Prop extends Emptied live e conflict e' where
  drawn : DrawnOn live conflict e'

theorem WellFormed.visiting (wf : e.WellFormed live) (owed : ∀ r, due r → live r)
    (drawn : Drawn due e e.trail.head) (waiting : e.trail.head < e.trail.lits.size)
    (l_eq : e.trail.lits.getD e.trail.head default = l) :
    Visiting live due l e.trail.head (e.watchers l) #[] (e.next l) := by
  have here : e.trail.lits[e.trail.head]? = some l := l_eq ▸ getElem?_getD waiting
  have inside : l.code < e.watches.size := by
    rw [wf.room]
    exact code_lt (wf.trail.var_lt (Array.mem_of_getElem? here))
  refine ⟨⟨wf.trail.next waiting, ?_, wf.stored, ?_, wf.reasoned, here, wf.trail.starts_le⟩, owed,
    fun r owes m watched i le at_i => ?_⟩
  · exact (Array.size_setIfInBounds ..).trans wf.room
  · have lists : (fun m => if m = l then (#[] : Array Watcher).toList ++ e.watchers l
        else (e.next l).watchers m) = e.watchers := by
      funext m
      split
      · rename_i same
        rw [same]
        rfl
      · rename_i other
        exact (close_watchers e inside #[] m).trans (if_neg other)
    rw [lists]
    exact wf.posted
  · rcases Nat.lt_or_ge i e.trail.head with before | after
    · exact .inl (drawn r owes m watched i before at_i)
    · obtain rfl := Nat.le_antisymm le after
      have same : -m = l := Option.some.inj (at_i.symm.trans here)
      exact .inr ⟨rfl, same ▸ wf.posted.watched r (owed r owes) m watched⟩

theorem Opened.close {place : Nat} {kept : Array Watcher}
    (opened : Opened live l place kept.toList e) : (e.close l kept).WellFormed live := by
  have inside : l.code < e.watches.size := by
    rw [opened.room]
    exact code_lt (opened.trail.var_lt opened.on_trail)
  refine ⟨opened.trail, (Array.size_setIfInBounds ..).trans opened.room, opened.stored, ?_,
    opened.reasoned⟩
  have lists := funext (close_watchers e inside kept)
  rw [lists]
  exact opened.posted

theorem WellFormed.advance_ok (wf : e.WellFormed live) (owed : ∀ r, due r → live r)
    (drawn : Drawn due e e.trail.head) (waiting : e.trail.head < e.trail.lits.size) :
    ∃ conflict e', e.advance = .ok (conflict, e') ∧ e'.WellFormed live ∧
      match conflict with
      | none => Drawn due e' e'.trail.head
      | some r => Drawn due e' e.trail.head ∧ (∀ n ∈ e'.trail.starts, n ≤ e.trail.head) ∧
          Conflicting live e' r := by
  obtain ⟨conflict, kept, e₁, visited, holds⟩ := (wf.visiting owed drawn waiting rfl).visit_ok
  have run := advance_eq (e := e) rfl
  rw [visited] at run
  obtain ⟨_, _, next, _⟩ := advance_spread wf.trail wf.stored.inside waiting run
  cases conflict with
  | none =>
    have opened := holds.toOpened
    rw [List.append_nil] at opened
    refine ⟨none, _, run, opened.close, fun r owes m watched i lt here => ?_⟩
    rw [next rfl] at lt
    rcases holds.drawn r owes m watched i (Nat.le_of_lt_succ lt) here with done | ⟨_, w, member, _⟩
    · exact done
    · cases member
  | some r =>
    obtain ⟨opened, drawn', conflicting, _⟩ := holds
    exact ⟨some r, _, run, opened.close, drawn', opened.top, conflicting.alive,
      conflicting.falsified, conflicting.current⟩

/-- Propagation answers, and draws all consequences of the clauses none of which were left out. -/
theorem WellFormed.propagate_due (wf : e.WellFormed live) (owed : ∀ r, due r → live r)
    (drawn : Drawn due e e.trail.head) :
    ∃ conflict e', e.propagate = .ok (conflict, e') ∧ Emptied live e conflict e' ∧
      DrawnOn due conflict e' := by
  suffices rounds : ∀ n, e.trail.varCount < n + e.trail.head →
      ∃ conflict e', e.propagateWithin n = .ok (conflict, e') ∧ Emptied live e conflict e' ∧
        DrawnOn due conflict e' from rounds _ (by omega)
  intro n enough
  have le := Nat.le_trans wf.trail.head_le wf.trail.size_le
  induction n generalizing e with
  | zero => omega
  | succ n ih =>
    unfold propagateWithin
    split
    -- What a round draws is what the next one starts from; only a conflict ends the rounds early.
    · rename_i waiting
      obtain ⟨conflict, e₁, advanced, wf₁, holds⟩ := wf.advance_ok owed drawn waiting
      obtain ⟨_, spread, next, ends⟩ :=
        advance_spread wf.trail wf.stored.inside waiting advanced
      rw [advanced]
      cases conflict with
      | some r =>
        obtain ⟨drawn', top, conflicting⟩ := holds
        exact ⟨some r, e₁, rfl, ⟨wf₁, spread, ends (by simp),
          fun r' same => Option.some.inj same ▸ conflicting⟩, _, drawn', top, by simp⟩
      | none =>
        have counted := spread.grows.varCount_eq
        have next := next rfl
        obtain ⟨conflict, e', run, rest, drawn'⟩ := ih wf₁ holds (by omega)
          (Nat.le_trans wf₁.trail.head_le wf₁.trail.size_le)
        exact ⟨conflict, e', run, { rest with spread := spread.trans rest.spread }, drawn'⟩
    · rename_i empty
      have settled : e.trail.head = e.trail.lits.size := Nat.le_antisymm wf.trail.head_le (by omega)
      exact ⟨none, e, rfl, ⟨wf, .refl e, settled, by simp⟩, _, drawn, wf.trail.starts_le,
        fun _ => settled⟩

end Engine

end ModelCounting
