import ModelCounting.Proofs.Search.Entailment

/-!
The tables of a solver. They agree with each other whether or not the clauses are refuted: no
reference outlives its clause, each clause is watched at its first two literals and nowhere else,
and levels, reasons, queue and marks say what the trail says.
-/

namespace ModelCounting

/-- The slot of a reference holds a clause. -/
def ClauseBank.Allocated (b : ClauseBank) (r : ClauseRef) : Prop :=
  r.slot < b.slots.size ∧ r ∉ b.freed

namespace Solver

variable {Γ : List (List Lit)} {s s' : Solver} {r : ClauseRef} {v : Var}

/-- The references that stand in the tables of a solver. -/
def Refers (s : Solver) (r : ClauseRef) : Prop :=
  r ∈ s.added ∨ r ∈ s.learnts ∨ some r ∈ s.trail.reasons ∨
    ∃ ws ∈ s.engine.watches, ∃ w ∈ ws, w.clause = r

/-- What the tables of a solver say of each other. -/
structure Consistent (s : Solver) : Prop where
  allocated : ∀ r, s.Refers r → s.engine.bank.Allocated r
  /-- One watcher for each of the first two literals, in the list of its complement. -/
  watched : ∀ r, s.Live r → ∃ x y, (s.engine.bank.lits r)[0]? = some x ∧
    (s.engine.bank.lits r)[1]? = some y ∧ x ≠ y ∧
      ∀ code, (s.engine.watches.getD code #[]).toList.countP (·.clause = r) =
        if code = (-x).code ∨ code = (-y).code then 1 else 0
  /-- An assigned variable stands on the trail once. -/
  placed : ∀ v, s.trail.valueVar v ≠ .undef → ∃ i l, s.trail.lits[i]? = some l ∧ l.var = v ∧
    s.value l = .tru ∧ ∀ (j : Nat) (m : Lit), s.trail.lits[j]? = some m → m.var = v → j = i
  /-- Its level counts the levels opened at or before its place. -/
  leveled : ∀ (i : Nat) (l : Lit), s.trail.lits[i]? = some l →
    s.trail.level l.var = s.trail.starts.toList.countP (· ≤ i)
  /-- Its reason has it first, and became false otherwise before. -/
  reasoned : ∀ (i : Nat) (l : Lit) (r : ClauseRef), s.trail.lits[i]? = some l →
    s.trail.reason l.var = some r → (s.engine.bank.lits r)[0]? = some l ∧
      ∀ (k : Nat) (m : Lit), 0 < k → (s.engine.bank.lits r)[k]? = some m →
        s.value m = .fls ∧ ∃ j < i, s.trail.lits[j]? = some (-m)
  queued : ∀ v : Var, v.id < s.varCount → s.trail.valueVar v = .undef →
    v ∈ s.branching.queue.heap
  unmarked : ∀ b ∈ s.seen, b = false

/-- What every step keeps of the tables, whatever the clauses say. -/
structure Coherent (s : Solver) : Prop where
  engine : s.engine.WellFormed s.Live
  booked : s.engine.bank.Booked s.Live
  apart : (s.added.toList ++ s.learnts.toList).Nodup
  waits : s.branching.Awaits s.varCount fun v => v.id < s.varCount ∧ s.trail.valueVar v = .undef
  marks : Engine.Unmarked s.seen s.varCount

theorem Knows.coherent (knows : s.Knows Γ) : s.Coherent :=
  ⟨knows.engine, knows.booked, knows.apart, knows.waits, knows.marks⟩

theorem Coherent.knows (coherent : s.Coherent) (ok : s.ok = true) : s.Knows [[]] := by
  have entails (c : List Lit) : Entails [[]] c := fun value models => by
    obtain ⟨l, member, _⟩ := models [] List.mem_cons_self
    cases member
  exact ⟨ok, coherent.engine, coherent.booked, coherent.apart, fun _ _ => entails _,
    fun _ _ _ _ => entails _, coherent.waits, coherent.marks⟩

namespace Coherent

theorem front (coherent : s.Coherent) (live : s.Live r) :
    ∃ x y, (s.engine.bank.lits r)[0]? = some x ∧ (s.engine.bank.lits r)[1]? = some y ∧ x ≠ y := by
  have long := coherent.engine.stored.long r live
  have zero := Engine.getElem?_getD (Nat.lt_trans Nat.zero_lt_one long)
  have one := Engine.getElem?_getD long
  refine ⟨_, _, zero, one, fun same => ?_⟩
  have := Engine.getD_inj (coherent.engine.stored.nodup r live) (by omega) long same
  omega

theorem allocated_of_live (coherent : s.Coherent) (live : s.Live r) :
    s.engine.bank.Allocated r := by
  have long := coherent.engine.stored.long r live
  exact ⟨ClauseBank.slot_lt (by omega), fun freed => coherent.booked.unused r freed live⟩

theorem live_of_reason (coherent : s.Coherent) (reason : s.trail.reason v = some r) :
    s.Live r := by
  have trail := coherent.engine.trail
  have assigned : s.trail.valueVar v ≠ .undef := fun free => by
    have : s.trail.reason v = none := trail.unreasoned v free
    rw [this] at reason
    cases reason
  obtain ⟨l, member, same⟩ := trail.exists_mem assigned
  obtain ⟨i, here⟩ := Array.mem_iff_getElem?.mp member
  exact (coherent.engine.reasoned i l r here (same ▸ reason)).1

theorem live_of_refers (coherent : s.Coherent) (refers : s.Refers r) : s.Live r := by
  rcases refers with added | learnt | reason | ⟨ws, listed, w, member, rfl⟩
  · exact .inl added
  · exact .inr learnt
  · obtain ⟨k, here⟩ := Array.mem_iff_getElem?.mp reason
    refine coherent.live_of_reason (v := ⟨k⟩) ?_
    rw [Trail.reason, Array.getD_eq_getD_getElem?, here]
    rfl
  · obtain ⟨k, here⟩ := Array.mem_iff_getElem?.mp listed
    refine (coherent.engine.posted.watcher ⟨k⟩ w ?_).1
    rw [Engine.watchers, Array.getD_eq_getD_getElem?, here]
    exact Array.mem_toList_iff.mpr member

theorem count_watchers (coherent : s.Coherent) (live : s.Live r) (l : Lit) :
    (s.engine.watchers l).countP (·.clause = r) =
      if (s.engine.bank.lits r)[0]? = some (-l) ∨ (s.engine.bank.lits r)[1]? = some (-l) then 1
      else 0 := by
  have posted := coherent.engine.posted
  have counted : (s.engine.watchers l).countP (·.clause = r) =
      ((s.engine.watchers l).map (·.clause)).count r := by
    rw [List.count, List.countP_map]
    exact List.countP_congr fun w _ => by simp
  rw [counted]
  split
  · rename_i watched
    obtain ⟨w, member, same⟩ := posted.watched r live (-l) watched
    rw [Lit.neg_neg] at member
    exact List.count_eq_one_of_mem (posted.single l) (List.mem_map.mpr ⟨w, member, same⟩)
  · rename_i unwatched
    refine List.count_eq_zero_of_not_mem fun member => ?_
    obtain ⟨w, listed, rfl⟩ := List.mem_map.mp member
    exact unwatched (posted.watcher l w listed).2.1

theorem consistent (coherent : s.Coherent) : s.Consistent where
  allocated r refers := coherent.allocated_of_live (coherent.live_of_refers refers)
  watched r live := by
    obtain ⟨x, y, first, second, apart⟩ := coherent.front live
    refine ⟨x, y, first, second, apart, fun code => ?_⟩
    have complement (z : Lit) : some z = some (-⟨code⟩) ↔ code = (-z).code := by
      rw [Option.some.injEq]
      constructor
      · rintro rfl
        rw [Lit.neg_neg]
      · rintro rfl
        exact (Lit.neg_neg z).symm
    have counted := coherent.count_watchers live ⟨code⟩
    simp only [first, second, complement] at counted
    exact counted
  placed v assigned := by
    have trail := coherent.engine.trail
    obtain ⟨l, member, same⟩ := trail.exists_mem assigned
    obtain ⟨i, here⟩ := Array.mem_iff_getElem?.mp member
    exact ⟨i, l, here, same, (trail.true_iff l).mpr member, fun j m there other =>
      trail.distinct j i m l there here (other.trans same.symm)⟩
  leveled := coherent.engine.trail.level_eq
  reasoned i l r here reason := by
    obtain ⟨live, first, others⟩ := coherent.engine.reasoned i l r here reason
    refine ⟨first, fun k m later at_k => ?_⟩
    have other : m ≠ l := by
      rintro rfl
      have inside := (Array.getElem?_eq_some_iff.mp at_k).1
      have := Engine.getD_inj (coherent.engine.stored.nodup r live) (Nat.lt_trans later inside)
        inside (by rw [Array.getD_eq_getD_getElem?, Array.getD_eq_getD_getElem?, first, at_k])
      omega
    obtain ⟨j, before, there⟩ := others m (Array.mem_of_getElem? at_k) other
    exact ⟨(coherent.engine.trail.false_iff m).mpr (Array.mem_of_getElem? there), j, before, there⟩
  queued v inside free := coherent.waits.listed v ⟨inside, free⟩
  unmarked b member := by
    obtain ⟨k, here⟩ := Array.mem_iff_getElem?.mp member
    have := coherent.marks.2 k
    rw [Array.getD_eq_getD_getElem?, here] at this
    exact this

end Coherent

/-! Whether the clauses are refuted plays no part. -/

theorem Coherent.congr (coherent : s.Coherent) (s' : Solver) (engine : s'.engine = s.engine)
    (added : s'.added = s.added) (learnts : s'.learnts = s.learnts)
    (branching : s'.branching = s.branching) (seen : s'.seen = s.seen) : s'.Coherent := by
  have live : s'.Live = s.Live := by
    funext q
    rw [Live, Live, added, learnts]
  have trail : s'.trail = s.trail := congrArg Engine.trail engine
  refine ⟨?_, ?_, ?_, ?_, ?_⟩
  · rw [live, engine]
    exact coherent.engine
  · rw [live, engine]
    exact coherent.booked
  · rw [added, learnts]
    exact coherent.apart
  · rw [varCount, trail, branching]
    exact coherent.waits
  · rw [varCount, trail, seen]
    exact coherent.marks

theorem Coherent.withOk (coherent : s.Coherent) (ok : Bool) : { s with ok }.Coherent :=
  coherent.congr _ rfl rfl rfl rfl rfl

theorem Coherent.newVar (coherent : s.Coherent) (run : s.newVar = .ok (v, s')) : s'.Coherent := by
  have open_run : { s with ok := true }.newVar = .ok (v, { s' with ok := true }) := by
    unfold Solver.newVar at run ⊢
    simp only [bind_ok, pure_ok, Prod.mk.injEq] at run ⊢
    obtain ⟨branching, added, rfl, rfl⟩ := run
    exact ⟨branching, added, rfl, rfl⟩
  have knows := (coherent.withOk true).knows rfl
  exact (knows.newVar open_run).1.knows.coherent.withOk s'.ok

end Solver

end ModelCounting
