import ModelCounting.Proofs.Search.Adding
import ModelCounting.Search.Solve

/-!
The search. Between two rounds the solver knows and covers its clauses, and the decisions of its
first levels are the assumptions. So a search that runs out of unassigned variables has found a
model, and one that meets a false assumption has refuted the assumptions.
-/

namespace ModelCounting

structure Trail.Follows (as : List Lit) (t : Trail) : Prop where
  hold : ∀ j l, j < t.depth → as[j]? = some l → l ∈ t.lits ∧ t.level l.var ≤ j + 1
  only : ∀ l ∈ t.lits, t.reason l.var = none → 0 < t.level l.var → t.level l.var ≤ as.length →
    as[t.level l.var - 1]? = some l

namespace Trail.Follows

variable {as : List Lit} {t t' : Trail} {l : Lit} {k : Nat}

theorem root (wf : t.WellFormed) (root : t.depth = 0) : t.Follows as where
  hold j l below := absurd below (by omega)
  only l member _ above := absurd (wf.level_le_depth member) (by omega)

theorem grows (follows : t.Follows as) (grows : t.Grows t')
    (implied : ∀ l ∈ t'.lits, l ∈ t.lits ∨ t'.reason l.var ≠ none ∨ t'.level l.var = 0) :
    t'.Follows as where
  hold j l below here := by
    rw [grows.depth_eq] at below
    obtain ⟨member, low⟩ := follows.hold j l below here
    exact ⟨grows.mem member, by rwa [grows.level_eq l member]⟩
  only l member reason above low := by
    rcases implied l member with old | reasoned | root
    · rw [grows.reason_eq l old] at reason
      rw [grows.level_eq l old] at above low ⊢
      exact follows.only l old reason above low
    · exact absurd reason reasoned
    · omega

theorem openLevel (follows : t.Follows as) (wf : t.WellFormed)
    (held : ∀ l, as[t.depth]? = some l → l ∈ t.lits) : t.openLevel.Follows as where
  hold j l below here := by
    have depth : t.openLevel.depth = t.depth + 1 := Array.size_push ..
    rcases Nat.lt_or_eq_of_le (Nat.le_of_lt_succ (depth ▸ below)) with old | rfl
    · exact follows.hold j l old here
    · have member := held l here
      exact ⟨member, Nat.le_succ_of_le (wf.level_le_depth member)⟩
  only := follows.only

theorem decide (follows : t.Follows as)
    (assigned : t.openLevel.Assigned l none t')
    (next : as[t.depth]? = some l ∨ as.length ≤ t.depth) : t'.Follows as where
  hold j m below found := by
    have depth : t.openLevel.depth = t.depth + 1 := Array.size_push ..
    rw [assigned.depth_eq, depth] at below
    rcases Nat.lt_or_eq_of_le (Nat.le_of_lt_succ below) with old | rfl
    · obtain ⟨member, low⟩ := follows.hold j m old found
      exact ⟨assigned.toGrows.mem member, Nat.le_trans (Nat.le_of_eq (assigned.level_eq m member)) low⟩
    · have here := next.resolve_right (Nat.not_le_of_lt (List.getElem?_eq_some_iff.mp found).1)
      obtain rfl := Option.some.inj (found.symm.trans here)
      exact ⟨assigned.mem, Nat.le_of_eq (assigned.level_self.trans depth)⟩
  only m member reason above low := by
    have depth : t.openLevel.depth = t.depth + 1 := Array.size_push ..
    rcases assigned.mem_iff.mp member with old | rfl
    · rw [assigned.reason_eq m old] at reason
      rw [assigned.level_eq m old] at above low ⊢
      exact follows.only m old reason above low
    · rw [assigned.level_self, depth] at low ⊢
      exact next.resolve_right (Nat.not_le_of_lt low)

theorem lowered (follows : t.Follows as) (lowered : t.Lowered k t') (le : k ≤ t.depth) :
    t'.Follows as where
  hold j l below here := by
    rw [lowered.depth_eq] at below
    obtain ⟨member, low⟩ := follows.hold j l (by omega) here
    exact ⟨lowered.mem_iff.mpr ⟨member, by omega⟩, by rwa [lowered.level_eq]⟩
  only l member reason above low := by
    rw [lowered.reason_eq l member] at reason
    rw [lowered.level_eq] at above low ⊢
    exact follows.only l (lowered.mem member) reason above low

end Trail.Follows

namespace Solver

variable {Γ : List (List Lit)} {as ls : List Lit} {s s' : Solver} {l : Lit} {r : ClauseRef}

structure Searching (Γ : List (List Lit)) (as : List Lit) (s : Solver) : Prop extends Knows Γ s where
  covers : ∀ c ∈ Γ, s.Covered c
  drawn : Engine.Drawn s.Live s.engine s.trail.head
  follows : s.trail.Follows as
  named : ∀ l ∈ as, l.var.id < s.varCount

theorem Settled.tunes (settled : s.Settled Γ) (tunes : Tunes Γ s s') : s'.Settled Γ where
  toKnows := tunes.knows
  covers c member := tunes.covers c (settled.covers c member)
  drawn := tunes.trail ▸ tunes.drawn _ settled.drawn
  drained := tunes.trail ▸ settled.drained

theorem Searching.tunes (searching : s.Searching Γ as) (tunes : Tunes Γ s s') :
    s'.Searching Γ as where
  toKnows := tunes.knows
  covers c member := tunes.covers c (searching.covers c member)
  drawn := tunes.trail ▸ tunes.drawn _ searching.drawn
  follows := tunes.trail ▸ searching.follows
  named l member := by
    rw [varCount, tunes.trail]
    exact searching.named l member

theorem Knows.recover (knows : s.Knows Γ) (covers : ∀ c ∈ Γ, s.Covered c)
    (follows : s.trail.Follows as) (named : ∀ l ∈ as, l.var.id < s.varCount)
    (conflicting : Engine.Conflicting s.Live s.engine r)
    (drawn : ∃ k, Engine.Drawn s.Live s.engine k ∧ ∀ n ∈ s.trail.starts, n ≤ k) (above : 0 < s.depth)
    (run : s.recover r = .ok s') : s'.Searching Γ as ∧ s'.varCount = s.varCount := by
  unfold Solver.recover at run
  simp only [bind_ok, pure_ok, Prod.exists] at run
  obtain ⟨lesson, s₁, analyzed, s₂, lowered, s₃, learnt, rfl⟩ := run
  obtain ⟨tunes, teaches⟩ := knows.analyze conflicting above analyzed
  have trail₁ := tunes.trail
  have below : lesson.level < s₁.depth := by
    rw [depth, trail₁]
    exact teaches.level_lt
  obtain ⟨keeps₂, low, drawn₂⟩ := tunes.knows.backTo below lowered
  rw [trail₁] at low
  obtain ⟨k, drawn_k, starts_le⟩ := drawn
  have drawn₂ := drawn₂ k (starts_le _ (Array.mem_of_getElem? low.start)) (tunes.drawn k drawn_k)
  have depth₂ : s₂.depth = lesson.level := low.depth_eq
  have inside (l : Lit) (member : l ∈ lesson.lits) : l.var.id < s₂.varCount := by
    have := knows.engine.trail.var_lt (teaches.falsified l member)
    rw [Lit.var_neg] at this
    rw [varCount, low.varCount_eq]
    exact this
  have others (l : Lit) (member : l ∈ lesson.lits) (other : l ≠ lesson.lits.getD 0 default) :
      -l ∈ s₂.trail.lits := by
    refine low.mem_iff.mpr ⟨teaches.falsified l member, ?_⟩
    rw [Lit.var_neg]
    exact teaches.others_level l member other
  obtain ⟨keeps₃, drawn₃, reason, assigned, rooted⟩ := keeps₂.knows.learn teaches.filled
    teaches.nodup inside (fun value models => teaches.entailed value (knows.grounded models)) others
    (fun long => by rw [low.level_eq, depth₂]; exact teaches.second_level long)
    (fun single => by rw [depth₂]; exact teaches.unit_level single) learnt
  have keeps := (tunes.toKeeps.trans keeps₂).trans keeps₃
  have searching : s₃.Searching Γ as := by
    refine ⟨keeps.knows, fun c member => keeps.covers c (covers c member), drawn₃ drawn₂, ?_,
      fun l member => ?_⟩
    -- The asserted literal has a reason or lies at the root, so it is taken for no assumption.
    · have follows₂ := follows.lowered low (Nat.le_of_lt teaches.level_lt)
      refine follows₂.grows assigned.toGrows fun l member => ?_
      rcases assigned.mem_iff.mp member with old | rfl
      · exact .inl old
      · refine .inr ?_
        rw [assigned.reason_self, assigned.level_self]
        by_cases unreasoned : reason = none
        · exact .inr (rooted unreasoned)
        · exact .inl unreasoned
    · rw [varCount, assigned.varCount_eq, low.varCount_eq]
      exact named l member
  refine ⟨searching.tunes (keeps.knows.congr _ rfl rfl rfl rfl rfl rfl), ?_⟩
  exact assigned.varCount_eq.trans low.varCount_eq

def Choice.Fits (as : List Lit) (s : Solver) : Choice → Prop
  | .refuted => ∃ l, as[s.depth]? = some l ∧ s.value l = .fls
  | .decide l => as[s.depth]? = some l
  | .free => as.length ≤ s.depth

theorem Settled.assume {choice : Choice} (settled : s.Settled Γ) (follows : s.trail.Follows as)
    (named : ∀ l ∈ as, l.var.id < s.varCount) (next : ls = as.drop s.depth)
    (run : assume ls s = (choice, s')) :
    s'.Settled Γ ∧ s'.trail.Follows as ∧ s'.varCount = s.varCount ∧ choice.Fits as s' := by
  induction ls generalizing s with
  | nil =>
    cases run
    exact ⟨settled, follows, rfl, List.drop_eq_nil_iff.mp next.symm⟩
  | cons l ls ih =>
    have here : as[s.depth]? = some l := by
      rw [← List.head?_drop, ← next]
      rfl
    unfold Solver.assume at run
    split at run
    · rename_i holds
      have on := (settled.engine.trail.true_iff l).mp holds
      have opened := settled.toKnows.openLevel settled.drained
      refine ih (s := s.openLevel) ⟨opened.knows, fun c member => opened.covers c (settled.covers c member),
        settled.drawn, settled.drained⟩ (follows.openLevel settled.engine.trail fun m found => ?_) named
        ?_ run
      · exact Option.some.inj (here.symm.trans found) ▸ on
      · have depth : s.openLevel.depth = s.depth + 1 := Array.size_push ..
        rw [depth, ← List.drop_drop, ← next]
        rfl
    · rename_i fails
      cases run
      exact ⟨settled, follows, rfl, l, here, fails⟩
    · cases run
      exact ⟨settled, follows, rfl, here⟩

theorem Settled.branch (settled : s.Settled Γ) (follows : s.trail.Follows as)
    (named : ∀ l ∈ as, l.var.id < s.varCount) (inside : l.var.id < s.varCount)
    (next : as[s.depth]? = some l ∨ as.length ≤ s.depth) (run : s.branch l = .ok s') :
    s'.Searching Γ as ∧ l ∈ s'.trail.lits ∧ s'.varCount = s.varCount ∧
      ∀ v, s'.trail.valueVar v = .undef → s.trail.valueVar v = .undef := by
  unfold Solver.branch at run
  have opened := settled.toKnows.openLevel settled.drained
  have depth : s.openLevel.depth = s.depth + 1 := Array.size_push ..
  obtain ⟨keeps, assigned, _, _, drawn⟩ := opened.knows.assign (l := l) inside (by simp)
    (fun _ root => absurd root (by omega)) run
  refine ⟨⟨keeps.knows, fun c member => keeps.covers c (opened.covers c (settled.covers c member)),
    drawn settled.drawn, follows.decide assigned next, fun m member => ?_⟩, assigned.mem,
    assigned.varCount_eq, fun v => ?_⟩
  · rw [varCount, assigned.varCount_eq]
    exact named m member
  · exact assigned.toGrows.undef_mono opened.knows.engine.trail keeps.knows.engine.trail

theorem Settled.refutes (settled : s.Settled Γ) (follows : s.trail.Follows as)
    (here : as[s.depth]? = some l) (fails : s.value l = .fls) (value : Var → Bool)
    (models : Models value Γ) : ¬ ∀ m ∈ as, m.holds value = true := by
  intro assumed
  have wf : s.trail.WellFormed := settled.engine.trail
  have on := (wf.false_iff l).mp fails
  have inside : s.depth < as.length := (List.getElem?_eq_some_iff.mp here).1
  have holds := settled.engine.implied (k := s.depth)
    (fun r alive => settled.entailed r alive value models) (fun m member low reason => by
      rcases Nat.eq_zero_or_pos (s.trail.level m.var) with root | above
      · exact holds_unit.mp (settled.roots m member root reason value models)
      · exact assumed m (List.mem_of_getElem?
          (follows.only m member reason above (Nat.le_trans low (Nat.le_of_lt inside))))) (-l) on
    (wf.level_le_depth on)
  rw [Store.holds_neg, assumed l (List.mem_of_getElem? here)] at holds
  cases holds

/-- What a search can end with. -/
def Ends (Γ : List (List Lit)) (as : List Lit) (s : Solver) : Truth → Prop
  | .tru => s.Settled Γ ∧ s.trail.Follows as ∧ as.length ≤ s.depth ∧
      ∀ v : Var, v.id < s.varCount → s.trail.valueVar v ≠ .undef
  | .fls => (s.ok = false ∧ s.depth = 0 ∧ Refuted Γ) ∨
      (s.Settled Γ ∧ ∀ value, Models value Γ → ¬ ∀ l ∈ as, l.holds value = true)
  | .undef => s.Settled Γ ∧ s.depth = 0

theorem Settled.backToRoot (settled : s.Settled Γ) (run : s.backTo 0 = .ok s') :
    s'.Settled Γ ∧ s'.depth = 0 ∧ s'.varCount = s.varCount := by
  rcases Nat.eq_zero_or_pos s.depth with root | above
  · rw [backTo_same (Nat.le_of_eq root)] at run
    cases run
    exact ⟨settled, root, rfl⟩
  · obtain ⟨keeps, lowered, drawn⟩ := settled.toKnows.backTo above run
    refine ⟨⟨keeps.knows, fun c member => keeps.covers c (settled.covers c member),
      drawn _ ?_ settled.drawn, lowered.head_eq⟩, lowered.depth_eq, lowered.varCount_eq⟩
    exact settled.engine.trail.starts_le _ (Array.mem_of_getElem? lowered.start)

theorem backTo_model {level : Nat} (run : s.backTo level = .ok s') : s'.model = s.model := by
  unfold Solver.backTo at run
  split at run
  · simp only [bind_ok, pure_ok, Prod.exists] at run
    obtain ⟨_, _, _, rfl⟩ := run
    rfl
  · cases run
    rfl

theorem Settled.pickNone {branching : Branching} {n : Nat} (settled : s.Settled Γ)
    (picked : s.branching.pick s.trail.valueVar n = .ok (none, branching)) :
    { s with branching }.Settled Γ ∧
      ∀ v : Var, v.id < s.varCount → s.trail.valueVar v ≠ .undef := by
  obtain ⟨waits, all, _⟩ := Branching.pick_awaits settled.waits picked
  have tuned := settled.tuned (x := s.clauseIncrement) (.refl _)
    (waits.mono fun v waiting => ⟨waiting.1, waiting.2, by simp⟩) settled.marks
  exact ⟨settled.tunes ⟨tuned, rfl, fun n drawn => drawn⟩, fun v inside => all rfl v inside⟩

theorem Settled.branchPicked {branching : Branching} {n : Nat} (settled : s.Settled Γ)
    (follows : s.trail.Follows as) (named : ∀ l ∈ as, l.var.id < s.varCount)
    (free : as.length ≤ s.depth)
    (picked : s.branching.pick s.trail.valueVar n = .ok (some l, branching))
    (run : { s with branching }.branch l = .ok s') :
    s'.Searching Γ as ∧ s'.varCount = s.varCount := by
  obtain ⟨waits, _, found⟩ := Branching.pick_awaits settled.waits picked
  obtain ⟨_, inside⟩ := found l rfl
  -- The queue plays no part in branching, so it may be replaced afterwards.
  obtain ⟨s₁, branched, rfl⟩ : ∃ s₁, s.branch l = .ok s₁ ∧ s' = { s₁ with branching } := by
    simp only [Solver.branch, Solver.assign, bind_ok, pure_ok] at run ⊢
    obtain ⟨engine, assigned, rfl⟩ := run
    exact ⟨_, ⟨engine, assigned, rfl⟩, rfl⟩
  obtain ⟨searching, on, count, fewer⟩ := settled.branch follows named inside (.inr free) branched
  have waits₁ : branching.Awaits s₁.varCount
      fun v => v.id < s₁.varCount ∧ s₁.trail.valueVar v = .undef := by
    rw [count]
    refine waits.mono fun v waiting => ⟨waiting.1, fewer v waiting.2, fun m same => ?_⟩
    obtain rfl := Option.some.inj same
    exact (searching.engine.trail.undef_iff v).mp waiting.2 l on
  have tuned := searching.tuned (x := s₁.clauseIncrement) (.refl _) waits₁ searching.marks
  exact ⟨searching.tunes ⟨tuned, rfl, fun n drawn => drawn⟩, count⟩

/-- Each round of a search keeps what is known, and its end is what it says. -/
theorem Searching.searchWithin {limit n met : Nat} {status : Truth} (searching : s.Searching Γ as)
    (run : searchWithin limit as n met s = .ok (status, s')) :
    s'.Ends Γ as status ∧ s'.varCount = s.varCount := by
  induction n generalizing s met with
  | zero => cases run
  | succ n ih =>
    unfold Solver.searchWithin at run
    simp only [bind_ok, Prod.exists] at run
    obtain ⟨conflict, s₁, propagated, run⟩ := run
    obtain ⟨keeps₁, done⟩ := searching.toKnows.propagate searching.drawn propagated
    have covers₁ (c : List Lit) (member : c ∈ Γ) := keeps₁.covers c (searching.covers c member)
    have count₁ : s₁.varCount = s.varCount := done.spread.grows.varCount_eq
    have follows₁ : s₁.trail.Follows as := searching.follows.grows done.spread.grows fun l member =>
      (done.spread.implied l member).imp_right .inl
    have named₁ (l : Lit) (member : l ∈ as) : l.var.id < s₁.varCount :=
      count₁ ▸ searching.named l member
    obtain ⟨k, drawn₁, starts_le, all⟩ := done.drawn
    cases conflict with
    | some r =>
      simp only at run
      -- At the root there is nothing to take back; above it the lesson is learnt and the rounds go on.
      split at run
      · rename_i root
        cases run
        exact ⟨.inl ⟨rfl, root, keeps₁.knows.refuted (done.conflicting r rfl) root⟩, count₁⟩
      · rename_i above
        simp only [bind_ok] at run
        obtain ⟨s₂, recovered, run⟩ := run
        have counted := keeps₁.knows.congr { s₁ with conflicts := s₁.conflicts + 1 }
          rfl rfl rfl rfl rfl rfl
        obtain ⟨searching₂, count₂⟩ := counted.knows.recover
          (fun c member => counted.covers c (covers₁ c member)) follows₁ named₁
          (done.conflicting r rfl) ⟨k, drawn₁, starts_le⟩ (Nat.pos_of_ne_zero above) recovered
        obtain ⟨ends, count⟩ := ih searching₂ run
        exact ⟨ends, count.trans (count₂.trans count₁)⟩
    | none =>
      have settled₁ : s₁.Settled Γ := by
        refine ⟨keeps₁.knows, covers₁, ?_, done.settled⟩
        rw [trail, done.settled, ← all rfl]
        exact drawn₁
      simp only at run
      -- The limit is reached: the search is given up, at the root.
      split at run
      · simp only [bind_ok, pure_ok, Prod.mk.injEq] at run
        obtain ⟨s₂, lowered, rfl, rfl⟩ := run
        obtain ⟨settled₂, root, count₂⟩ := settled₁.backToRoot lowered
        have counted := settled₂.toKnows.congr { s₂ with restarts := s₂.restarts + 1 }
          rfl rfl rfl rfl rfl rfl
        exact ⟨⟨settled₂.tunes counted, root⟩, count₂.trans count₁⟩
      · generalize reduced : (if s₁.learnts.size.toFloat - s₁.trail.lits.size.toFloat ≥ s₁.maxLearnts
          then s₁.reduce else s₁) = s₂ at run
        have tunes : Tunes Γ s₁ s₂ := by
          subst reduced
          split
          · exact keeps₁.knows.reduce
          · exact ⟨keeps₁.knows.keeps, rfl, fun _ drawn => drawn⟩
        have settled₂ := settled₁.tunes tunes
        have count₂ : s₂.varCount = s.varCount := (congrArg Trail.varCount tunes.trail).trans count₁
        -- Next come the assumptions that have no level yet.
        generalize assumed : assume (as.drop s₂.depth) s₂ = result at run
        obtain ⟨choice, s₃⟩ := result
        obtain ⟨settled₃, follows₃, count₃, fits⟩ := settled₂.assume (tunes.trail ▸ follows₁)
          (fun l member => count₂ ▸ searching.named l member) rfl assumed
        have count₃ := count₃.trans count₂
        have named₃ (l : Lit) (member : l ∈ as) : l.var.id < s₃.varCount :=
          count₃ ▸ searching.named l member
        cases choice with
        | refuted =>
          cases run
          obtain ⟨l, here, fails⟩ := fits
          exact ⟨.inr ⟨settled₃, settled₃.refutes follows₃ here fails⟩, count₃⟩
        | decide l =>
          simp only [bind_ok] at run
          obtain ⟨s₄, branched, run⟩ := run
          obtain ⟨searching₄, _, count₄, _⟩ := settled₃.branch follows₃ named₃
            (named₃ l (List.mem_of_getElem? fits)) (.inl fits) branched
          obtain ⟨ends, count⟩ := ih searching₄ run
          exact ⟨ends, count.trans (count₄.trans count₃)⟩
        | free =>
          simp only [bind_ok, Prod.exists] at run
          obtain ⟨choice, branching, picked, run⟩ := run
          have counted := settled₃.toKnows.congr { s₃ with decisions := s₃.decisions + 1 }
            rfl rfl rfl rfl rfl rfl
          have settled₄ := settled₃.tunes counted
          cases choice with
          | none =>
            cases run
            exact ⟨⟨(settled₄.pickNone picked).1, follows₃, fits, (settled₄.pickNone picked).2⟩, count₃⟩
          | some l =>
            simp only [bind_ok] at run
            obtain ⟨s₅, branched, run⟩ := run
            obtain ⟨searching₅, count₅⟩ := settled₄.branchPicked follows₃ named₃ fits picked branched
            obtain ⟨ends, count⟩ := ih searching₅ run
            exact ⟨ends, count.trans (count₅.trans count₃)⟩

theorem Ends.congr {status : Truth} (ends : s.Ends Γ as status) (s' : Solver)
    (tunes : s.Knows Γ → Tunes Γ s s') (ok : s'.ok = s.ok) (trail : s'.trail = s.trail) :
    s'.Ends Γ as status := by
  cases status with
  | tru =>
    obtain ⟨settled, follows, full, assigned⟩ := ends
    refine ⟨settled.tunes (tunes settled.toKnows), trail ▸ follows, ?_, ?_⟩
    · rw [depth, trail]
      exact full
    · rw [varCount, trail]
      exact assigned
  | fls =>
    rcases ends with ⟨failed, root, refuted⟩ | ⟨settled, refuted⟩
    · exact .inl ⟨ok.trans failed, (congrArg Trail.depth trail).trans root, refuted⟩
    · exact .inr ⟨settled.tunes (tunes settled.toKnows), refuted⟩
  | undef => exact ⟨ends.1.tunes (tunes ends.1.toKnows), (congrArg Trail.depth trail).trans ends.2⟩

theorem Settled.solveFrom {n restart : Nat} {status : Truth} (settled : s.Settled Γ)
    (root : s.depth = 0) (named : ∀ l ∈ as, l.var.id < s.varCount)
    (run : solveFrom as n restart s = .ok (status, s')) :
    s'.Ends Γ as status ∧ status ≠ .undef ∧ s'.varCount = s.varCount := by
  induction n generalizing s restart with
  | zero => cases run
  | succ n ih =>
    unfold Solver.solveFrom at run
    simp only [bind_ok, Prod.exists] at run
    obtain ⟨limit, _, status₁, s₁, searched, run⟩ := run
    have searching : s.Searching Γ as := { settled with
      follows := .root settled.engine.trail root
      named }
    obtain ⟨ends, count⟩ := searching.searchWithin searched
    have ends := ends.congr { s₁ with
      maxLearnts := s₁.maxLearnts * s₁.settings.learntGrowth }
      (fun knows => knows.congr _ rfl rfl rfl rfl rfl rfl) rfl rfl
    cases status₁ with
    | undef =>
      obtain ⟨ends', decided, count'⟩ := ih ends.1 ends.2
        (fun l member => Nat.lt_of_lt_of_eq (named l member) count.symm) run
      exact ⟨ends', decided, count'.trans count⟩
    | tru =>
      cases run
      exact ⟨ends, by simp, count⟩
    | fls =>
      cases run
      exact ⟨ends, by simp, count⟩

/-! The model that is found. -/

/-- Once all variables are assigned and all consequences drawn, every clause has a true literal. -/
theorem Settled.satisfies (settled : s.Settled Γ)
    (assigned : ∀ v : Var, v.id < s.varCount → s.trail.valueVar v ≠ .undef) {c : List Lit}
    (member : c ∈ Γ) : ∃ l ∈ c, l ∈ s.trail.lits := by
  have wf : s.trail.WellFormed := settled.engine.trail
  have decided (l : Lit) (inside : l.var.id < s.varCount) : l ∈ s.trail.lits ∨ -l ∈ s.trail.lits := by
    have := assigned l.var inside
    rw [ne_eq, ← Trail.value_of_var] at this
    rw [← wf.true_iff, ← wf.false_iff]
    exact (s.trail.value_cases l).imp_right fun h => h.resolve_right this
  rcases settled.covers c member with ⟨l, member, negated, inside⟩ | ⟨l, member, on, _⟩ | ⟨r, stored, within⟩
  · rcases decided l inside with on | on
    · exact ⟨l, member, on⟩
    · exact ⟨-l, negated, on⟩
  · exact ⟨l, member, on⟩
  · have alive : s.Live r := .inl stored
    have filled : 0 < (s.engine.bank.lits r).size :=
      Nat.lt_of_succ_lt (settled.engine.stored.long r alive)
    have front := Engine.getElem?_getD filled
    generalize (s.engine.bank.lits r).getD 0 default = l at front
    have member := Array.mem_of_getElem? front
    rcases decided l (settled.engine.stored.inside r l member) with on | on
    · exact ⟨l, within l member, on⟩
    -- The first literal is watched and false, so the clause is satisfied by another one.
    · obtain ⟨i, here⟩ := Array.mem_iff_getElem?.mp on
      have lt := (Array.getElem?_eq_some_iff.mp here).1
      rw [← settled.drained] at lt
      obtain ⟨q, member, on, _⟩ := settled.drawn r alive l (.inl front) i lt here
      exact ⟨q, within q member, on⟩

/-- A literal is true in a model that lists the value of each variable. -/
def Satisfies (model : Array Bool) (l : Lit) : Prop := model[l.var.id]? = some l.phase

theorem satisfies_of_mem (wf : s.trail.WellFormed) (member : l ∈ s.trail.lits) :
    Satisfies (s.trail.values.map (· == .tru)) l := by
  have inside : l.var.id < s.trail.values.size := wf.var_lt member
  have true_ := (wf.true_iff l).mpr member
  simp only [Trail.value, Trail.valueVar, Array.getD, inside, dif_pos] at true_
  unfold Satisfies
  rw [Array.getElem?_map, Array.getElem?_eq_getElem inside, Option.map_some]
  cases phase : l.phase with
  | true =>
    rw [phase, if_pos rfl] at true_
    exact congrArg some (beq_iff_eq.mpr true_)
  | false =>
    rw [phase, if_neg (by simp), Truth.negate_eq_tru] at true_
    change some (_ == Truth.tru) = _
    rw [show s.trail.values[l.var.id] = .fls from true_]
    rfl

/-- What an answer says: there is a model, with a value for each variable, in which every clause and
every assumption is true, or there is none. -/
def Answers (Γ : List (List Lit)) (as : List Lit) (s : Solver) : Bool → Prop
  | true => ∃ model, s.model = some model ∧ model.size = s.varCount ∧
      (∀ c ∈ Γ, ∃ l ∈ c, Satisfies model l) ∧ ∀ l ∈ as, Satisfies model l
  | false => ∀ value, Models value Γ → ¬ ∀ l ∈ as, l.holds value = true

theorem AtRest.solve {answer : Bool} (rest : s.AtRest Γ) (run : s.solve as = .ok (answer, s')) :
    s'.AtRest Γ ∧ s'.Answers Γ as answer := by
  have cleared : { s with model := none }.AtRest Γ := rest.imp_right fun ⟨root, settled⟩ =>
    ⟨root, settled.tunes (settled.toKnows.congr _ rfl rfl rfl rfl rfl rfl)⟩
  unfold Solver.solve at run
  generalize ({ s with model := none } : Solver) = s at cleared run
  rcases cleared with ⟨failed, refuted⟩ | ⟨root, settled⟩
  · simp only [failed] at run
    cases run
    exact ⟨.inl ⟨failed, refuted⟩, fun value models => absurd models (refuted value)⟩
  simp only [settled.ok, Bool.not_true, Bool.false_eq_true, if_false, bind_ok, Prod.exists, pure_ok,
    Prod.mk.injEq] at run
  obtain ⟨s₁, reserved, status, s₂, searched, s₃, lowered, rfl, rfl⟩ := run
  obtain ⟨keeps, widened, named⟩ := settled.toKnows.reserve reserved
  have settled₁ := settled.widen keeps widened
  have root₁ : s₁.depth = 0 := (congrArg Array.size widened.starts_eq).trans root
  have limited := settled₁.toKnows.congr { s₁ with
    maxLearnts := atLeast 10 (s₁.added.size.toFloat * s₁.settings.learntShare) }
    rfl rfl rfl rfl rfl rfl
  obtain ⟨ends, decided, count⟩ := (settled₁.tunes limited).solveFrom root₁ named searched
  cases status with
  | undef => exact absurd rfl decided
  | tru =>
    obtain ⟨settled₂, follows, full, assigned⟩ := ends
    have wf : s₂.trail.WellFormed := settled₂.engine.trail
    have kept := settled₂.toKnows.congr
      { s₂ with model := some (s₂.trail.values.map (· == .tru)) } rfl rfl rfl rfl rfl rfl
    obtain ⟨settled₃, root₃, count₃⟩ := (settled₂.tunes kept).backToRoot lowered
    have model_eq := backTo_model lowered
    refine ⟨.inr ⟨root₃, settled₃⟩, _, model_eq, ?_, fun c member => ?_, fun l member => ?_⟩
    · rw [Array.size_map, count₃]
      rfl
    · obtain ⟨l, inner, on⟩ := settled₂.satisfies assigned member
      exact ⟨l, inner, satisfies_of_mem wf on⟩
    · obtain ⟨j, here⟩ := List.mem_iff_getElem?.mp member
      have inside := (List.getElem?_eq_some_iff.mp here).1
      exact satisfies_of_mem wf (follows.hold j l (Nat.lt_of_lt_of_le inside full) here).1
  | fls =>
    rcases ends with ⟨failed, root₂, refuted⟩ | ⟨settled₂, refuted⟩
    · have same := lowered
      rw [if_neg (by simp), backTo_same (Nat.le_of_eq root₂)] at same
      cases same
      exact ⟨.inl ⟨failed, refuted⟩, fun value models => absurd models (refuted value)⟩
    · obtain ⟨settled₃, root₃, _⟩ := settled₂.backToRoot lowered
      exact ⟨.inr ⟨root₃, settled₃⟩, refuted⟩

/-! Histories. -/

/-- The solvers that a sequence of requests leads to, with the clauses that were added on the way,
latest first. -/
inductive History (settings : Settings) : List (List Lit) → Solver → Prop
  | fresh : History settings [] { settings }
  | newVar {Γ : List (List Lit)} {s s' : Solver} {v : Var} (history : History settings Γ s)
      (run : s.newVar = .ok (v, s')) : History settings Γ s'
  | addClause {Γ : List (List Lit)} {s s' : Solver} {ls : List Lit} {answer : Bool}
      (history : History settings Γ s) (run : s.addClause ls = .ok (answer, s')) :
      History settings (ls :: Γ) s'
  | solve {Γ : List (List Lit)} {s s' : Solver} {as : List Lit} {answer : Bool}
      (history : History settings Γ s) (run : s.solve as = .ok (answer, s')) :
      History settings Γ s'

theorem AtRest.fresh (settings : Settings) : ({ settings } : Solver).AtRest [] := by
  have live (r : ClauseRef) : ¬ ({ settings } : Solver).Live r := by simp [Live]
  have engine : ({} : Engine).WellFormed ({ settings } : Solver).Live := by
    refine ⟨.empty, rfl, ⟨fun r alive => absurd alive (live r), fun r alive => absurd alive (live r),
      fun r l member => ?_⟩, ⟨fun r alive => absurd alive (live r), fun l w member => ?_, fun l => ?_⟩,
      fun i l r here => ?_⟩
    · simp [ClauseBank.lits, ClauseBank.get] at member
    · simp [Engine.watchers] at member
    · simp [Engine.watchers]
    · simp at here
  refine .inr ⟨rfl, ⟨⟨rfl, engine, ⟨by simp, by simp, by simp⟩, by simp,
    fun r alive => absurd alive (live r), by simp [Solver.trail], ⟨?_, ?_, by simp⟩, ⟨rfl, by simp⟩⟩,
    by simp, fun r alive => absurd alive (live r), rfl⟩⟩
  · intro v i found
    simp [VarQueue.place?] at found
  · intro v waiting
    exact absurd waiting.1 (Nat.not_lt_zero _)

theorem AtRest.newVar {v : Var} (rest : s.AtRest Γ) (run : s.newVar = .ok (v, s')) :
    s'.AtRest Γ := by
  rcases rest with ⟨failed, refuted⟩ | ⟨root, settled⟩
  · refine .inl ⟨?_, refuted⟩
    simp only [Solver.newVar, bind_ok, pure_ok, Prod.mk.injEq] at run
    obtain ⟨branching, _, rfl, rfl⟩ := run
    exact failed
  · obtain ⟨keeps, widened, _⟩ := settled.toKnows.newVar run
    exact .inr ⟨(congrArg Array.size widened.starts_eq).trans root, settled.widen keeps widened⟩

theorem History.atRest {settings : Settings} (history : History settings Γ s) : s.AtRest Γ := by
  induction history with
  | fresh => exact .fresh settings
  | newVar _ run ih => exact ih.newVar run
  | addClause _ run ih => exact ih.addClause run
  | solve _ run ih => exact (ih.solve run).1

/-- Whatever was asked of a solver before: it gives up on its clauses only if they are
contradictory, and answers rightly whether they have a model in which the assumptions hold. -/
theorem History.solve_sound {settings : Settings} (history : History settings Γ s) :
    (s.ok = false → Refuted Γ) ∧
      ∀ as answer s', s.solve as = .ok (answer, s') → s'.Answers Γ as answer := by
  have rest := history.atRest
  refine ⟨fun failed => ?_, fun as answer s' run => (rest.solve run).2⟩
  rcases rest with ⟨_, refuted⟩ | ⟨_, settled⟩
  · exact refuted
  · rw [settled.ok] at failed
    cases failed

/-- Two variables that determine a third both ways: they cannot both be true, which is learnt, but one can.
Once both are added the clauses are given up. -/
theorem history_solve_learnt : ∃ Γ s s₁ s₂ s₃,
    Γ = [[.of ⟨0⟩ false, .of ⟨1⟩ false, .of ⟨2⟩ false], [.of ⟨0⟩ false, .of ⟨1⟩ false, .of ⟨2⟩ true]] ∧
    History {} Γ s ∧
      s.solve [.of ⟨0⟩ true, .of ⟨1⟩ true] = .ok (false, s₁) ∧ s₁.learnts.size = 1 ∧
        s₁.Answers Γ [.of ⟨0⟩ true, .of ⟨1⟩ true] false ∧
      s₁.solve [.of ⟨0⟩ true] = .ok (true, s₂) ∧ s₂.Answers Γ [.of ⟨0⟩ true] true ∧
      History {} ([.of ⟨1⟩ true] :: [.of ⟨0⟩ true] :: Γ) s₃ ∧ s₃.ok = false ∧
        Refuted ([.of ⟨1⟩ true] :: [.of ⟨0⟩ true] :: Γ) := by
  have ran : (do
      let x₁ ← ({} : Solver).addClause [.of ⟨0⟩ false, .of ⟨1⟩ false, .of ⟨2⟩ true]
      let x₂ ← x₁.2.addClause [.of ⟨0⟩ false, .of ⟨1⟩ false, .of ⟨2⟩ false]
      let y₁ ← x₂.2.solve [.of ⟨0⟩ true, .of ⟨1⟩ true]
      let y₂ ← y₁.2.solve [.of ⟨0⟩ true]
      let x₃ ← y₂.2.addClause [.of ⟨0⟩ true]
      let x₄ ← x₃.2.addClause [.of ⟨1⟩ true]
      return decide (y₁.1 = false ∧ y₁.2.learnts.size = 1 ∧ y₂.1 = true ∧ x₄.2.ok = false) :
        Except Fault Bool) = .ok true := by decide +kernel
  simp only [bind_ok, pure_ok, Prod.exists] at ran
  obtain ⟨_, _, first, _, s, second, _, s₁, solved, _, s₂, solved', _, _, third, _, s₃, fourth, facts⟩ := ran
  obtain ⟨rfl, learnts, rfl, failed⟩ := of_decide_eq_true facts
  have history := (History.fresh.addClause first).addClause second
  have later := history.solve solved
  have last := ((later.solve solved').addClause third).addClause fourth
  exact ⟨_, s, s₁, s₂, s₃, rfl, history, solved, learnts, history.solve_sound.2 _ _ _ solved, solved',
    later.solve_sound.2 _ _ _ solved', last, failed, last.solve_sound.1 failed⟩

end Solver

end ModelCounting
