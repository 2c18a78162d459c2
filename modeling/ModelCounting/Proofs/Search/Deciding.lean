import ModelCounting.Proofs.Search.Closure
import ModelCounting.Proofs.Search.Driving

/-!
What the steps of a driven solver bring. A decision opens a level with the decided literal, and what
follows from it comes after; a lesson that is asserted adds to the level there is. Both go on covering
the clauses. Where the clauses have a model, a step that fails leaves a lesson, and while no conflict is
open none of the clauses is false.
-/

namespace ModelCounting

namespace Stepper

variable {Γ : List (List Lit)} {p q : Stepper} {v : Var} {l : Lit} {phase consistent : Bool}
  {ls : List Lit}

open Solver (Keeps)

/-- Propagation adds to the trail, goes on covering the clauses, and leaves a lesson if it fails. -/
structure Settles (Γ : List (List Lit)) (p : Stepper) (consistent : Bool) (q : Stepper) : Prop where
  keeps : Keeps Γ p.core q.core
  grows : p.core.trail.Grows q.core.trail
  implied : ∀ l ∈ q.core.trail.lits, l ∈ p.core.trail.lits ∨ q.core.trail.reason l.var ≠ none
  taught : ¬ Refuted Γ → consistent = false → q.lesson ≠ none
  unreported : q.unreported = p.unreported

theorem settle_settles (core : p.core.Poised Γ)
    (drawn : Engine.Drawn p.core.Live p.core.engine p.core.trail.head)
    (run : p.settle = .ok (consistent, q)) : p.Settles Γ consistent q := by
  obtain ⟨⟨conflict, s⟩, ran, run⟩ := bind_ok.mp run
  obtain ⟨keeps, propagated⟩ := core.toKnows.propagate drawn ran
  have grows : p.core.trail.Grows s.trail := propagated.spread.grows
  have implied : ∀ l ∈ s.trail.lits, l ∈ p.core.trail.lits ∨ s.trail.reason l.var ≠ none :=
    propagated.spread.implied
  cases conflict with
  | none =>
    cases run
    exact ⟨keeps, grows, implied, fun _ => nofun, rfl⟩
  | some r =>
    have core' := ((core.propagate drawn).answer ran).1
    simp only at run
    split at run
    · rename_i above
      obtain ⟨⟨lesson, s'⟩, analyzed, run⟩ := bind_ok.mp run
      cases run
      have tunes := ((core'.analyze (propagated.conflicting r rfl) above).answer analyzed).2.1
      have same : s'.trail = s.trail := tunes.trail
      exact ⟨keeps.trans tunes.toKeeps, same ▸ grows, same ▸ implied, fun _ _ => Option.some_ne_none _, rfl⟩
    · rename_i root
      cases run
      refine ⟨keeps, grows, implied, fun model _ => ?_, rfl⟩
      exact absurd (core'.toKnows.refuted (propagated.conflicting r rfl) (by simpa using root)) model

/-- A decision opens a level with its literal, and what follows from it comes after. -/
structure Decides (Γ : List (List Lit)) (p : Stepper) (l : Lit) (consistent : Bool) (q : Stepper) :
    Prop where
  keeps : Keeps Γ p.core q.core
  starts_eq : q.core.trail.starts = p.core.trail.starts.push p.core.trail.lits.size
  lits_eq : ∃ implied, q.core.trail.lits.toList = p.core.trail.lits.toList ++ l :: implied
  implied : ∀ m ∈ q.core.trail.lits, m ∈ p.core.trail.lits ∨ m = l ∨ q.core.trail.reason m.var ≠ none
  taught : ¬ Refuted Γ → consistent = false → q.lesson ≠ none
  unreported : q.unreported = true

theorem Calm.decide_decides (calm : p.Calm Γ) (inside : v.id < p.core.varCount)
    (unassigned : p.core.trail.valueVar v = .undef) (run : p.decide v phase = .ok (consistent, q)) :
    p.Decides Γ (.of v phase) consistent q := by
  have small : v.id < 0x80000000 := Nat.lt_of_lt_of_le inside (calm.count ▸ calm.words)
  have value : p.core.openLevel.valueOf (Lit.of v phase) = .ok .undef := by
    unfold Solver.valueOf
    rw [if_pos (by rw [Lit.var_of]; exact inside)]
    exact congrArg Except.ok ((Trail.value_of_var _ _).mpr (by rw [Lit.var_of]; exact unassigned))
  unfold Stepper.decide at run
  simp only [packed_eq small] at run
  obtain ⟨truth, same, run⟩ := bind_ok.mp run
  obtain rfl := Except.ok.inj (value.symm.trans same)
  obtain ⟨s, assign, run⟩ := bind_ok.mp run
  have opened := calm.core.toKnows.openLevel calm.drained
  obtain ⟨keeps, _⟩ := opened.knows.assign (by rw [Lit.var_of]; exact inside) (by simp) (fun _ root => by
    simp [Solver.openLevel, Solver.depth, Solver.trail, Trail.openLevel, Trail.depth] at root) assign
  obtain ⟨core, assigned, drawn⟩ := (calm.core.decide (l := .of v phase) calm.drained
    (by rw [Lit.var_of]; exact inside) (by rw [Lit.var_of]; exact unassigned)).answer assign
  have settles := settle_settles (p := { p with unreported := true, core := s }) core
    (drawn calm.drawn) run
  obtain ⟨implied, lits, _⟩ :=
    settles.grows.appended core.engine.trail settles.keeps.knows.engine.trail
  refine ⟨(opened.trans keeps).trans settles.keeps, ?_, ⟨implied, ?_⟩, fun m member => ?_,
    settles.taught, settles.unreported⟩
  · exact settles.grows.starts_eq.trans assigned.starts_eq
  · rw [lits, assigned.lits_eq]
    simp [Trail.openLevel]
  · rw [← or_assoc]
    exact (settles.implied m member).imp_left assigned.mem_iff.mp

theorem assertLesson_level (run : p.assertLesson = .ok (consistent, q)) : p.atAssertionLevel = true := by
  unfold Stepper.assertLesson at run
  split at run
  · cases run
  · rename_i level
    simpa using level

theorem Recovered.assertLesson_settles (recovered : p.Recovered Γ) (level : p.atAssertionLevel = true)
    (run : p.assertLesson = .ok (consistent, q)) : ∃ p' : Stepper, p'.unreported = true ∧
      Keeps Γ p.core p'.core ∧ (∃ l reason, p.core.trail.Assigned l reason p'.core.trail ∧
        (reason = none → p.core.depth = 0)) ∧ p'.Settles Γ consistent q := by
  obtain ⟨lits, same, pending⟩ := recovered.pending level
  unfold Stepper.assertLesson at run
  rw [level, same] at run
  obtain ⟨s, learnt, run⟩ := bind_ok.mp run
  obtain ⟨core, drawn, _⟩ := (recovered.core.learn pending).answer learnt
  obtain ⟨keeps, _, reason, assigned, rooted⟩ := recovered.core.toKnows.learn pending.filled
    pending.nodup pending.inside pending.entailed
    (fun l member other => (pending.others l member other).1) pending.second pending.unit learnt
  have decayed := core.toKnows.congr s.decay rfl rfl rfl rfl rfl rfl
  refine ⟨_, ?_, keeps.trans decayed.toKeeps, ⟨_, reason, assigned, rooted⟩, settle_settles
    ⟨decayed.knows, core.ranked, core.led⟩ (decayed.drawn _ (drawn recovered.drawn)) run⟩
  rfl

theorem undo_lesson (run : p.undo v = .ok q) : q.lesson = p.lesson ∧ q.unreported = false := by
  unfold Stepper.undo at run
  split at run
  · cases run
  · obtain ⟨core, _, run⟩ := bind_ok.mp run
    cases run
    exact ⟨rfl, rfl⟩

/-! What is new at the last level. -/

def recent (p : Stepper) : List Lit :=
  p.core.trail.lits.toList.drop (match p.core.trail.starts.back? with
    | some start => start + 1
    | none => 0)

theorem mem_consequences {known : IndexSet} (unreported : p.unreported = true) :
    l ∈ p.consequences known ↔ l ∈ p.recent ∧ known.contains l.var.id = true := by
  rw [consequences, if_pos unreported]
  exact List.mem_filter

theorem recent_of_consequences {known : IndexSet} (member : l ∈ p.consequences known) :
    l ∈ p.recent ∧ known.contains l.var.id = true := by
  unfold consequences at member
  split at member
  · exact List.mem_filter.mp member
  · cases member

theorem consequences_reported {known : IndexSet} (reported : p.unreported = false) :
    p.consequences known = [] := if_neg (by simp [reported])

theorem consequences_sublist {known : IndexSet} :
    (p.consequences known).Sublist p.core.trail.lits.toList := by
  unfold consequences
  split
  · exact List.filter_sublist.trans (List.drop_sublist _ _)
  · exact List.nil_sublist _

theorem Decides.recent_eq (decides : p.Decides Γ l consistent q) :
    q.core.trail.lits.toList = p.core.trail.lits.toList ++ l :: q.recent := by
  obtain ⟨implied, lits⟩ := decides.lits_eq
  have behind : (p.core.trail.lits.toList ++ l :: implied).drop (p.core.trail.lits.size + 1) = implied := by
    rw [← Array.length_toList, List.drop_length_add_append, List.drop_succ_cons, List.drop_zero]
  rw [recent, decides.starts_eq, Array.back?_push, lits]
  exact congrArg (fun rest => p.core.trail.lits.toList ++ l :: rest) behind.symm

theorem Decides.mem_consequences_iff {known : IndexSet} {m : Lit} (decides : p.Decides Γ l consistent q)
    (wf : q.core.trail.WellFormed) : m ∈ q.consequences known ↔
      m ∈ q.core.trail.lits ∧ m ∉ p.core.trail.lits ∧ m.var ≠ l.var ∧ known.contains m.var.id = true := by
  have split := decides.recent_eq
  have distinct := wf.nodup_vars
  rw [split, List.map_append, List.map_cons, List.nodup_append] at distinct
  obtain ⟨_, behind, apart⟩ := distinct
  rw [mem_consequences decides.unreported, ← Array.mem_toList_iff, ← Array.mem_toList_iff, split,
    List.mem_append, List.mem_cons]
  constructor
  · rintro ⟨recent, listed⟩
    refine ⟨.inr (.inr recent), fun old => ?_, fun same => ?_, listed⟩
    · exact apart m.var (List.mem_map_of_mem old) m.var
        (List.mem_cons_of_mem _ (List.mem_map_of_mem recent)) rfl
    · exact (List.nodup_cons.mp behind).1 (same ▸ List.mem_map_of_mem recent)
  · rintro ⟨member, new, other, listed⟩
    exact ⟨(member.resolve_left new).resolve_left fun same => other (congrArg Lit.var same), listed⟩

/-- After more has been assigned at the level there is, what is new is reported beside what was recent. -/
theorem mem_consequences_grown {known : IndexSet} (grows : p.core.trail.Grows q.core.trail)
    (wf : p.core.trail.WellFormed) (wf' : q.core.trail.WellFormed)
    (decided : ∀ n ∈ p.core.trail.starts, n < p.core.trail.lits.size) (unreported : q.unreported = true) :
    l ∈ q.consequences known ↔
      (l ∈ p.recent ∨ l ∈ q.core.trail.lits ∧ l ∉ p.core.trail.lits) ∧ known.contains l.var.id = true := by
  obtain ⟨added, lits, _⟩ := grows.appended wf wf'
  have recent : q.recent = p.recent ++ added := by
    rw [recent, recent, grows.starts_eq, lits, List.drop_append_of_le_length]
    rw [Array.length_toList]
    split
    · rename_i last
      exact decided _ (Array.mem_of_back? last)
    · exact Nat.zero_le _
  have distinct := wf'.nodup_vars
  rw [lits, List.map_append, List.nodup_append] at distinct
  rw [mem_consequences unreported, recent, List.mem_append, ← Array.mem_toList_iff, lits, List.mem_append,
    ← Array.mem_toList_iff]
  refine and_congr_left fun _ => or_congr_right ⟨fun new => ⟨.inr new, fun old => ?_⟩, fun both =>
    both.1.resolve_left both.2⟩
  exact distinct.2.2 l.var (List.mem_map_of_mem old) l.var (List.mem_map_of_mem new) rfl

theorem Calm.unfalsified (calm : p.Calm Γ) (covered : p.core.Covered ls) :
    ∃ l ∈ ls, p.value l ≠ .fls := by
  have wf := calm.core.engine
  have whole : Engine.Drawn p.core.Live p.core.engine p.core.engine.trail.lits.size :=
    calm.drained ▸ calm.drawn
  rcases covered with ⟨l, member, opposite, _⟩ | ⟨l, member, on, _⟩ | ⟨r, added, within⟩
  · by_cases false_ : p.value l = .fls
    · refine ⟨-l, opposite, fun false_' => ?_⟩
      rw [show p.value (-l) = (p.value l).negate from Trail.value_neg _ _, false_] at false_'
      cases false_'
    · exact ⟨l, member, false_⟩
  · refine ⟨l, member, fun false_ => ?_⟩
    have true_ : p.value l = .tru := (wf.trail.true_iff l).mpr on
    rw [true_] at false_
    cases false_
  · obtain ⟨l, inner, some⟩ := (wf.closed whole).unfalsified r (.inl added)
    exact ⟨l, within l inner, some⟩

end Stepper

end ModelCounting
