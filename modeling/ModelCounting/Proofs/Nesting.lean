import ModelCounting.Proofs.Caching
import ModelCounting.Proofs.Safety
import ModelCounting.Proofs.Search.Pairing

/-!
Calls are nested. However a call of the recursion ends, it has closed each level that it opened, so its
solver has been driven as between the opening and the closing of a level. The names of the variables, the
stored clauses but for the order of their literals, and what is assigned at the root are then those of
before.
-/

namespace ModelCounting

namespace Stepper

variable {p q r : Stepper} {v : Var} {phase b : Bool}

theorem Within.trans (first : Within p q) (second : Within q r) : Within p r := by
  induction first with
  | done => exact second
  | level opened inner closed _ _ ih => exact .level opened inner closed (ih second)
  | lesson asserted _ ih => exact .lesson asserted (ih second)
  | report reported _ ih => exact .report reported (ih second)

/-- What is kept from one stepper to another, however many levels were opened and closed in between. -/
structure Abides (p q : Stepper) : Prop where
  sound : q.Sound
  spares : p.Spares q
  count : q.core.varCount = p.core.varCount
  fixed : ∀ l ∈ p.core.trail.lits, p.core.trail.level l.var = 0 →
    l ∈ q.core.trail.lits ∧ q.core.trail.level l.var = 0

theorem Abides.refl (sound : p.Sound) : p.Abides p := ⟨sound, .refl p, rfl, fun _ member root => ⟨member, root⟩⟩

theorem Abides.trans (first : p.Abides q) (second : q.Abides r) : p.Abides r where
  sound := second.sound
  spares := first.spares.trans second.spares
  count := second.count.trans first.count
  fixed l member root := by
    obtain ⟨member', root'⟩ := first.fixed l member root
    exact second.fixed l member' root'

theorem Continues.abides (continues : p.Continues q) : p.Abides q where
  sound := continues.sound
  spares := continues.spares
  count := continues.grows.varCount_eq
  fixed l member root := ⟨continues.grows.mem member, (continues.grows.level_eq l member).trans root⟩

structure Rejoins (p q : Stepper) : Prop extends Continues p q where
  lits_eq : q.core.trail.lits = p.core.trail.lits

theorem Rejoins.trans (first : p.Rejoins q) (second : q.Rejoins r) : p.Rejoins r :=
  ⟨first.toContinues.trans second.toContinues, second.lits_eq.trans first.lits_eq⟩

theorem Sound.decide_abides (sound : p.Sound) (run : p.decide v phase = .ok (b, q)) : p.Abides q := by
  obtain ⟨sound', grows, spares⟩ := sound.decide run
  refine ⟨sound', spares, grows.varCount_eq, fun l member root => ⟨grows.mem member, ?_⟩⟩
  exact (grows.level_eq l member).trans root

end Stepper

/-! Calls. -/

namespace Compilation

variable {c c' : Compilation} {t left right : PlacedTree} {nested n : Nat} {v : Var} {phase : Bool}
  {step : CompilationStep} {compile : PlacedTree → CompilationStep} {implied f : Formula}
  {outcome : Outcome}

def Nests (step : CompilationStep) : Prop :=
  ∀ {c c' : Compilation} {outcome : Outcome}, step c = .ok (outcome, c') → c.solver.Within c'.solver

theorem leaf_solver {l : PlacedLeaf} (run : c.leaf l = .ok (f, c')) : c'.solver = c.solver :=
  leaf_finishes.answer _ run

theorem enter_within (run : c.enter t = .ok (implied, c')) : c.solver.Within c'.solver := by
  unfold enter at run
  simp only at run
  split at run
  · rename_i reported
    cases run
    exact .report reported .done
  · cases run

theorem branch_ok (run : branch step v phase c = .ok (outcome, c')) :
    (∃ p q, c.solver.decide v phase = .ok (false, p) ∧ p.undo v = .ok q ∧
      outcome = .compiled .falsum ∧ c' = { c with solver := q }) ∨
    ∃ p c₁ q, c.solver.decide v phase = .ok (true, p) ∧
      step { c with solver := p } = .ok (outcome, c₁) ∧ c₁.solver.undo v = .ok q ∧
        c' = { c₁ with solver := q } := by
  simp only [branch, bind_ok, Prod.exists] at run
  obtain ⟨consistent, p, decided, rest⟩ := run
  cases consistent with
  | false =>
    simp only [Bool.false_eq_true, if_false, bind_ok, pure_ok, Except.ok.injEq, exists_eq_left',
      Prod.mk.injEq] at rest
    obtain ⟨q, undone, same, rfl⟩ := rest
    exact .inl ⟨p, q, decided, undone, same.symm, rfl⟩
  | true =>
    simp only [if_true, bind_ok, pure_ok, Prod.exists, Prod.mk.injEq] at rest
    obtain ⟨_, c₁, inner, q, undone, rfl, rfl⟩ := rest
    exact .inr ⟨p, c₁, q, decided, inner, undone, rfl⟩

theorem branch_level (below : Nests step) (run : branch step v phase c = .ok (outcome, c')) :
    ∃ b p q, c.solver.decide v phase = .ok (b, p) ∧ p.Within q ∧ q.undo v = .ok c'.solver := by
  rcases branch_ok run with ⟨p, q, decide, undo, _, rfl⟩ | ⟨p, c₁, q, decide, inner, undo, rfl⟩
  · exact ⟨false, p, p, decide, .done, undo⟩
  · exact ⟨true, p, c₁.solver, decide, below (c := { c with solver := p }) inner, undo⟩

theorem branch_nests (below : Nests step) : Nests (branch step v phase) := fun run => by
  obtain ⟨b, p, q, decide, inner, undo⟩ := branch_level below run
  exact .level decide inner undo .done

theorem retry_nests (below : Nests step) : Nests (retry step) := by
  intro c c' outcome run
  unfold retry at run
  split at run
  · obtain ⟨⟨b, p⟩, learn, run⟩ := bind_ok.mp run
    refine .lesson learn ?_
    cases b with
    | false =>
      cases run
      exact .done
    | true => exact below (c := { c with solver := p }) run
  · cases run
    exact .done

theorem cached_nests (below : Nests step) : Nests (cached step t nested) := by
  intro c c' outcome run
  simp only [cached, bind_ok] at run
  obtain ⟨_, _, run⟩ := run
  split at run
  · cases run
    exact .done
  · obtain ⟨⟨result, c₁⟩, inner, run⟩ := bind_ok.mp run
    have within := below inner
    cases result with
    | cancelled =>
      cases run
      exact within
    | compiled f =>
      cases run
      split <;> exact within

theorem part_nests (below : Nests (compile t)) : Nests (part compile nested t) := by
  cases t with
  | leaf l =>
    intro c c' outcome run
    obtain ⟨⟨f, c₁⟩, leaf, run⟩ := bind_ok.mp run
    cases run
    exact leaf_solver leaf ▸ .done
  | node d left right => exact cached_nests below

theorem conjoin_nests (first : Nests (compile left)) (second : Nests (compile right)) :
    Nests (conjoin compile nested implied left right) := by
  intro c c' outcome run
  unfold conjoin at run
  split at run
  · cases run
    exact .done
  obtain ⟨⟨outcome₁, c₁⟩, left_run, run⟩ := bind_ok.mp run
  have within := part_nests first left_run
  cases outcome₁ with
  | cancelled =>
    cases run
    exact within
  | compiled l =>
    simp only at run
    split at run
    · cases run
      exact within
    obtain ⟨⟨outcome₂, c₂⟩, right_run, run⟩ := bind_ok.mp run
    have within := within.trans (part_nests second right_run)
    cases outcome₂ with
    | cancelled =>
      cases run
      exact within
    | compiled r =>
      simp only at run
      split at run <;> cases run <;> exact within

theorem frame_nests {compile : PlacedTree → Nat → CompilationStep}
    (below : ∀ t nested, Nests (compile t nested)) : Nests (frame compile t nested implied) := by
  intro c c' outcome run
  unfold frame at run
  split at run
  · cases t with
    | leaf l =>
      obtain ⟨⟨f, c₁⟩, leaf, run⟩ := bind_ok.mp run
      cases run
      exact leaf_solver leaf ▸ .done
    | node d left right => exact conjoin_nests (below left 0) (below right 0) run
  obtain ⟨v, _, run⟩ := bind_ok.mp run
  split at run
  · cases run
    exact .done
  obtain ⟨⟨outcome₁, c₁⟩, positive, run⟩ := bind_ok.mp run
  have yes : c.counted.solver.Within c₁.solver := branch_nests (below t _) positive
  cases outcome₁ with
  | cancelled =>
    cases run
    exact yes
  | compiled p =>
    simp only at run
    split at run
    · exact yes.trans (retry_nests (below t 0) run)
    obtain ⟨⟨outcome₂, c₂⟩, negative, run⟩ := bind_ok.mp run
    have no := yes.trans (branch_nests (below t _) negative)
    cases outcome₂ with
    | cancelled =>
      cases run
      exact no
    | compiled g =>
      simp only at run
      split at run
      · exact no.trans (retry_nests (below t 0) run)
      · exact expansion_finishes.answer _ run ▸ no

theorem tree_nests : Nests (tree n t nested) := by
  induction n generalizing t nested with
  | zero => exact fun run => absurd run nofun
  | succ n ih =>
    intro c c' outcome run
    rw [tree_succ] at run
    obtain ⟨⟨implied, c₁⟩, enter, run⟩ := bind_ok.mp run
    exact (enter_within enter).trans (frame_nests (fun _ _ => ih) run)

theorem enter_rejoins (sound : c.solver.Sound) (run : c.enter t = .ok (implied, c')) :
    c.solver.Rejoins c'.solver := by
  have same : c'.solver.core = c.solver.core := by rw [(enter_beside run).1.solver]
  exact ⟨(enter_within run).continues sound, by rw [same]⟩

theorem branch_rejoins (sound : c.solver.Sound) (below : Nests step)
    (run : branch step v phase c = .ok (outcome, c')) : c.solver.Rejoins c'.solver := by
  obtain ⟨b, p, q, decide, inner, undo⟩ := branch_level below run
  have opened := (sound.decide decide).1
  obtain ⟨sound', restores⟩ := sound.close decide (inner.continues opened) undo
  exact ⟨restores.continues sound', restores.trail.lits_eq⟩

/-! What a call finds where it goes on. -/

namespace Call

variable {a b : Call}

theorem Branches.rejoins (before : a.Branches v phase c) (sound : a.state.solver.Sound) :
    a.state.solver.Rejoins c.solver := by
  induction before with
  | positive enter _ _ _ =>
    have entered := enter_rejoins sound enter
    exact entered
  | negative _ positive _ ih =>
    have first := ih sound
    exact first.trans (branch_rejoins first.sound tree_nests positive)

theorem Retries.rejoins (failed : a.Retries c) (sound : a.state.solver.Sound) :
    a.state.solver.Rejoins c.solver := by
  obtain ⟨before, failed⟩ := failed
  have first := before.rejoins sound
  exact first.trans (branch_rejoins first.sound tree_nests failed)

theorem Parts.continues (parts : a.Parts t c) (sound : a.state.solver.Sound) :
    a.state.solver.Continues c.solver := by
  cases parts with
  | left enter apart some => exact (enter_rejoins sound enter).toContinues
  | right enter apart some first some' =>
    have entered := enter_rejoins sound enter
    exact entered.toContinues.trans ((part_nests tree_nests first).continues entered.sound)

end Call

end Compilation

end ModelCounting
