import ModelCounting.Proofs.ClauseSet
import ModelCounting.Search.Stepper

/-!
The names of solver variables. The clauses that a stepper is given settle which formula variables
its solver variables stand for; deciding, undoing and learning leave the names alone.
-/

namespace ModelCounting

namespace Stepper

variable {p q : Stepper} {v : Var} {phase consistent : Bool}

/-- Every name satisfies the condition. -/
def NamesIn (scope : Var → Prop) (p : Stepper) : Prop := ∀ v ∈ p.names, scope v

theorem NamesIn.congr {scope : Var → Prop} (names : p.NamesIn scope) (same : q.names = p.names) :
    q.NamesIn scope := by
  unfold NamesIn
  rwa [same]

theorem nameOf_in {scope : Var → Prop} (names : p.NamesIn scope) {i w : Var}
    (run : p.nameOf i = .ok w) : scope w := by
  unfold nameOf at run
  split at run
  · rename_i found
    cases run
    exact names _ (Array.mem_of_getElem? found)
  · simp at run

theorem litOf_in {scope : Var → Prop} (names : p.NamesIn scope) {l m : Lit}
    (run : p.litOf l = .ok m) : scope m.var := by
  simp only [litOf, bind_ok, pure_ok] at run
  obtain ⟨w, found, rfl⟩ := run
  simpa using nameOf_in names found

/-! Steps that leave the names alone. -/

theorem settle_names (run : p.settle = .ok (consistent, q)) : q.names = p.names := by
  simp only [settle, bind_ok, Prod.exists] at run
  obtain ⟨conflict, core, _, rest⟩ := run
  split at rest
  · cases rest
    rfl
  · split at rest
    · simp only [bind_ok, Prod.exists] at rest
      obtain ⟨_, _, _, rest⟩ := rest
      cases rest
      rfl
    · cases rest
      rfl

theorem decide_names (run : p.decide v phase = .ok (consistent, q)) : q.names = p.names := by
  simp only [decide, bind_ok] at run
  obtain ⟨value, _, rest⟩ := run
  split at rest
  · cases rest
    rfl
  · simp at rest
  · simp only [bind_ok] at rest
    obtain ⟨core, _, rest⟩ := rest
    have same := settle_names rest
    exact same

theorem undo_names (run : p.undo v = .ok q) : q.names = p.names := by
  unfold undo at run
  split at run
  · simp at run
  · simp only [bind_ok] at run
    obtain ⟨core, _, rest⟩ := run
    cases rest
    rfl

theorem assertLesson_names (run : p.assertLesson = .ok (consistent, q)) : q.names = p.names := by
  unfold assertLesson at run
  split at run
  · simp at run
  · split at run
    · simp at run
    · simp only [bind_ok] at run
      obtain ⟨core, _, rest⟩ := run
      have same := settle_names rest
      exact same

theorem newlyImplied_names {known : IndexSet} {s s' : Store} {f : Formula}
    (run : p.newlyImplied known s = .ok (f, q, s')) : q.names = p.names := by
  simp only [newlyImplied, bind_ok] at run
  obtain ⟨ls, _, rest⟩ := run
  cases rest
  rfl

theorem start_names (run : p.start = .ok (consistent, q)) : q.names = p.names := by
  unfold start at run
  simp only at run
  split at run
  · simp only [bind_ok, Prod.exists] at run
    obtain ⟨_, _, _, rest⟩ := run
    cases rest
    rfl
  · cases run
    rfl

/-! Adding clauses. -/

theorem number_in {scope : Var → Prop} (names : p.NamesIn scope) (inside : scope v) {i : Var}
    (run : p.number v = .ok (i, q)) : q.NamesIn scope := by
  unfold number at run
  split at run
  · cases run
    exact names
  · simp only [bind_ok, Prod.exists] at run
    obtain ⟨_, _, _, rest⟩ := run
    cases rest
    intro w member
    rcases Array.mem_push.mp member with member | rfl
    · exact names w member
    · exact inside

theorem numberLits_in {scope : Var → Prop} (names : p.NamesIn scope) {ls ms : List Lit}
    (inside : ∀ l ∈ ls, scope l.var) (run : p.numberLits ls = .ok (ms, q)) : q.NamesIn scope := by
  induction ls generalizing p ms with
  | nil =>
    cases run
    exact names
  | cons l ls ih =>
    simp only [numberLits, bind_ok, Prod.exists] at run
    obtain ⟨_, p₁, first, _, p₂, rest, done⟩ := run
    cases done
    exact ih (number_in names (inside l (by simp)) first)
      (fun m hm => inside m (List.mem_cons_of_mem l hm)) rest

theorem addClause_in {scope : Var → Prop} (names : p.NamesIn scope) {ls : List Lit}
    (inside : ∀ l ∈ ls, scope l.var) (run : p.addClause ls = .ok q) : q.NamesIn scope := by
  simp only [addClause, bind_ok, Prod.exists] at run
  obtain ⟨_, p₁, first, _, _, _, rest⟩ := run
  cases rest
  have names' := numberLits_in names inside first
  exact names'

theorem add_in {scope : Var → Prop} (names : p.NamesIn scope) {s : Store} {f : Formula}
    (wf : s.WellFormed) (known : f ∈ s) (inside : ∀ w ∈ s.vars f, scope w)
    (run : p.add s f = .ok q) : q.NamesIn scope := by
  simp only [add, bind_ok] at run
  obtain ⟨cs, read, rest⟩ := run
  refine foldlM_ok (NamesIn scope) (fun c hc a b names step => ?_) names rest
  exact addClause_in names (fun l hl => inside l.var
    (((wf.clauses_ok known read).2 l.var).mpr ⟨c, hc, l, hl, rfl⟩)) step

end Stepper

end ModelCounting
