import ModelCounting.Proofs.Answer

/-!
Runs that finish. A loop whose rounds are bounded stalls if the bound is too low. A run that finishes
does not stall; what its answer satisfies, if it has one, is carried along, so that a bound can be
justified by what earlier steps have reached. A run that delivers has an answer.
-/

namespace ModelCounting

variable {α β : Type}

structure Finishes (run : Except Fault α) (post : α → Prop) : Prop where
  ne_stalled : run ≠ .error .stalled
  answer : ∀ a, run = .ok a → post a

namespace Finishes

variable {run : Except Fault α} {post : α → Prop}

theorem ok {a : α} (holds : post a) : Finishes (.ok a) post := ⟨nofun, fun _ same => by
  cases same
  exact holds⟩

theorem pure {a : α} (holds : post a) : Finishes (Pure.pure a) post := .ok holds

theorem error {fault : Fault} (other : fault ≠ .stalled) : Finishes (.error fault) post :=
  ⟨fun same => by
    cases same
    exact other rfl, nofun⟩

theorem mono {post' : α → Prop} (finishes : Finishes run post) (weaker : ∀ a, post a → post' a) :
    Finishes run post' := ⟨finishes.ne_stalled, fun a same => weaker a (finishes.answer a same)⟩

theorem bind {next : α → Except Fault β} {post' : β → Prop} (finishes : Finishes run post)
    (rest : ∀ a, run = .ok a → post a → Finishes (next a) post') : Finishes (run >>= next) post' := by
  cases run with
  | ok a => exact rest a rfl (finishes.answer a rfl)
  | error fault => exact .error fun stalled => finishes.ne_stalled (stalled ▸ rfl)

theorem foldlM {step : β → α → Except Fault β} {xs : List α} {b : β} {holds : β → Prop}
    (kept : ∀ b, holds b → ∀ x ∈ xs, Finishes (step b x) holds) (start : holds b) :
    Finishes (xs.foldlM step b) holds := by
  induction xs generalizing b with
  | nil => exact .pure start
  | cons x xs ih =>
    rw [List.foldlM_cons]
    exact (kept b start x List.mem_cons_self).bind fun c _ held =>
      ih (fun b held x member => kept b held x (List.mem_cons_of_mem _ member)) held

theorem mapM {f : α → Except Fault β} {xs : List α} (each : ∀ x ∈ xs, Finishes (f x) fun _ => True) :
    Finishes (xs.mapM f) fun _ => True := by
  induction xs with
  | nil =>
    rw [List.mapM_nil]
    exact .pure trivial
  | cons x xs ih =>
    rw [List.mapM_cons]
    refine (each x List.mem_cons_self).bind fun _ _ _ => ?_
    refine (ih fun x member => each x (List.mem_cons_of_mem _ member)).bind fun _ _ _ => ?_
    exact .pure trivial

end Finishes

def Outlasts (run run' : Except Fault α) : Prop := run ≠ .error .stalled → run' = run

namespace Outlasts

variable {run run' : Except Fault α}

theorem refl (run : Except Fault α) : Outlasts run run := fun _ => rfl

theorem bind {next next' : α → Except Fault β} (first : Outlasts run run')
    (rest : ∀ a, Outlasts (next a) (next' a)) : Outlasts (run >>= next) (run' >>= next') := by
  intro goes
  have same : run' = run := first fun stalled => goes (stalled ▸ rfl)
  rw [same]
  cases run with
  | ok a => exact rest a goes
  | error fault => rfl

end Outlasts

/-- The run has an answer, which satisfies a condition. -/
def Delivers (run : Except Fault α) (post : α → Prop) : Prop := ∃ a, run = .ok a ∧ post a

namespace Delivers

variable {run : Except Fault α} {post : α → Prop}

instance [DecidablePred post] : Decidable (Delivers run post) :=
  decidable_of_iff (∃ a ∈ run.toOption, post a) (by
    simp only [Option.mem_def, toOption_eq_some, Delivers])

theorem ok {a : α} (holds : post a) : Delivers (.ok a) post := ⟨a, rfl, holds⟩

theorem pure {a : α} (holds : post a) : Delivers (Pure.pure a) post := ⟨a, rfl, holds⟩

theorem mono {post' : α → Prop} (delivers : Delivers run post) (weaker : ∀ a, post a → post' a) :
    Delivers run post' := by
  obtain ⟨a, same, holds⟩ := delivers
  exact ⟨a, same, weaker a holds⟩

theorem answer {a : α} (delivers : Delivers run post) (same : run = .ok a) : post a := by
  obtain ⟨b, same', holds⟩ := delivers
  exact Except.ok.inj (same'.symm.trans same) ▸ holds

theorem and {post' : α → Prop} (delivers : Delivers run post) (answer : ∀ a, run = .ok a → post' a) :
    Delivers run fun a => post a ∧ post' a := by
  obtain ⟨a, same, holds⟩ := delivers
  exact ⟨a, same, holds, answer a same⟩

theorem bind {next : α → Except Fault β} {post' : β → Prop} (delivers : Delivers run post)
    (rest : ∀ a, run = .ok a → post a → Delivers (next a) post') :
    Delivers (run >>= next) post' := by
  obtain ⟨a, rfl, holds⟩ := delivers
  exact rest a rfl holds

theorem of_map {f : α → β} {post' : β → Prop} (delivers : Delivers (f <$> run) post') :
    Delivers run fun a => post' (f a) := by
  obtain ⟨b, same, holds⟩ := delivers
  cases run with
  | error fault => cases same
  | ok a =>
    cases same
    exact ⟨a, rfl, holds⟩

theorem foldlM {step : β → α → Except Fault β} {xs : List α} {b : β} {holds : β → Prop}
    (kept : ∀ b, holds b → ∀ x ∈ xs, Delivers (step b x) holds) (start : holds b) :
    Delivers (xs.foldlM step b) holds := by
  induction xs generalizing b with
  | nil => exact .pure start
  | cons x xs ih =>
    rw [List.foldlM_cons]
    exact (kept b start x List.mem_cons_self).bind fun c _ held =>
      ih (fun b held x member => kept b held x (List.mem_cons_of_mem _ member)) held

theorem foldlM_seen {step : β → α → Except Fault β} {xs seen : List α} {b : β}
    (holds : List α → β → Prop)
    (kept : ∀ seen b, holds seen b → ∀ x ∈ xs, Delivers (step b x) (holds (x :: seen)))
    (start : holds seen b) : Delivers (xs.foldlM step b) (holds (xs.reverse ++ seen)) := by
  induction xs generalizing seen b with
  | nil => exact .pure start
  | cons x xs ih =>
    rw [List.foldlM_cons, List.reverse_cons, List.append_assoc]
    apply (kept seen b start x List.mem_cons_self).bind
    intro c _ held
    exact ih (fun seen b held y member => kept seen b held y (List.mem_cons_of_mem x member)) held

theorem mapM {f : α → Except Fault β} {xs : List α} (each : ∀ x ∈ xs, Delivers (f x) fun _ => True) :
    Delivers (xs.mapM f) fun _ => True := by
  induction xs with
  | nil =>
    rw [List.mapM_nil]
    exact .pure trivial
  | cons x xs ih =>
    rw [List.mapM_cons]
    refine (each x List.mem_cons_self).bind fun _ _ _ => ?_
    refine (ih fun x member => each x (List.mem_cons_of_mem _ member)).bind fun _ _ _ => ?_
    exact .pure trivial

end Delivers

/-- The run has an answer, which satisfies a condition, unless its task is hard and its restarts are
exhausted. -/
def Strives (hard : Prop) (run : Except Fault α) (post : α → Prop) : Prop :=
  Delivers run post ∨ hard ∧ run = .error .restartsExhausted

namespace Strives

variable {hard : Prop} {run : Except Fault α} {post : α → Prop}

theorem mono {hard' : Prop} {post' : α → Prop} (strives : Strives hard run post)
    (harder : hard → hard') (weaker : ∀ a, post a → post' a) : Strives hard' run post' :=
  strives.imp (fun delivers => delivers.mono weaker) fun exhausted => exhausted.imp_left harder

theorem answer {a : α} (strives : Strives hard run post) (same : run = .ok a) : post a := by
  rcases strives with delivers | ⟨_, failed⟩
  · exact delivers.answer same
  · rw [failed] at same
    cases same

theorem bind {next : α → Except Fault β} {post' : β → Prop} (strives : Strives hard run post)
    (rest : ∀ a, run = .ok a → post a → Strives hard (next a) post') :
    Strives hard (run >>= next) post' := by
  rcases strives with ⟨a, rfl, holds⟩ | ⟨difficult, rfl⟩
  · exact rest a rfl holds
  · exact .inr ⟨difficult, rfl⟩

end Strives

theorem Delivers.strives {hard : Prop} {run : Except Fault α} {post : α → Prop}
    (delivers : Delivers run post) : Strives hard run post := .inl delivers

end ModelCounting
