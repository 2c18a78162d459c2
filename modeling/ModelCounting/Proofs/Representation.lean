import ModelCounting.Proofs.Opening
import ModelCounting.Proofs.Realization

/-!
Circuits in the names of the solver's variables. A circuit represents a condition on some of these
variables if it realizes the condition in the formula variables that they are named by. Reported literals
represent that they hold, and a leaf that its clause does; circuits side by side and those guarded by a
decision represent what is to be expected. What a key says is a condition too, so an entry of the cache
can be asked to represent it.
-/

namespace ModelCounting

def Lit.indices (ls : List Lit) : Set Nat := {i | ∃ l ∈ ls, l.var.id = i}

theorem Lit.indices_nil : Lit.indices [] = ∅ := by simp [Lit.indices]

namespace Stepper

/-- A decomposable circuit for a condition on some variables of the solver, which can be met. -/
def Represents (p : Stepper) (among : Set Nat) (meaning : (Var → Bool) → Prop) (s : Store) (f : Formula) :
    Prop :=
  s.Realizes (fun v => ∃ i ∈ among, p.names[i]? = some v) (fun value => meaning (p.valuation value)) f

variable {p : Stepper} {A B C : Set Nat} {meaning meaning' meaning'' : (Var → Bool) → Prop}
  {s s' : Store} {f g h : Formula} {i : Nat} {v : Var} {l m : Lit} {ls ms : List Lit}

namespace Represents

theorem later (represents : p.Represents A meaning s f) (later : Store.Extends s s') :
    p.Represents A meaning s' f :=
  Store.Realizes.later represents later

theorem mono (represents : p.Represents A meaning s f) (wider : A ⊆ B)
    (same : ∀ value, meaning value ↔ meaning' value) : p.Represents B meaning' s f :=
  Store.Realizes.mono represents (fun _ ⟨i, among, name⟩ => ⟨i, wider among, name⟩)
    fun value => same (p.valuation value)

theorem ne_falsum (represents : p.Represents A meaning s f) (wf : s.WellFormed) : f ≠ .falsum :=
  Store.Realizes.ne_falsum represents wf

end Represents

theorem valuation_name {value : Var → Bool} (name : p.names[i]? = some v) :
    p.valuation value ⟨i⟩ = value v := by
  rw [valuation, Array.getD_eq_getD_getElem?, name, Option.getD_some]

theorem litOf_holds (name : p.litOf l = .ok m) :
    p.names[l.var.id]? = some m.var ∧ ∀ value, m.holds value = l.holds (p.valuation value) := by
  obtain ⟨v, called, same⟩ := bind_ok.mp name
  cases same
  have here : p.names[l.var.id]? = some v := by
    unfold nameOf at called
    split at called
    · rename_i found
      cases called
      exact found
    · cases called
  refine ⟨by rwa [Lit.var_of], fun value => ?_⟩
  rw [Lit.holds, Lit.holds, Lit.var_of, Lit.phase_of, valuation_name here]

theorem Abides.litOf_eq {q : Stepper} (abides : p.Abides q) : q.litOf = p.litOf := by
  funext l
  rw [litOf, litOf, nameOf, nameOf, abides.spares.names_eq]

theorem verum_represents (wf : s.WellFormed) : p.Represents ∅ (fun _ => True) s .verum :=
  wf.verum_realizes.mono (fun _ => False.elim) fun _ => Iff.rfl

section Literals

variable (names : List.Forall₂ (fun l m => p.litOf l = .ok m) ls ms)

include names

theorem names_indices (member : ∃ m ∈ ms, m.var = v) : ∃ i ∈ Lit.indices ls, p.names[i]? = some v := by
  obtain ⟨m, inside, rfl⟩ := member
  obtain ⟨l, listed, name⟩ := forall₂_mem_right names m inside
  exact ⟨l.var.id, ⟨l, listed, rfl⟩, (litOf_holds name).1⟩

theorem oneOf_represents (oneOf : s.OneOf ms f) (some : ls ≠ []) :
    p.Represents (Lit.indices ls) (fun value => ∃ l ∈ ls, l.holds value = true) s f := by
  have some' : ms ≠ [] := fun none => some (List.length_eq_zero_iff.mp (by rw [names.length_eq, none]; rfl))
  refine (oneOf.realizes some').mono (fun v => names_indices names) fun value => ?_
  constructor
  · rintro ⟨m, inside, holds⟩
    obtain ⟨l, listed, name⟩ := forall₂_mem_right names m inside
    exact ⟨l, listed, ((litOf_holds name).2 value).symm.trans holds⟩
  · rintro ⟨l, listed, holds⟩
    obtain ⟨m, inside, name⟩ := forall₂_mem_left names l listed
    exact ⟨m, inside, ((litOf_holds name).2 value).trans holds⟩

variable (named : ∀ (i : Nat) (v : Var), p.names[i]? = some v ↔ p.numbers[v]? = some ⟨i⟩)

include named

/-- The conjunction of literals of different variables. -/
theorem cube_represents (wf : s.WellFormed) (fits : p.NamesIn Var.Fits)
    (distinct : (ls.map Lit.var).Nodup) : Store.Grows s (s.cube ms).2 ∧
      p.Represents (Lit.indices ls) (fun value => ∀ l ∈ ls, l.holds value = true) (s.cube ms).2
        (s.cube ms).1 := by
  have words : ∀ m ∈ ms, m.code < Node.wordLimit := fun m inside => by
    obtain ⟨l, _, name⟩ := forall₂_mem_right names m inside
    exact Var.Fits.word (litOf_in fits name)
  obtain ⟨grows, literals⟩ := wf.literals_build words
  have cube : (s.cube ms).2.Cube ms (s.cube ms).1 := (grows.wellFormed wf).conj_cube literals
  have grows' : Store.Grows s (s.cube ms).2 := grows.trans (Store.Step.junction _ .conj fun f member => by
    obtain ⟨_, _, known, _⟩ := forall₂_mem_right literals f member
    exact known).grows
  -- Different variables have different names.
  have distinct' : (ms.map Lit.var).Nodup := by
    have renamed : List.Forall₂ (fun v w => p.names[v.id]? = some w) (ls.map Lit.var) (ms.map Lit.var) := by
      rw [List.forall₂_map_left_iff, List.forall₂_map_right_iff]
      exact names.imp fun _ _ name => (litOf_holds name).1
    refine nodup_of_forall₂ renamed (fun v w u first second => ?_) distinct
    exact Option.some.inj (((named _ _).mp first).symm.trans ((named _ _).mp second))
  refine ⟨grows', (cube.realizes distinct').mono (fun v => names_indices names) fun value => ?_⟩
  constructor
  · intro holds l listed
    obtain ⟨m, inside, name⟩ := forall₂_mem_left names l listed
    exact ((litOf_holds name).2 value).symm.trans (holds m inside)
  · intro holds m inside
    obtain ⟨l, listed, name⟩ := forall₂_mem_right names m inside
    exact ((litOf_holds name).2 value).trans (holds l listed)

end Literals

section Circuits

variable (named : ∀ (i : Nat) (v : Var), p.names[i]? = some v ↔ p.numbers[v]? = some ⟨i⟩)
  (wf : s.WellFormed) (hf : p.Represents A meaning s f) (hg : p.Represents B meaning' s g)

include named

theorem names_apart (apart : ∀ i ∈ A, i ∉ B) (v : Var) (here : ∃ i ∈ A, p.names[i]? = some v) :
    ¬ ∃ i ∈ B, p.names[i]? = some v := by
  obtain ⟨i, left, name⟩ := here
  rintro ⟨j, right, name'⟩
  have same := ((named i v).mp name).symm.trans ((named j v).mp name')
  simp only [Option.some.injEq, Var.mk.injEq] at same
  exact apart i left (same ▸ right)

include wf hf hg

theorem conj_two_represents (apart : ∀ i ∈ A, i ∉ B) :
    p.Represents (A ∪ B) (fun value => meaning value ∧ meaning' value) (s.conj [f, g]).2
      (s.conj [f, g]).1 := by
  refine (wf.conj_two_realizes hf hg (names_apart named apart)).mono ?_ fun _ => Iff.rfl
  rintro v (⟨i, member, name⟩ | ⟨i, member, name⟩)
  · exact ⟨i, .inl member, name⟩
  · exact ⟨i, .inr member, name⟩

theorem conj_three_represents (hh : p.Represents C meaning'' s h) (apart : ∀ i ∈ A, i ∉ B ∪ C)
    (apart' : ∀ i ∈ B, i ∉ C) :
    p.Represents (A ∪ (B ∪ C)) (fun value => meaning value ∧ meaning' value ∧ meaning'' value)
      (s.conj [f, g, h]).2 (s.conj [f, g, h]).1 := by
  have first (v : Var) (here : ∃ i ∈ A, p.names[i]? = some v) :
      ¬ ((∃ i ∈ B, p.names[i]? = some v) ∨ ∃ i ∈ C, p.names[i]? = some v) := by
    rw [not_or]
    exact ⟨names_apart named (fun i member other => apart i member (.inl other)) v here,
      names_apart named (fun i member other => apart i member (.inr other)) v here⟩
  refine (wf.conj_three_realizes hf hg hh first (names_apart named apart')).mono ?_ fun _ => Iff.rfl
  rintro v (⟨i, member, name⟩ | ⟨i, member, name⟩ | ⟨i, member, name⟩)
  · exact ⟨i, .inl member, name⟩
  · exact ⟨i, .inr (.inl member), name⟩
  · exact ⟨i, .inr (.inr member), name⟩

theorem decision_represents (name : p.names[i]? = some v) (fits : v.Fits) (other : i ∉ A)
    (other' : i ∉ B) : Store.Grows s (s.decision v f g).2 ∧
      p.Represents (insert i (A ∪ B)) (fun value => if value ⟨i⟩ then meaning value else meaning' value)
        (s.decision v f g).2 (s.decision v f g).1 := by
  have unnamed {D : Set Nat} (outside : i ∉ D) : ¬ ∃ j ∈ D, p.names[j]? = some v :=
    names_apart named (by simpa using outside) v ⟨i, Set.mem_singleton i, name⟩
  obtain ⟨grows, realizes⟩ := wf.decision_realizes fits hf hg (unnamed other) (unnamed other')
  refine ⟨grows, realizes.mono ?_ fun value => by simp only [valuation_name name]⟩
  rintro w (rfl | ⟨j, member, name'⟩ | ⟨j, member, name'⟩)
  · exact ⟨i, Set.mem_insert _ _, name⟩
  · exact ⟨j, .inr (.inl member), name'⟩
  · exact ⟨j, .inr (.inr member), name'⟩

end Circuits

end Stepper

end ModelCounting
