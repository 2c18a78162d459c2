import Mathlib.Data.List.Forall2
import ModelCounting.Fault

/-!
Runs that answer. A run that may be refused is read backwards: from its answer to those of its
parts.
-/

namespace ModelCounting

variable {ε α β γ : Type}

@[simp] theorem bind_ok {x : Except ε α} {f : α → Except ε β} {b : β} :
    (x >>= f) = .ok b ↔ ∃ a, x = .ok a ∧ f a = .ok b := by
  cases x with
  | error e => simp [bind, Except.bind]
  | ok a => simp [bind, Except.bind]

@[simp] theorem pure_ok {a b : α} : (pure a : Except ε α) = .ok b ↔ a = b := by
  simp [pure, Except.pure]

theorem toOption_eq_some {x : Except ε α} {a : α} : x.toOption = some a ↔ x = .ok a := by
  cases x <;> simp [Except.toOption]

theorem forall₂_mem_left {R : α → β → Prop} {xs : List α} {ys : List β}
    (pairs : List.Forall₂ R xs ys) : ∀ x ∈ xs, ∃ y ∈ ys, R x y := by
  induction pairs with
  | nil => simp
  | cons head _ ih =>
    intro x member
    rcases List.mem_cons.mp member with rfl | member
    · exact ⟨_, by simp, head⟩
    · obtain ⟨y, hy, related⟩ := ih x member
      exact ⟨y, List.mem_cons_of_mem _ hy, related⟩

theorem forall₂_mem_right {R : α → β → Prop} {xs : List α} {ys : List β}
    (pairs : List.Forall₂ R xs ys) : ∀ y ∈ ys, ∃ x ∈ xs, R x y :=
  forall₂_mem_left pairs.flip

theorem forall₂_getElem? {R : α → β → Prop} {xs : List α} {ys : List β}
    (pairs : List.Forall₂ R xs ys) {i : Nat} {x : α} (place : xs[i]? = some x) :
    ∃ y, ys[i]? = some y ∧ R x y := by
  induction pairs generalizing i with
  | nil => simp at place
  | cons head _ ih =>
    cases i with
    | zero =>
      simp only [List.getElem?_cons_zero, Option.some.injEq] at place
      exact ⟨_, rfl, place ▸ head⟩
    | succ i => exact ih (by simpa using place)

theorem nodup_of_forall₂ {R : α → β → Prop} {xs : List α} {ys : List β}
    (pairs : List.Forall₂ R xs ys) (apart : ∀ x x' y, R x y → R x' y → x = x')
    (distinct : xs.Nodup) : ys.Nodup := by
  induction pairs with
  | nil => exact .nil
  | cons head tail ih =>
    obtain ⟨new, distinct⟩ := List.nodup_cons.mp distinct
    apply List.nodup_cons.mpr
    constructor
    · intro again
      obtain ⟨x, member, related⟩ := forall₂_mem_right tail _ again
      exact new (apart _ _ _ head related ▸ member)
    · exact ih distinct

theorem mapM_ok {f : α → Except ε β} {xs : List α} {ys : List β} (run : xs.mapM f = .ok ys) :
    List.Forall₂ (fun x y => f x = .ok y) xs ys := by
  induction xs generalizing ys with
  | nil =>
    rw [List.mapM_nil, pure_ok] at run
    rw [← run]
    exact .nil
  | cons x xs ih =>
    simp only [List.mapM_cons, bind_ok, pure_ok] at run
    obtain ⟨y, first, zs, rest, rfl⟩ := run
    exact .cons first (ih rest)

theorem mapM_of_forall₂ {f : α → Except ε β} {xs : List α} {ys : List β}
    (pairs : List.Forall₂ (fun x y => f x = .ok y) xs ys) : xs.mapM f = .ok ys := by
  induction pairs with
  | nil => rfl
  | cons first _ ih =>
    simp only [List.mapM_cons, bind_ok, pure_ok]
    exact ⟨_, first, _, ih, rfl⟩

theorem foldlM_ok {step : β → α → Except ε β} {xs : List α} {b b' : β} (holds : β → Prop)
    (kept : ∀ x ∈ xs, ∀ b b', holds b → step b x = .ok b' → holds b') (start : holds b)
    (run : xs.foldlM step b = .ok b') : holds b' := by
  induction xs generalizing b with
  | nil =>
    rw [List.foldlM_nil, pure_ok] at run
    rwa [← run]
  | cons x xs ih =>
    simp only [List.foldlM_cons, bind_ok] at run
    obtain ⟨c, first, rest⟩ := run
    exact ih (fun y hy => kept y (List.mem_cons_of_mem x hy)) (kept x (by simp) b c start first) rest

end ModelCounting
