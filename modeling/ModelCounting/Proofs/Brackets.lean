import Mathlib.Data.List.Basic
import Mathlib.Order.Basic
import Mathlib.Tactic.Tauto

/-!
Texts with brackets. Each connective writes a mark of its own, and an operand that would show a mark that
is no tighter is put in brackets. So a text splits in one way only at the mark that it shows outside of
brackets, and the loosest mark that it shows tells its connective.
-/

namespace ModelCounting

/-- Read after so many open brackets, the text closes these and what it opens itself, and shows the mark
only between brackets. -/
inductive Closes (mark : Char) : Nat → List Char → Prop
  | nil : Closes mark 0 []
  | opening {d : Nat} {x : List Char} (rest : Closes mark (d + 1) x) : Closes mark d ('(' :: x)
  | closing {d : Nat} {x : List Char} (rest : Closes mark d x) : Closes mark (d + 1) (')' :: x)
  | other {d : Nat} {c : Char} {x : List Char} (notOpening : c ≠ '(') (notClosing : c ≠ ')')
    (unmarked : d = 0 → c ≠ mark) (rest : Closes mark d x) : Closes mark d (c :: x)

def bracketed (x : List Char) : List Char := '(' :: (x ++ [')'])

section Closes

variable {mark mark' : Char} {d : Nat} {x x' y y' : List Char}

theorem Closes.append (first : Closes mark d x) (second : Closes mark 0 y) :
    Closes mark d (x ++ y) := by
  induction first with
  | nil => exact second
  | opening _ ih => exact .opening ih
  | closing _ ih => exact .closing ih
  | other notOpening notClosing unmarked _ ih => exact .other notOpening notClosing unmarked ih

theorem Closes.enclosed (closes : Closes mark d x) : Closes mark' (d + 1) (x ++ [')']) := by
  induction closes with
  | nil => exact .closing .nil
  | opening _ ih => exact .opening ih
  | closing _ ih => exact .closing ih
  | other notOpening notClosing _ _ ih => exact .other notOpening notClosing nofun ih

theorem Closes.bracketed (closes : Closes mark 0 x) : Closes mark' 0 (bracketed x) :=
  .opening closes.enclosed

theorem closes_of_plain (plain : ∀ c ∈ x, c ≠ '(' ∧ c ≠ ')' ∧ c ≠ mark) : Closes mark 0 x := by
  induction x with
  | nil => exact .nil
  | cons c x ih =>
    obtain ⟨⟨notOpening, notClosing, unmarked⟩, rest⟩ := List.forall_mem_cons.mp plain
    exact .other notOpening notClosing (fun _ => unmarked) (ih rest)

/-- Behind a text that closes, the mark shows. -/
theorem Closes.not_closes (notOpening : mark ≠ '(') (notClosing : mark ≠ ')') (closes : Closes mark d x) :
    ¬ Closes mark d (x ++ mark :: y) := by
  induction closes with
  | nil =>
    rintro (_ | _ | _ | ⟨_, _, unmarked, _⟩)
    · exact notOpening rfl
    · exact unmarked rfl rfl
  | opening _ ih =>
    rintro (_ | rest | _ | ⟨other, _⟩)
    · exact ih rest
    · exact other rfl
  | closing _ ih =>
    rintro (_ | _ | rest | ⟨_, other, _⟩)
    · exact ih rest
    · exact other rfl
  | other notOpening notClosing _ _ ih =>
    rintro (_ | _ | _ | ⟨_, _, _, rest⟩)
    · exact notOpening rfl
    · exact notClosing rfl
    · exact ih rest

/-- A text splits at the first mark that shows. -/
theorem Closes.split (notOpening : mark ≠ '(') (first : Closes mark d x) (second : Closes mark d x')
    (same : x ++ mark :: y = x' ++ mark :: y') : x = x' ∧ y = y' := by
  induction first generalizing x' with
  | nil =>
    cases second with
    | nil => exact ⟨rfl, List.tail_eq_of_cons_eq same⟩
    | opening => exact absurd (List.head_eq_of_cons_eq same) notOpening
    | other _ _ unmarked => exact absurd (List.head_eq_of_cons_eq same).symm (unmarked rfl)
  | opening _ ih =>
    cases second with
    | nil => exact absurd (List.head_eq_of_cons_eq same).symm notOpening
    | opening rest =>
      obtain ⟨rfl, rfl⟩ := ih rest (List.tail_eq_of_cons_eq same)
      exact ⟨rfl, rfl⟩
    | closing => exact absurd (List.head_eq_of_cons_eq same) (by decide)
    | other other => exact absurd (List.head_eq_of_cons_eq same).symm other
  | closing _ ih =>
    cases second with
    | opening => exact absurd (List.head_eq_of_cons_eq same) (by decide)
    | closing rest =>
      obtain ⟨rfl, rfl⟩ := ih rest (List.tail_eq_of_cons_eq same)
      exact ⟨rfl, rfl⟩
    | other _ other => exact absurd (List.head_eq_of_cons_eq same).symm other
  | other notOpening notClosing unmarked _ ih =>
    cases second with
    | nil => exact absurd (List.head_eq_of_cons_eq same) (unmarked rfl)
    | opening => exact absurd (List.head_eq_of_cons_eq same) notOpening
    | closing => exact absurd (List.head_eq_of_cons_eq same) notClosing
    | other _ _ _ rest =>
      obtain ⟨rfl, rfl⟩ := ih rest (List.tail_eq_of_cons_eq same)
      exact ⟨by rw [List.head_eq_of_cons_eq same], rfl⟩

/-- A row of texts that do not show the mark is divided by it in one way only. -/
theorem intercalate_inj {ws ws' : List (List Char)} (notOpening : mark ≠ '(') (notClosing : mark ≠ ')')
    (spaced : mark ≠ ' ') (some : ws ≠ []) (some' : ws' ≠ []) (each : ∀ w ∈ ws, Closes mark 0 w)
    (each' : ∀ w ∈ ws', Closes mark 0 w)
    (same : [' ', mark, ' '].intercalate ws = [' ', mark, ' '].intercalate ws') : ws = ws' := by
  have space : Closes mark 0 [' '] := .other (by decide) (by decide) (fun _ => spaced.symm) .nil
  have divided (w : List Char) (ws : List (List Char)) (some : ws ≠ []) :
      [' ', mark, ' '].intercalate (w :: ws) =
        (w ++ [' ']) ++ mark :: (' ' :: [' ', mark, ' '].intercalate ws) := by
    rw [List.intercalate_cons_of_ne_nil some]
    simp
  induction ws generalizing ws' with
  | nil => exact absurd rfl some
  | cons w ws ih =>
    cases ws' with
    | nil => exact absurd rfl some'
    | cons w' ws' =>
      obtain ⟨first, rest⟩ := List.forall_mem_cons.mp each
      obtain ⟨first', rest'⟩ := List.forall_mem_cons.mp each'
      by_cases last : ws = [] <;> by_cases last' : ws' = []
      · subst last last'
        rw [List.intercalate_singleton, List.intercalate_singleton] at same
        rw [same]
      · subst last
        rw [List.intercalate_singleton, divided w' ws' last'] at same
        exact absurd (same ▸ first) ((first'.append space).not_closes notOpening notClosing)
      · subst last'
        rw [List.intercalate_singleton, divided w ws last] at same
        exact absurd (same ▸ first') ((first.append space).not_closes notOpening notClosing)
      · rw [divided w ws last, divided w' ws' last'] at same
        obtain ⟨here, there⟩ := (first.append space).split notOpening (first'.append space) same
        rw [List.append_cancel_right here, ih last last' rest rest' (List.tail_eq_of_cons_eq there)]

end Closes

/-! Strength. -/

def markOf : Nat → Char
  | 0 => '<'
  | 1 => '>'
  | 2 => '|'
  | _ => '&'

/-- The characters that bracket and tell connectives. -/
def tellers : List Char := ['(', ')', '<', '>', '|', '&']

theorem markOf_mem (j : Nat) : markOf j ∈ ['<', '>', '|', '&'] := by
  unfold markOf
  split <;> decide

theorem markOf_inj : ∀ j < 4, ∀ k < 4, markOf j = markOf k → j = k := by
  decide

def Tighter (bound : Nat) (x : List Char) : Prop :=
  Closes '(' 0 x ∧ ∀ j < bound, Closes (markOf j) 0 x

/-- What the text of a formula shows: the mark of its connective, and no looser one. A text without
connectives does not look like an operand in brackets. -/
structure Shows (strength : Nat) (x : List Char) : Prop where
  tighter : Tighter strength x
  own : strength < 4 → ¬ Closes (markOf strength) 0 x
  unbracketed : strength = 4 → x.head? ≠ some '('

section Shows

variable {j k bound : Nat} {x x' y : List Char}

theorem Tighter.append (first : Tighter bound x) (second : Tighter bound y) : Tighter bound (x ++ y) :=
  ⟨first.1.append second.1, fun j lower => (first.2 j lower).append (second.2 j lower)⟩

theorem Tighter.mono (tighter : Tighter bound x) (le : k ≤ bound) : Tighter k x :=
  ⟨tighter.1, fun j lower => tighter.2 j (Nat.lt_of_lt_of_le lower le)⟩

theorem Tighter.bracketed (tighter : Tighter k x) : Tighter bound (bracketed x) :=
  ⟨tighter.1.bracketed, fun _ _ => tighter.1.bracketed⟩

theorem tighter_of_plain (plain : ∀ c ∈ x, c ∉ tellers) : Tighter bound x := by
  have closes (mark : Char) (told : mark ∈ tellers) : Closes mark 0 x := by
    refine closes_of_plain fun c member => ⟨?_, ?_, ?_⟩ <;> rintro rfl
    · exact plain _ member (by decide)
    · exact plain _ member (by decide)
    · exact plain _ member told
  refine ⟨closes _ (by decide), fun j _ => closes _ ?_⟩
  have := markOf_mem j
  simp only [tellers, List.mem_cons] at this ⊢
  tauto

theorem shows_marked (connective : k < 4) (left : Tighter (k + 1) x) (right : Tighter k y) :
    Shows k (x ++ markOf k :: y) := by
  have proper : markOf k ≠ '(' ∧ markOf k ≠ ')' := by
    have := markOf_mem k
    constructor <;> intro same <;> rw [same] at this <;> revert this <;> decide
  refine ⟨⟨?_, fun j lower => ?_⟩, fun _ => ?_, fun atomic => absurd connective (by omega)⟩
  · exact left.1.append (.other proper.1 proper.2 (fun _ => proper.1) right.1)
  · refine (left.2 j (by omega)).append (.other proper.1 proper.2 (fun _ same => ?_) (right.2 j lower))
    have := markOf_inj k connective j (by omega) same
    omega
  · exact (left.2 k (Nat.lt_succ_self k)).not_closes proper.1 proper.2

theorem Shows.strength_eq (first : Shows j x) (second : Shows k x) (le : j ≤ 4) (le' : k ≤ 4) :
    j = k := by
  rcases Nat.lt_trichotomy j k with lower | same | lower
  · exact absurd (second.tighter.2 j lower) (first.own (by omega))
  · exact same
  · exact absurd (first.tighter.2 k lower) (second.own (by omega))

theorem Shows.ne_bracketed (shows_ : Shows k x) (le : k ≤ 4) (tighter : Tighter j x') :
    x ≠ ModelCounting.bracketed x' := by
  rintro rfl
  by_cases atomic : k = 4
  · exact shows_.unbracketed atomic rfl
  · exact shows_.own (by omega) tighter.1.bracketed

def wrap (loose : Bool) (x : List Char) : List Char := if loose then bracketed x else x

theorem Shows.wrap_inj {loose loose' : Bool} (first : Shows j x) (second : Shows k x') (le : j ≤ 4)
    (le' : k ≤ 4) (same : wrap loose x = wrap loose' x') : x = x' := by
  cases loose <;> cases loose'
  · exact same
  · exact absurd same (first.ne_bracketed le second.tighter)
  · exact absurd same.symm (second.ne_bracketed le' first.tighter)
  · exact List.append_cancel_right (List.tail_eq_of_cons_eq same)

theorem shows_plain (plain : ∀ c ∈ x, c ∉ tellers) : Shows 4 x := by
  refine ⟨tighter_of_plain plain, nofun, fun _ head => ?_⟩
  exact plain _ (List.mem_of_head? head) (by decide)

theorem tighter_intercalate {sep : List Char} {ws : List (List Char)} (between : Tighter bound sep)
    (each : ∀ w ∈ ws, Tighter bound w) : Tighter bound (sep.intercalate ws) := by
  induction ws with
  | nil => exact ⟨.nil, fun _ _ => .nil⟩
  | cons w ws ih =>
    obtain ⟨first, rest⟩ := List.forall_mem_cons.mp each
    by_cases last : ws = []
    · subst last
      rwa [List.intercalate_singleton]
    · rw [List.intercalate_cons_of_ne_nil last]
      exact (first.append between).append (ih rest)

theorem shows_row {ws : List (List Char)} (connective : k < 4) (many : 2 ≤ ws.length)
    (each : ∀ w ∈ ws, Tighter (k + 1) w) : Shows k ([' ', markOf k, ' '].intercalate ws) := by
  have space (bound : Nat) : Tighter bound [' '] := tighter_of_plain (by simp [tellers])
  have between : Tighter k [' ', markOf k, ' '] := (shows_marked connective (space _) (space _)).tighter
  match ws with
  | w :: w' :: ws =>
    obtain ⟨first, rest⟩ := List.forall_mem_cons.mp each
    have others := tighter_intercalate between fun w member => (rest w member).mono (Nat.le_succ k)
    have shows_ := shows_marked connective (first.append (space _)) ((space k).append others)
    rw [List.intercalate_cons_cons]
    simpa using shows_

end Shows

end ModelCounting
