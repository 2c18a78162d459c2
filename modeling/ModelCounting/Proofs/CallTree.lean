import ModelCounting.Proofs.Passages
import ModelCounting.Proofs.Search.Deciding

/-!
The calls of a compilation, listed. What a call does is read off what the recursion answers, so the
branches that it compiles, those that it finds failed and the calls that it makes can be listed. A call
has a smaller bound than the one that makes it, so all the calls of a compilation are listed too.
-/

namespace ModelCounting

def agreed? {α : Type} : Except Fault (Bool × α) → Option α
  | .ok (true, x) => some x
  | _ => none

theorem agreed?_eq_some {α : Type} {r : Except Fault (Bool × α)} {x : α} :
    agreed? r = some x ↔ r = .ok (true, x) := by
  rcases r with fault | ⟨_ | _, y⟩ <;> simp [agreed?]

namespace Compilation

def failed? : Except Fault (Outcome × Compilation) → Option Compilation
  | .ok (.compiled f, c) => if f = .falsum then some c else none
  | _ => none

def passed? : Except Fault (Outcome × Compilation) → Option Compilation
  | .ok (.compiled f, c) => if f = .falsum then none else some c
  | _ => none

theorem failed?_eq_some {r : Except Fault (Outcome × Compilation)} {c : Compilation} :
    failed? r = some c ↔ r = .ok (.compiled .falsum, c) := by
  rcases r with fault | ⟨f | _, c'⟩
  · simp [failed?]
  · by_cases falsum : f = .falsum <;> simp [failed?, falsum]
  · simp [failed?]

theorem passed?_eq_some {r : Except Fault (Outcome × Compilation)} {c : Compilation} :
    passed? r = some c ↔ ∃ f ≠ Formula.falsum, r = .ok (.compiled f, c) := by
  rcases r with fault | ⟨f | _, c'⟩
  · simp [passed?]
  · by_cases falsum : f = .falsum <;> simp [passed?, falsum]
  · simp [passed?]

namespace Call

variable {a b : Call} {v : Var} {c : Compilation} {n : Nat}

def inner (a : Call) : CompilationStep := Compilation.tree (a.bound - 1) a.tree (a.nested + 1)

/-- The variable that a call expands, and the state before its first branch. -/
def expanded? : Call → Option (Var × Compilation)
  | ⟨0, _, _, _⟩ => none
  | ⟨_ + 1, t, nested, c⟩ => do
    let (_, c) ← (c.enter t).toOption
    if c.separator.isEmpty then none
    else
      let v ← (c.chooseVariable t nested).toOption
      if c.handler.expand.1 then some (v, c.counted) else none

def branches (a : Call) : List (Var × Bool × Compilation) :=
  match a.expanded? with
  | none => []
  | some (v, c) =>
    (v, true, c) :: (passed? (branch a.inner v true c)).toList.map fun c => (v, false, c)

def retries (a : Call) : List Compilation :=
  a.branches.filterMap fun x => failed? (branch a.inner x.1 x.2.1 x.2.2)

def parts : Call → List (PlacedTree × Compilation)
  | ⟨n + 1, .node d left right, nested, c⟩ =>
    match c.enter (.node d left right) with
    | .error _ => []
    | .ok (implied, c) =>
      if c.separator.isEmpty = true ∧ implied ≠ .falsum then
        (left, c) ::
          (passed? (part (Compilation.tree n · 0) nested left c)).toList.map fun c => (right, c)
      else []
  | _ => []

/-- The call for a part, unless it is a leaf or was compiled before. -/
def ofPart? (n : Nat) : PlacedTree × Compilation → Option Call
  | (.leaf _, _) => none
  | (.node d left right, c) =>
    if (c.cache.find? (c.key (.node d left right))).isNone then
      some ⟨n, .node d left right, 0, c.looked (.node d left right)⟩
    else none

/-- The calls that a call makes. -/
def made (a : Call) : List Call :=
  (a.branches.filterMap fun x => (agreed? (x.2.2.solver.decide x.1 x.2.1)).map fun p =>
    ⟨a.bound - 1, a.tree, a.nested + 1, { x.2.2 with solver := p }⟩) ++
  (a.retries.filterMap fun c => (agreed? c.solver.assertLesson).map fun p =>
    ⟨a.bound - 1, a.tree, 0, { c with solver := p }⟩) ++
  a.parts.filterMap (ofPart? (a.bound - 1))

def reached : Nat → Call → List Call
  | 0, a => [a]
  | n + 1, a => a :: a.made.flatMap (reached n)

theorem expanded?_eq_some : a.expanded? = some (v, c) ↔ a.Branches v true c := by
  constructor
  · intro run
    obtain ⟨_ | n, t, nested, c₀⟩ := a
    · cases run
    simp only [expanded?, Option.bind_eq_bind, Option.bind_eq_some_iff, Prod.exists,
      toOption_eq_some] at run
    obtain ⟨implied, c₁, enter, run⟩ := run
    split at run
    · cases run
    rename_i shared
    obtain ⟨w, choice, run⟩ := Option.bind_eq_some_iff.mp run
    split at run
    · rename_i granted
      cases run
      exact .positive enter (Bool.eq_false_iff.mpr shared) (toOption_eq_some.mp choice) granted
    · cases run
  · rintro (⟨enter, shared, choice, granted⟩)
    simp [expanded?, enter, shared, choice, granted, Except.toOption]

theorem Branches.bound_eq {phase : Bool} (branches : a.Branches v phase c) :
    a.bound = a.bound - 1 + 1 := by
  cases branches <;> rfl

theorem mem_branches {x : Var × Bool × Compilation} :
    x ∈ a.branches ↔ a.Branches x.1 x.2.1 x.2.2 := by
  obtain ⟨v, phase, c⟩ := x
  unfold branches
  constructor
  · intro member
    split at member
    · cases member
    rename_i w c₀ expanded
    have before := expanded?_eq_some.mp expanded
    rcases List.mem_cons.mp member with same | member
    · cases same
      exact before
    · obtain ⟨c₁, passed, same⟩ := List.mem_map.mp member
      cases same
      obtain ⟨f, some, run⟩ := passed?_eq_some.mp (Option.mem_toList.mp passed)
      obtain ⟨_ | n, t, nested, c₂⟩ := a
      · cases expanded
      exact .negative before run some
  · intro branches
    cases branches with
    | positive enter shared choice granted =>
      rw [expanded?_eq_some.mpr (.positive enter shared choice granted)]
      exact List.mem_cons_self
    | negative before positive some =>
      rw [expanded?_eq_some.mpr before]
      refine List.mem_cons_of_mem _ (List.mem_map.mpr ⟨c, Option.mem_toList.mpr ?_, rfl⟩)
      exact passed?_eq_some.mpr ⟨_, some, positive⟩

theorem mem_retries : c ∈ a.retries ↔ a.Retries c := by
  simp only [retries, List.mem_filterMap, mem_branches, failed?_eq_some, Prod.exists]
  constructor
  · rintro ⟨v, phase, c₁, before, failed⟩
    obtain ⟨_ | n, t, nested, c₀⟩ := a
    · cases before.bound_eq
    exact ⟨before, failed⟩
  · rintro ⟨before, failed⟩
    exact ⟨_, _, _, before, failed⟩

theorem mem_parts {x : PlacedTree × Compilation} : x ∈ a.parts ↔ a.Parts x.1 x.2 := by
  obtain ⟨t, c⟩ := x
  constructor
  · intro member
    obtain ⟨_ | n, _ | ⟨d, left, right⟩, nested, c₀⟩ := a
    · cases member
    · cases member
    · cases member
    simp only [parts] at member
    split at member
    · cases member
    rename_i implied c₁ enter
    split at member
    · rename_i both
      obtain ⟨apart, some⟩ := both
      rcases List.mem_cons.mp member with same | member
      · cases same
        exact .left enter apart some
      · obtain ⟨c₂, passed, same⟩ := List.mem_map.mp member
        cases same
        obtain ⟨f, some', run⟩ := passed?_eq_some.mp (Option.mem_toList.mp passed)
        exact .right enter apart some run some'
    · cases member
  · intro parts
    cases parts with
    | left enter apart some => simp [Call.parts, enter, apart, some]
    | right enter apart some first some' =>
      have passed := passed?_eq_some.mpr ⟨_, some', first⟩
      simp [Call.parts, enter, apart, some, passed]

theorem ofPart?_eq_some {x : PlacedTree × Compilation} : ofPart? n x = some b ↔
    ∃ d left right, x.1 = .node d left right ∧ x.2.cache.find? (x.2.key x.1) = none ∧
      b = ⟨n, x.1, 0, x.2.looked x.1⟩ := by
  obtain ⟨l | ⟨d, left, right⟩, c⟩ := x
  · simp [ofPart?]
  · rw [ofPart?]
    split
    · rename_i missing
      simp [Option.isNone_iff_eq_none.mp missing, eq_comm]
    · rename_i found
      simp [mt Option.isNone_iff_eq_none.mpr found]

theorem mem_made : b ∈ a.made ↔ a.Makes b := by
  simp only [made, List.mem_append, List.mem_filterMap, mem_branches, mem_retries, mem_parts,
    Option.map_eq_some_iff, agreed?_eq_some, ofPart?_eq_some, or_assoc]
  constructor
  · rintro (⟨⟨v, phase, c⟩, before, p, run, rfl⟩ | ⟨c, failed, p, run, rfl⟩ |
      ⟨⟨t, c⟩, before, d, left, right, rfl, missing, rfl⟩)
    · obtain ⟨_ | n, t, nested, c₀⟩ := a
      · cases before.bound_eq
      exact .branch before run
    · cases failed with
      | intro before failed => exact .again ⟨before, failed⟩ (Stepper.assertLesson_level run) run
    · obtain ⟨_ | n, t, nested, c₀⟩ := a
      · cases before
      exact .part before missing
  · intro makes
    cases makes with
    | branch before run => exact .inl ⟨⟨_, _, _⟩, before, _, run, rfl⟩
    | again failed level run => exact .inr (.inl ⟨_, failed, _, run, rfl⟩)
    | part before missing =>
      exact .inr (.inr ⟨⟨_, _⟩, before, _, _, _, rfl, missing, rfl⟩)

theorem Makes.bound_eq (makes : a.Makes b) : a.bound = b.bound + 1 := by
  cases makes <;> rfl

theorem mem_reached (enough : a.bound ≤ n) :
    b ∈ a.reached n ↔ Relation.ReflTransGen Makes a b := by
  induction n generalizing a with
  | zero =>
    rw [reached, List.mem_singleton, Relation.ReflTransGen.cases_head_iff]
    refine ⟨fun same => .inl same.symm, ?_⟩
    rintro (rfl | ⟨c, makes, _⟩)
    · rfl
    · have := makes.bound_eq
      omega
  | succ n ih =>
    rw [reached, List.mem_cons, List.mem_flatMap, Relation.ReflTransGen.cases_head_iff, eq_comm]
    refine or_congr_right (exists_congr fun c => ?_)
    rw [mem_made]
    refine and_congr_right fun makes => ih ?_
    have := makes.bound_eq
    omega

end Call

end Compilation

namespace Compiler

open Compilation

variable {m : Compiler} {s : Store} {handler : Handler} {a : Call}

def first? (m : Compiler) (s : Store) (handler : Handler) : Option Call := do
  let p ← agreed? m.solver.start
  let (d, _) ← (Dtree.minFill s m.nonUnits).toOption
  let t ← (d.place p).toOption
  return ⟨nestingBound p t, t, 0, .first s p t handler⟩

def calls (m : Compiler) (s : Store) (handler : Handler) : List Call :=
  (m.first? s handler).toList.flatMap fun r => r.reached r.bound

theorem mem_calls : a ∈ m.calls s handler ↔ m.Calls s handler a := by
  simp only [calls, List.mem_flatMap, Option.mem_toList, first?, Option.bind_eq_bind,
    Option.bind_eq_some_iff, agreed?_eq_some, toOption_eq_some, Call.mem_reached (Nat.le_refl _)]
  constructor
  · rintro ⟨r, ⟨p, start, ⟨d, e⟩, tree, t, place, same⟩, path⟩
    cases same
    induction path with
    | refl => exact .first start tree place
    | tail _ makes ih => exact .next ih makes
  · intro calls
    induction calls with
    | first start tree place => exact ⟨_, ⟨_, start, ⟨_, _⟩, tree, _, place, rfl⟩, .refl⟩
    | next _ makes ih =>
      obtain ⟨r, first, path⟩ := ih
      exact ⟨r, first, path.tail makes⟩

end Compiler

end ModelCounting
