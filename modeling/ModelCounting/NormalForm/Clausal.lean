import ModelCounting.Formula.Query
import ModelCounting.NormalForm.Negation

/-!
Conjunctive normal form by distribution. No variable is added, so the result is equivalent to the
formula and may be much larger.
-/

namespace ModelCounting

abbrev Memo := Std.TreeMap Formula Formula

namespace Store

def conjuncts (s : Store) (f : Formula) : List Formula :=
  match s.node f with
  | .and fs => fs
  | _ => [f]

/-- The disjunctions of a formula with each of the given ones, interned in order. -/
def disjEach (s : Store) (c : Formula) : List Formula → List Formula × Store
  | [] => ([], s)
  | d :: ds =>
    let (f, s) := s.disj [c, d]
    let (fs, s) := s.disjEach c ds
    (f :: fs, s)

/-- The disjunctions of all pairs of the two lists, first component outermost. -/
def disjPairs (s : Store) (ds : List Formula) : List Formula → List Formula × Store
  | [] => ([], s)
  | c :: cs =>
    let (fs, s) := s.disjEach c ds
    let (gs, s) := s.disjPairs ds cs
    (fs ++ gs, s)

/-- The disjunction of two conjunctions of clauses, as a conjunction of clauses. -/
def distribute (s : Store) (f g : Formula) : Formula × Store :=
  let (fs, s) := s.disjPairs (s.conjuncts g) (s.conjuncts f)
  s.conj fs

/-- The conjunction of clauses for a formula in negation normal form. -/
def cnfFrom (f : Formula) (s : Store) (memo : Memo) : Formula × Store × Memo :=
  match memo[f]? with
  | some g => (g, s, memo)
  | none =>
    let (g, s, memo) : Formula × Store × Memo :=
      match shape : s.node f with
      | .and fs =>
        have below := fun g (h : g ∈ fs) => s.child_lt (f := f) (c := g) (by rwa [shape])
        let (gs, s, memo) : List Formula × Store × Memo :=
          fs.attach.foldl (fun (gs, s, memo) g =>
            have := below g.1 g.2
            let (h, s, memo) := cnfFrom g.1 s memo
            (h :: gs, s, memo)) ([], s, memo)
        let (g, s) := s.conj gs.reverse
        (g, s, memo)
      | .or fs =>
        have below := fun g (h : g ∈ fs) => s.child_lt (f := f) (c := g) (by rwa [shape])
        fs.attach.foldl (fun (sum, s, memo) g =>
          have := below g.1 g.2
          let (h, s, memo) := cnfFrom g.1 s memo
          let (sum, s) := s.distribute sum h
          (sum, s, memo)) (.falsum, s, memo)
      | _ => (f, s, memo)
    (g, s, memo.insert f g)
termination_by f.id

def cnf (s : Store) (f : Formula) : Formula × Store :=
  if s.isCnf f then (f, s)
  else
    let (g, s) := s.nnf f
    let (h, s, _) := cnfFrom g s ∅
    (h, s)

end Store

end ModelCounting
