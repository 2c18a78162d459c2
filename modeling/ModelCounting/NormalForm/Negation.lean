import ModelCounting.Formula.Store

/-!
Negation normal form: negations stand on literals only, and implications and equivalences are
written out. Each formula is converted at most once in each polarity.
-/

namespace ModelCounting

/-- The connective that a negation turns this one into. -/
def Connective.dual : Connective → Connective
  | .conj => .disj
  | .disj => .conj

def Connective.under (c : Connective) (positive : Bool) : Connective :=
  if positive then c else c.dual

instance : Ord (Formula × Bool) := lexOrd

/-- The normal forms found so far, by formula and polarity. -/
abbrev PolarityMemo := Std.TreeMap (Formula × Bool) Formula

namespace Store

/-- The normal form of a formula, or of its negation when `positive` is false. -/
def nnfFrom (f : Formula) (positive : Bool) (s : Store) (memo : PolarityMemo) :
    Formula × Store × PolarityMemo :=
  match memo[(f, positive)]? with
  | some g => (g, s, memo)
  | none =>
    let junctionOf (c : Connective) (r : List Formula × Store × PolarityMemo) :
        Formula × Store × PolarityMemo :=
      let (gs, s, memo) := r
      let (g, s) := s.junction (c.under positive) gs.reverse
      (g, s, memo)
    let (g, s, memo) : Formula × Store × PolarityMemo :=
      match shape : s.node f with
      | .falsum | .verum | .lit _ =>
        if positive then (f, s, memo)
        else
          let (g, s) := s.neg f
          (g, s, memo)
      | .not g =>
        have := s.child_lt (f := f) (c := g) (by simp [shape, Node.children])
        nnfFrom g (!positive) s memo
      | .and fs =>
        have below := fun g (h : g ∈ fs) => s.child_lt (f := f) (c := g) (by rwa [shape])
        junctionOf .conj (fs.attach.foldl (fun (gs, s, memo) g =>
          have := below g.1 g.2
          let (h, s, memo) := nnfFrom g.1 positive s memo
          (h :: gs, s, memo)) ([], s, memo))
      | .or fs =>
        have below := fun g (h : g ∈ fs) => s.child_lt (f := f) (c := g) (by rwa [shape])
        junctionOf .disj (fs.attach.foldl (fun (gs, s, memo) g =>
          have := below g.1 g.2
          let (h, s, memo) := nnfFrom g.1 positive s memo
          (h :: gs, s, memo)) ([], s, memo))
      | .implies a b =>
        have := s.child_lt (f := f) (c := a) (by simp [shape, Node.children])
        have := s.child_lt (f := f) (c := b) (by simp [shape, Node.children])
        let (x, s, memo) := nnfFrom a (!positive) s memo
        let (y, s, memo) := nnfFrom b positive s memo
        junctionOf .disj ([y, x], s, memo)
      | .equiv a b =>
        have := s.child_lt (f := f) (c := a) (by simp [shape, Node.children])
        have := s.child_lt (f := f) (c := b) (by simp [shape, Node.children])
        let (posA, s, memo) := nnfFrom a true s memo
        let (negA, s, memo) := nnfFrom a false s memo
        let (posB, s, memo) := nnfFrom b true s memo
        let (negB, s, memo) := nnfFrom b false s memo
        let (x, s) := s.disj (if positive then [negA, posB] else [posA, posB])
        let (y, s) := s.disj (if positive then [posA, negB] else [negA, negB])
        let (g, s) := s.conj [x, y]
        (g, s, memo)
    (g, s, memo.insert (f, positive) g)
termination_by f.id

def nnf (s : Store) (f : Formula) : Formula × Store :=
  let (g, s, _) := nnfFrom f true s ∅
  (g, s)

end Store

end ModelCounting
