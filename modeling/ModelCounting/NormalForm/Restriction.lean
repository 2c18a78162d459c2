import ModelCounting.NormalForm.Clausal

/-!
Restriction: the given literals become true and their complements false, and the formula is
rebuilt through the simplifying constructors.
-/

namespace ModelCounting

namespace Store

def restrictFrom (ls : List Lit) (f : Formula) (s : Store) (memo : Memo) :
    Formula × Store × Memo :=
  match memo[f]? with
  | some g => (g, s, memo)
  | none =>
    let junctionOf (c : Connective) (r : List Formula × Store × Memo) : Formula × Store × Memo :=
      let (gs, s, memo) := r
      let (g, s) := s.junction c gs.reverse
      (g, s, memo)
    let (g, s, memo) : Formula × Store × Memo :=
      match shape : s.node f with
      | .falsum | .verum => (f, s, memo)
      | .lit l =>
        if ls.contains l then (.verum, s, memo)
        else if ls.contains (-l) then (.falsum, s, memo)
        else (f, s, memo)
      | .not g =>
        have := s.child_lt (f := f) (c := g) (by simp [shape, Node.children])
        let (h, s, memo) := restrictFrom ls g s memo
        let (h, s) := s.neg h
        (h, s, memo)
      | .and fs =>
        have below := fun g (h : g ∈ fs) => s.child_lt (f := f) (c := g) (by rwa [shape])
        junctionOf .conj (fs.attach.foldl (fun (gs, s, memo) g =>
          have := below g.1 g.2
          let (h, s, memo) := restrictFrom ls g.1 s memo
          (h :: gs, s, memo)) ([], s, memo))
      | .or fs =>
        have below := fun g (h : g ∈ fs) => s.child_lt (f := f) (c := g) (by rwa [shape])
        junctionOf .disj (fs.attach.foldl (fun (gs, s, memo) g =>
          have := below g.1 g.2
          let (h, s, memo) := restrictFrom ls g.1 s memo
          (h :: gs, s, memo)) ([], s, memo))
      | .implies a b =>
        have := s.child_lt (f := f) (c := a) (by simp [shape, Node.children])
        have := s.child_lt (f := f) (c := b) (by simp [shape, Node.children])
        let (x, s, memo) := restrictFrom ls a s memo
        let (y, s, memo) := restrictFrom ls b s memo
        let (g, s) := s.implies x y
        (g, s, memo)
      | .equiv a b =>
        have := s.child_lt (f := f) (c := a) (by simp [shape, Node.children])
        have := s.child_lt (f := f) (c := b) (by simp [shape, Node.children])
        let (x, s, memo) := restrictFrom ls a s memo
        let (y, s, memo) := restrictFrom ls b s memo
        let (g, s) := s.equiv x y
        (g, s, memo)
    (g, s, memo.insert f g)
termination_by f.id

def restrict (s : Store) (f : Formula) (ls : List Lit) : Formula × Store :=
  let (g, s, _) := restrictFrom ls f s ∅
  (g, s)

end Store

end ModelCounting
