import Std.Data.TreeMap
import ModelCounting.Formula.Query

/-!
Model counting on decomposable, deterministic circuits in one bottom-up pass. A conjunction
multiplies, since its operands share no variable; a disjunction adds, since its operands share no
model, after each operand is lifted to the variables of the whole.
-/

namespace ModelCounting

abbrev CountMemo := Std.TreeMap Formula Nat

namespace Store

/-- The number of models of a circuit over its own variables. -/
def countFrom (s : Store) (f : Formula) (memo : CountMemo) : Except Fault (Nat × CountMemo) :=
  match memo[f]? with
  | some n => .ok (n, memo)
  | none => do
    let (n, memo) ←
      (match shape : s.node f with
      | .falsum => .ok (0, memo)
      | .verum | .lit _ => .ok (1, memo)
      | .and fs =>
        have below := fun g (h : g ∈ fs) => s.child_lt (f := f) (c := g) (by rwa [shape])
        fs.attach.foldlM (fun ((product, memo) : Nat × CountMemo) g => do
          have := below g.1 g.2
          let (n, memo) ← s.countFrom g.1 memo
          return (product * n, memo)) (1, memo)
      | .or fs =>
        have below := fun g (h : g ∈ fs) => s.child_lt (f := f) (c := g) (by rwa [shape])
        let all := (s.vars f).length
        fs.attach.foldlM (fun ((sum, memo) : Nat × CountMemo) g => do
          have := below g.1 g.2
          let (n, memo) ← s.countFrom g.1 memo
          return (sum + n <<< (all - (s.vars g.1).length), memo)) (0, memo)
      | n => .error (.notCountable n) : Except Fault (Nat × CountMemo))
    return (n, memo.insert f n)
termination_by f.id

end Store

/-- A circuit with the variables of the formula that it stands for. One that the circuit does not
mention is unconstrained. -/
structure Circuit where
  formula : Formula
  /-- The variables to count over, ascending. -/
  vars : List Var
  deriving DecidableEq, Inhabited, Repr

namespace Circuit

def ofVars (f : Formula) (vars : List Var) : Circuit :=
  ⟨f, vars.foldl (fun vs v => mergeVars vs [v]) []⟩

def modelCount (d : Circuit) (s : Store) : Except Fault Nat := do
  let (n, _) ← s.countFrom d.formula ∅
  return n <<< (d.vars.length - (s.vars d.formula).length)

end Circuit

end ModelCounting
