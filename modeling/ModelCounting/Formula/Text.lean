import ModelCounting.Formula.Store

/-!
The text of a formula. Operands that bind more loosely than their node stand in brackets; an
implication or equivalence also brackets an operand of its own kind.
-/

namespace ModelCounting

namespace Store

def renderNode (s : Store) (sub : Formula → Except Fault String) (n : Node) :
    Except Fault String :=
  let operand (strict : Bool) (g : Formula) : Except Fault String := do
    let inner ← sub g
    let strength := (s.node g).strength
    if strength < n.strength ∨ strict ∧ strength = n.strength then
      return "(" ++ inner ++ ")"
    else return inner
  match n with
  | .falsum => return "$false"
  | .verum => return "$true"
  | .lit l => do
    let name ← s.name l.var
    return if l.negated then "~" ++ name else name
  | .not g => return "~" ++ (← operand false g)
  | .and fs => return " & ".intercalate (← fs.mapM (operand false))
  | .or fs => return " | ".intercalate (← fs.mapM (operand false))
  | .implies f g => return (← operand true f) ++ " => " ++ (← operand true g)
  | .equiv f g => return (← operand true f) ++ " <=> " ++ (← operand true g)

/-- The text of a formula. Only the name of an undeclared variable is missing. -/
def render (s : Store) (f : Formula) : Except Fault String := s.fold s.renderNode f

end Store

end ModelCounting
