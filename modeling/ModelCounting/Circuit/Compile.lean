import ModelCounting.Circuit.Count
import ModelCounting.Compilation.Compiler

/-!
Compilation of an arbitrary formula into a circuit, by way of its conjunctive normal form.
-/

namespace ModelCounting

/-- The circuit of a formula, over the variables of the formula and of its clauses; none if the
handler cancels. -/
def Store.compile (s : Store) (f : Formula) (settings : Settings) (handler : Handler) :
    Except Fault (Option Circuit × Store × Handler) := do
  let (cnf, s) := s.cnf f
  let vars := mergeVars (s.vars f) (s.vars cnf)
  let (compiler, s) ← Compiler.prepare s cnf settings
  let (outcome, _, s, handler) ← compiler.compile s handler
  match outcome with
  | .compiled g => return (some ⟨g, vars⟩, s, handler)
  | .cancelled => return (none, s, handler)

end ModelCounting
