import ModelCounting.Formula.Query
import ModelCounting.Sorting

/-!
Subsumption: a clause that contains another clause of the conjunction is dropped, and of several
clauses with the same literals the first stays. The others keep their order.
-/

namespace ModelCounting

def subsumes (c d : List Lit) : Bool := c.all d.contains

/-- The positions of the clauses that stay. Shorter clauses are looked at first, and a clause
stays when none of those kept so far subsumes it. -/
def survivors (clauses : List (List Lit)) : List Nat :=
  let bySize := sortBy (fun c d => c.1.length ≤ d.1.length) clauses.zipIdx
  let kept : List (List Lit × Nat) := bySize.foldl (fun kept c =>
    if kept.any fun k => subsumes k.1 c.1 then kept else c :: kept) []
  kept.map (·.2)

namespace Store

def subsumption (s : Store) (f : Formula) : Except Fault (Formula × Store) :=
  if !s.isCnf f then .error .subsumptionOutsideCnf
  else match s.node f with
    | .and fs => do
      let kept := survivors (← fs.mapM s.clauseLits)
      return s.conj ((fs.zipIdx.filter fun c => kept.contains c.2).map (·.1))
    | _ => .ok (f, s)

end Store

end ModelCounting
