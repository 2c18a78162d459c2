import ModelCounting.Search.VarQueue

/-!
Branching order: a queue of variables ranked by activity, and the phase each variable had when it
was last assigned. Activities only steer the search.
-/

namespace ModelCounting

structure Branching where
  queue : VarQueue := {}
  activity : Array Float := #[]
  /-- What the next bump adds. -/
  increment : Float := 1
  phases : Array Bool := #[]
  deriving Inhabited

namespace Branching

def addVar (b : Branching) (v : Var) : Except Fault Branching := do
  let b := { b with activity := b.activity.push 0, phases := b.phases.push false }
  let queue ← b.queue.insert b.activity v
  return { b with queue }

/-- Puts an unassigned variable back into the queue and keeps its phase. -/
def release (b : Branching) (l : Lit) : Except Fault Branching := do
  let b := { b with phases := b.phases.setIfInBounds l.var.id l.phase }
  let queue ← b.queue.insert b.activity l.var
  return { b with queue }

/-- Raises the activity of a variable, scaling all activities down before they grow too large. -/
def bump (b : Branching) (v : Var) : Except Fault Branching := do
  let b := { b with activity := b.activity.modify v.id (· + b.increment) }
  let b :=
    if b.activity.getD v.id 0 > 1e100 then
      { b with activity := b.activity.map (· * 1e-100), increment := b.increment * 1e-100 }
    else b
  let queue ← b.queue.bump b.activity v
  return { b with queue }

def decay (b : Branching) (share : Float) : Branching :=
  { b with increment := b.increment * (1.0 / share) }

/-- Takes variables from the queue until one is unassigned. -/
def pick (value : Var → Truth) : Nat → Branching → Except Fault (Option Lit × Branching)
  | 0, _ => .error .stalled
  | n + 1, b => do
    match ← b.queue.pop b.activity with
    | (none, queue) => return (none, { b with queue })
    | (some v, queue) =>
      let b := { b with queue }
      if value v = .undef then return (some (.of v (b.phases.getD v.id false)), b)
      else pick value n b

end Branching

end ModelCounting
