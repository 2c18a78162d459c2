import ModelCounting.Search.ClauseBank

/-!
The trail: the literals made true so far in order, the decision level and the reason of each, and
where each level starts. The queue head separates literals whose consequences have been drawn from
those still waiting.
-/

namespace ModelCounting

structure Trail where
  values : Array Truth := #[]
  levels : Array Nat := #[]
  reasons : Array (Option ClauseRef) := #[]
  lits : Array Lit := #[]
  /-- Length of the trail when each level was opened. -/
  starts : Array Nat := #[]
  head : Nat := 0
  deriving Inhabited

namespace Trail

def varCount (t : Trail) : Nat := t.values.size

def addVar (t : Trail) : Trail :=
  { t with
    values := t.values.push .undef
    levels := t.levels.push 0
    reasons := t.reasons.push none }

def valueVar (t : Trail) (v : Var) : Truth := t.values.getD v.id .undef

def value (t : Trail) (l : Lit) : Truth :=
  if l.phase then t.valueVar l.var else (t.valueVar l.var).negate

def level (t : Trail) (v : Var) : Nat := t.levels.getD v.id 0

def reason (t : Trail) (v : Var) : Option ClauseRef := t.reasons.getD v.id none

def depth (t : Trail) : Nat := t.starts.size

def openLevel (t : Trail) : Trail := { t with starts := t.starts.push t.lits.size }

def assign (t : Trail) (l : Lit) (reason : Option ClauseRef) : Except Fault Trail :=
  if t.valueVar l.var = .undef then
    .ok { t with
      values := t.values.setIfInBounds l.var.id (.ofBool l.phase)
      levels := t.levels.setIfInBounds l.var.id t.starts.size
      reasons := t.reasons.setIfInBounds l.var.id reason
      lits := t.lits.push l }
  else .error .assertion

def retract (t : Trail) (l : Lit) : Trail :=
  { t with
    values := t.values.setIfInBounds l.var.id .undef
    reasons := t.reasons.setIfInBounds l.var.id none
    lits := t.lits.pop }

def clearReason (t : Trail) (v : Var) : Trail :=
  { t with reasons := t.reasons.setIfInBounds v.id none }

end Trail

end ModelCounting
