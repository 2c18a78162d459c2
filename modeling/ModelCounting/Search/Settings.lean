import ModelCounting.Fault

/-!
Settings of the search. A setter refuses a value outside its range, and a value that is not a
number is outside every range.
-/

namespace ModelCounting

structure Settings where
  /-- Share of a variable's activity that is left after a conflict. -/
  varDecay : Float := 0.95
  /-- Share of a clause's activity that is left after a conflict. -/
  clauseDecay : Float := 0.999
  /-- Conflicts before the first restart. -/
  restartFirst : Nat := 100
  /-- Base of the restart sequence. -/
  restartGrowth : Float := 2.0
  /-- First limit on learnt clauses, as a share of the added ones. -/
  learntShare : Float := 1.0 / 3.0
  /-- Growth of that limit at each restart. -/
  learntGrowth : Float := 1.1
  /-- Whether literals that the others imply are dropped from learnt clauses. -/
  minimize : Bool := true
  deriving Inhabited, BEq

namespace Settings

def withVarDecay (s : Settings) (x : Float) : Except Fault Settings :=
  if 0 < x ∧ x < 1 then .ok { s with varDecay := x } else .error .varDecay

def withClauseDecay (s : Settings) (x : Float) : Except Fault Settings :=
  if 0 < x ∧ x < 1 then .ok { s with clauseDecay := x } else .error .clauseDecay

def withRestartFirst (s : Settings) (n : Nat) : Except Fault Settings :=
  if 0 < n then .ok { s with restartFirst := n } else .error .firstRestart

def withRestartGrowth (s : Settings) (x : Float) : Except Fault Settings :=
  if 1 < x then .ok { s with restartGrowth := x } else .error .restartGrowth

def withLearntShare (s : Settings) (x : Float) : Settings := { s with learntShare := x }

def withLearntGrowth (s : Settings) (x : Float) : Settings := { s with learntGrowth := x }

def withMinimize (s : Settings) (b : Bool) : Settings := { s with minimize := b }

end Settings

end ModelCounting
