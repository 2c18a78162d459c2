import ModelCounting.Fault

/-!
The restart sequence 1, 1, 2, 1, 1, 2, 4, … of powers of a base. Place `x` of the sequence is the
end of a complete block, or lies in a copy of a shorter block; all numbers are 64-bit words.
-/

namespace ModelCounting.Luby

def wordLimit : Nat := 0x10000000000000000

/-- The size and exponent of the shortest complete block that reaches beyond place `x`. -/
def grow (x size exponent : Nat) : Except Fault (Nat × Nat) :=
  if size < x + 1 then
    if 2 * size + 1 < wordLimit then grow x (2 * size + 1) (exponent + 1) else .error .overflow
  else .ok (size, exponent)
termination_by x + 1 - size

/-- Descends into half blocks until place `x` ends one. -/
def shrink (x size exponent : Nat) : Except Fault Nat :=
  if size = 0 then .error .overflow
  else if size - 1 = x then .ok exponent
  else
    let half := (size - 1) / 2
    if half = 0 ∨ exponent = 0 then .error .overflow
    else shrink (x % half) half (exponent - 1)
termination_by size

/-- The exponent at place `x` of the sequence. -/
def exponent (x : Nat) : Except Fault Nat :=
  if x + 1 < wordLimit then do
    let (size, exponent) ← grow x 1 0
    shrink x size exponent
  else .error .overflow

def powerFrom (result base : Float) (n : Nat) : Float :=
  let result := if n % 2 = 1 then result * base else result
  if n / 2 = 0 then result else powerFrom result (base * base) (n / 2)
termination_by n

def power (base : Float) (n : Nat) : Float := powerFrom 1 base n

/-- The number of conflicts allowed before restart number `x`, capped to a word. -/
def limit (base : Float) (first x : Nat) : Except Fault Nat := do
  return (power base (← exponent x) * first.toUInt64.toFloat).toUInt64.toNat

end ModelCounting.Luby
