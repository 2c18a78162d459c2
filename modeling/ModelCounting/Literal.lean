/-!
Variables, literals and three-valued truth. A literal is coded as twice its variable, plus one
when it is negated, so complements are neighbours and codes order literals by variable.
-/

namespace ModelCounting

structure Var where
  id : Nat
  deriving DecidableEq, Inhabited, Repr

structure Lit where
  code : Nat
  deriving DecidableEq, Inhabited, Repr

namespace Var

instance : Ord Var := ⟨compareOn Var.id⟩

instance : Std.TransOrd Var := inferInstanceAs (Std.TransCmp (compareOn Var.id))

instance : Std.LawfulEqOrd Var where
  eq_of_compare same := congrArg Var.mk (Nat.compare_eq_eq.mp same)

/-- The part of a variable that a literal word can hold: its low 31 bits. -/
def truncated (v : Var) : Var := ⟨v.id % 0x80000000⟩

def text (v : Var) : String := "x" ++ toString v.id

end Var

namespace Lit

/-- The literal of a variable that is true when the variable has the given phase. -/
def of (v : Var) (phase : Bool) : Lit := ⟨2 * v.id + if phase then 0 else 1⟩

/-- The literal as a 32-bit word holds it: the top bit of the variable is lost. -/
def packed (v : Var) (phase : Bool) : Lit := of v.truncated phase

def var (l : Lit) : Var := ⟨l.code / 2⟩

def negated (l : Lit) : Bool := l.code % 2 == 1

def phase (l : Lit) : Bool := l.code % 2 == 0

def negate (l : Lit) : Lit := ⟨if l.code % 2 = 0 then l.code + 1 else l.code - 1⟩

instance : Neg Lit := ⟨negate⟩

def text (l : Lit) : String := if l.negated then "~" ++ l.var.text else l.var.text

def compare (l m : Lit) : Ordering := Ord.compare l.code m.code

instance : Ord Lit := ⟨compare⟩

instance : Std.TransOrd Lit := inferInstanceAs (Std.TransCmp (compareOn Lit.code))

instance : Std.LawfulEqOrd Lit where
  eq_of_compare same := congrArg Lit.mk (Nat.compare_eq_eq.mp same)

@[simp] theorem var_of (v : Var) (phase : Bool) : (of v phase).var = v := by
  cases v
  cases phase <;> simp only [of, var, Var.mk.injEq, if_true, Bool.false_eq_true, if_false] <;> omega

@[simp] theorem phase_of (v : Var) (phase : Bool) : (of v phase).phase = phase := by
  cases phase <;> simp [of, Lit.phase]

@[simp] theorem negated_eq (l : Lit) : l.negated = !l.phase := by
  have := Nat.mod_two_eq_zero_or_one l.code
  rcases this with h | h <;> simp [negated, phase, h]

@[simp] theorem var_neg (l : Lit) : (-l).var = l.var := by
  show (negate l).var = l.var
  simp only [negate, var, Var.mk.injEq]
  split <;> omega

@[simp] theorem phase_neg (l : Lit) : (-l).phase = !l.phase := by
  show (negate l).phase = _
  have := Nat.mod_two_eq_zero_or_one l.code
  rcases this with h | h
  · have : (l.code + 1) % 2 = 1 := by omega
    simp [negate, phase, h, this]
  · have : (l.code - 1) % 2 = 0 := by omega
    simp [negate, phase, h, this]

@[simp] theorem of_var_phase (l : Lit) : of l.var l.phase = l := by
  cases l with
  | mk code =>
    have := Nat.mod_two_eq_zero_or_one code
    rcases this with h | h <;> simp [of, var, phase, h] <;> omega

theorem ext_var_phase {l m : Lit} (sameVar : l.var = m.var) (samePhase : l.phase = m.phase) :
    l = m := by
  rw [← of_var_phase l, ← of_var_phase m, sameVar, samePhase]

@[simp] theorem neg_neg (l : Lit) : - -l = l :=
  ext_var_phase (by simp) (by simp)

end Lit

inductive Truth where
  | fls
  | tru
  | undef
  deriving DecidableEq, Inhabited, Repr

namespace Truth

def ofBool (b : Bool) : Truth := if b then .tru else .fls

def negate : Truth → Truth
  | .fls => .tru
  | .tru => .fls
  | .undef => .undef

def text : Truth → String
  | .fls => "FALSE"
  | .tru => "TRUE"
  | .undef => "UNDEF"

def name : Truth → String
  | .fls => "False"
  | .tru => "True"
  | .undef => "Undef"

end Truth

end ModelCounting
