import ModelCounting.Literal

/-!
Formula handles and the nodes they stand for. A node names its operands by handle, so a shared
subformula is one node however often it occurs.
-/

namespace ModelCounting

/-- The place of a node in its store. -/
structure Formula where
  id : Nat
  deriving DecidableEq, Inhabited, Repr

namespace Formula

instance : Ord Formula := ⟨compareOn Formula.id⟩

instance : Std.TransOrd Formula := inferInstanceAs (Std.TransCmp (compareOn Formula.id))

instance : Std.LawfulEqOrd Formula where
  eq_of_compare same := congrArg Formula.mk (Nat.compare_eq_eq.mp same)

def falsum : Formula := ⟨0⟩

def verum : Formula := ⟨1⟩

def constant (value : Bool) : Formula := if value then verum else falsum

def isConstant (f : Formula) : Bool := f == falsum || f == verum

/-- The text of the handle itself, not of the formula it stands for. -/
def handle (f : Formula) : String := "@" ++ toString f.id

def text (f : Formula) : String := "Formula(" ++ toString f.id ++ ")"

end Formula

inductive Node where
  | falsum
  | verum
  | lit (l : Lit)
  | not (f : Formula)
  | and (fs : List Formula)
  | or (fs : List Formula)
  | implies (f g : Formula)
  | equiv (f g : Formula)
  deriving DecidableEq, Inhabited, Repr

namespace Node

/-- A node as a row of numbers, its kind first. -/
def row : Node → List Nat
  | .falsum => [0]
  | .verum => [1]
  | .lit l => [2, l.code]
  | .not f => [3, f.id]
  | .and fs => 4 :: fs.map Formula.id
  | .or fs => 5 :: fs.map Formula.id
  | .implies f g => [6, f.id, g.id]
  | .equiv f g => [7, f.id, g.id]

theorem row_inj {m n : Node} : m.row = n.row → m = n := by
  have handle (f g : Formula) : f.id = g.id → f = g := congrArg Formula.mk
  have handles (fs gs : List Formula) : fs.map Formula.id = gs.map Formula.id → fs = gs :=
    (List.map_inj_right handle).mp
  cases m <;> cases n <;> simp [row]
  case lit.lit => exact congrArg Lit.mk
  case not.not => exact handle _ _
  case and.and => exact handles _ _
  case or.or => exact handles _ _
  case implies.implies => exact fun first second => ⟨handle _ _ first, handle _ _ second⟩
  case equiv.equiv => exact fun first second => ⟨handle _ _ first, handle _ _ second⟩

instance : Ord Node := ⟨compareOn row⟩

instance : Std.TransOrd Node := inferInstanceAs (Std.TransCmp (compareOn row))

instance : Std.LawfulEqOrd Node where
  compare_self {n} := Std.ReflOrd.compare_self (a := n.row)
  eq_of_compare same := row_inj (Std.compare_eq_iff_eq.mp same)

def children : Node → List Formula
  | .falsum | .verum | .lit _ => []
  | .not f => [f]
  | .and fs | .or fs => fs
  | .implies f g | .equiv f g => [f, g]

def asLit? : Node → Option Lit
  | .lit l => some l
  | _ => none

def isAtomic : Node → Bool
  | .falsum | .verum | .lit _ => true
  | _ => false

/-- Binding strength: an operand that binds more loosely than its node is written in brackets. -/
def strength : Node → Nat
  | .equiv .. => 0
  | .implies .. => 1
  | .or _ => 2
  | .and _ => 3
  | _ => 4

def kind : Node → String
  | .falsum => "False"
  | .verum => "True"
  | .lit _ => "Lit"
  | .not _ => "Not"
  | .and _ => "And"
  | .or _ => "Or"
  | .implies .. => "Implies"
  | .equiv .. => "Equiv"

/-- The node with its operands written as handles, for messages about a node out of place. -/
def text (n : Node) : String :=
  match n with
  | .falsum | .verum => n.kind
  | .lit l => "Lit(" ++ l.text ++ ")"
  | .and fs | .or fs => n.kind ++ "([" ++ ", ".intercalate (fs.map Formula.text) ++ "])"
  | .not f => "Not(" ++ f.text ++ ")"
  | .implies f g | .equiv f g => n.kind ++ "(" ++ f.text ++ ", " ++ g.text ++ ")"

end Node

end ModelCounting
