import Std.Data.TreeMap
import Std.Data.TreeSet
import ModelCounting.Fault

/-!
The store of shared formulas. Equal nodes get equal handles, a node only refers to nodes before it,
and the first two handles are the constants. The constructors simplify as they build: constants
and double negations fold, and a conjunction or disjunction is flattened, freed of repetitions,
and collapsed when it holds a literal with its complement.
-/

namespace ModelCounting

/-- The union of two ascending lists of variables, ascending. -/
def mergeVars : List Var → List Var → List Var
  | [], ws => ws
  | v :: vs, [] => v :: vs
  | v :: vs, w :: ws =>
    if v.id < w.id then v :: mergeVars vs (w :: ws)
    else if w.id < v.id then w :: mergeVars (v :: vs) ws
    else v :: mergeVars vs ws
termination_by vs ws => vs.length + ws.length

/-- A node with the variables below it, ascending. -/
structure Entry where
  node : Node
  vars : List Var
  deriving Inhabited

structure Store where
  entries : Array Entry
  handles : Std.TreeMap Node Formula
  names : Array String
  index : Std.TreeMap String Var
  acyclic : ∀ i (h : i < entries.size), ∀ c ∈ entries[i].node.children, c.id < i

inductive Connective where
  | conj
  | disj
  deriving DecidableEq

namespace Connective

/-- The constant that a junction can drop. -/
def neutral : Connective → Formula
  | .conj => .verum
  | .disj => .falsum

/-- The constant that decides a junction by itself. -/
def absorbing : Connective → Formula
  | .conj => .falsum
  | .disj => .verum

def node : Connective → List Formula → Node
  | .conj => .and
  | .disj => .or

end Connective

namespace Store

/-- The store that holds the two constants and no variable. -/
def initial : Store where
  entries := #[⟨.falsum, []⟩, ⟨.verum, []⟩]
  handles := (∅ : Std.TreeMap Node Formula).insert .falsum .falsum |>.insert .verum .verum
  names := #[]
  index := ∅
  acyclic := by
    intro i h c hc
    match i, h with
    | 0, _ => simp [Node.children] at hc
    | 1, _ => simp [Node.children] at hc

instance : Inhabited Store := ⟨initial⟩

def size (s : Store) : Nat := s.entries.size

def text (s : Store) : String :=
  "FormulaFactory \x7b nodes: " ++ toString s.size ++ ", variables: " ++ toString s.names.size ++
    " \x7d"

def entry (s : Store) (f : Formula) : Entry := s.entries.getD f.id ⟨.falsum, []⟩

def node (s : Store) (f : Formula) : Node := (s.entry f).node

def vars (s : Store) (f : Formula) : List Var := (s.entry f).vars

theorem child_lt (s : Store) {f c : Formula} (child : c ∈ (s.node f).children) : c.id < f.id := by
  unfold node entry at child
  rw [Array.getD_eq_getD_getElem?] at child
  by_cases present : f.id < s.entries.size
  · simp only [present, getElem?_pos, Option.getD_some] at child
    exact s.acyclic f.id present c child
  · simp [present, Node.children] at child

def varsOf (s : Store) : Node → List Var
  | .lit l => [l.var]
  | n => n.children.foldl (fun vs c => mergeVars vs (s.vars c)) []

/-- The handle of a node, new if no equal node is there. -/
def intern (s : Store) (n : Node) : Formula × Store :=
  match s.handles[n]? with
  | some f => (f, s)
  | none =>
    if closed : ∀ c ∈ n.children, c.id < s.entries.size then
      let f : Formula := ⟨s.entries.size⟩
      let vs := s.varsOf n
      (f, { s with
        entries := s.entries.push ⟨n, vs⟩
        handles := s.handles.insert n f
        acyclic := by
          intro i h c hc
          rw [Array.getElem_push] at hc
          split at hc
          · exact s.acyclic i _ c hc
          · have := closed c hc
            simp only [Array.size_push] at h
            omega })
    else (.falsum, s)

/-! Variables and their names. -/

def declare (s : Store) (name : String) : Var × Store :=
  match s.index[name]? with
  | some v => (v, s)
  | none =>
    let v : Var := ⟨s.names.size⟩
    (v, { s with names := s.names.push name, index := s.index.insert name v })

def lookup? (s : Store) (name : String) : Option Var := s.index[name]?

def name (s : Store) (v : Var) : Except Fault String :=
  match s.names[v.id]? with
  | some name => .ok name
  | none => .error .indexOutOfRange

/-! Constructors. -/

def lit (s : Store) (l : Lit) : Formula × Store := s.intern (.lit l)

def literal (s : Store) (v : Var) (phase : Bool) : Formula × Store := s.lit (.packed v phase)

def var (s : Store) (name : String) : Formula × Store :=
  let (v, s) := s.declare name
  s.lit (.of v true)

def neg (s : Store) (f : Formula) : Formula × Store :=
  match s.node f with
  | .falsum => (.verum, s)
  | .verum => (.falsum, s)
  | .lit l => s.lit (-l)
  | .not g => (g, s)
  | _ => s.intern (.not f)

/-- What an operand adds to a junction: nothing if neutral, its own operands if it is a junction
of the same kind, itself otherwise. -/
def flatten (s : Store) (c : Connective) (f : Formula) : List Formula :=
  if f = c.neutral then []
  else match c, s.node f with
    | .conj, .and fs => fs
    | .disj, .or fs => fs
    | _, _ => [f]

def firstOccurrences (seen : Std.TreeSet Formula) : List Formula → List Formula
  | [] => []
  | f :: fs =>
    if seen.contains f then firstOccurrences seen fs
    else f :: firstOccurrences (seen.insert f) fs

/-- Whether some literal stands beside its complement. -/
def clashing (s : Store) (fs : List Formula) : Bool :=
  let ls := fs.filterMap fun f => (s.node f).asLit?
  let known := Std.TreeSet.ofList ls
  ls.any fun l => known.contains (-l)

def junction (s : Store) (c : Connective) (fs : List Formula) : Formula × Store :=
  if fs.contains c.absorbing then (c.absorbing, s)
  else
    let operands := firstOccurrences ∅ (fs.flatMap (s.flatten c))
    if s.clashing operands then (c.absorbing, s)
    else match operands with
      | [] => (c.neutral, s)
      | [f] => (f, s)
      | _ => s.intern (c.node operands)

def conj (s : Store) (fs : List Formula) : Formula × Store := s.junction .conj fs

def disj (s : Store) (fs : List Formula) : Formula × Store := s.junction .disj fs

def implies (s : Store) (f g : Formula) : Formula × Store :=
  if f = .falsum ∨ g = .verum ∨ f = g then (.verum, s)
  else if f = .verum then (g, s)
  else if g = .falsum then s.neg f
  else s.intern (.implies f g)

def equiv (s : Store) (f g : Formula) : Formula × Store :=
  if f = g then (.verum, s)
  else if f = .verum then (g, s)
  else if g = .verum then (f, s)
  else if f = .falsum then s.neg g
  else if g = .falsum then s.neg f
  else match s.node f, s.node g with
    | .lit l, .lit m => if l = -m then (.falsum, s) else s.intern (.equiv f g)
    | _, _ => s.intern (.equiv f g)

def literals (s : Store) : List Lit → List Formula × Store
  | [] => ([], s)
  | l :: ls =>
    let (f, s) := s.lit l
    let (fs, s) := s.literals ls
    (f :: fs, s)

def clause (s : Store) (ls : List Lit) : Formula × Store :=
  let (fs, s) := s.literals ls
  s.disj fs

def cube (s : Store) (ls : List Lit) : Formula × Store :=
  let (fs, s) := s.literals ls
  s.conj fs

/-! Traversal. -/

/-- Evaluates a formula bottom-up by a rule for one node, given the results of its operands. -/
def fold {α : Type} [Inhabited α] (s : Store) (rule : (Formula → α) → Node → α) (f : Formula) : α :=
  rule (fun g => if _ : g.id < f.id then s.fold rule g else default) (s.node f)
termination_by f.id

/-- Adds to a set of formulas all those reachable from a formula. -/
def reach (s : Store) (f : Formula) (seen : Std.TreeSet Formula) : Std.TreeSet Formula :=
  if seen.contains f then seen
  else (s.node f).children.attach.foldl (fun seen ⟨g, _⟩ => s.reach g seen) (seen.insert f)
termination_by f.id
decreasing_by exact s.child_lt (by assumption)

def nodeCount (s : Store) (f : Formula) : Nat := (s.reach f ∅).size

end Store

end ModelCounting
