import Std.Data.TreeSet
import ModelCounting.Formula.Query

/-!
The interaction graph of a conjunction of clauses: its vertices are the variables in ascending
order, and two of them are joined when some clause has both. Min-fill elimination takes out, again
and again, the vertex whose remaining neighbours lack the fewest edges among each other.
-/

namespace ModelCounting

abbrev Adjacency := Array (Std.TreeSet Nat)

structure InteractionGraph where
  vertices : List Var
  /-- The neighbours of each vertex, by position. -/
  neighbours : Adjacency
  deriving Inhabited

/-- An elimination order with the largest number of neighbours that a vertex had when taken out. -/
structure Elimination where
  order : List Var
  width : Nat
  deriving DecidableEq, Repr

namespace InteractionGraph

def addEdge (neighbours : Adjacency) (x y : Nat) : Adjacency :=
  if x = y then neighbours
  else (neighbours.modify x (·.insert y)).modify y (·.insert x)

def addClique : List Nat → Adjacency → Adjacency
  | [], neighbours => neighbours
  | x :: xs, neighbours =>
    addClique xs (xs.foldl (fun neighbours y => addEdge neighbours x y) neighbours)

def vertex? (g : InteractionGraph) (v : Var) : Option Nat := g.vertices.idxOf? v

def ofCnf (s : Store) (f : Formula) : Except Fault InteractionGraph := do
  let vertices := s.vars f
  let clauses ← s.clauses f
  let neighbours := clauses.foldl (fun neighbours c =>
    addClique (c.filterMap fun l => vertices.idxOf? l.var) neighbours)
    (Array.replicate vertices.length ∅)
  return { vertices, neighbours }

def edgeCount (g : InteractionGraph) : Nat :=
  g.neighbours.foldl (fun n s => n + s.size) 0 / 2

/-- The neighbours of a variable in ascending order; none if it is no vertex. -/
def neighboursOf (g : InteractionGraph) (v : Var) : List Var :=
  match g.vertex? v with
  | some i => (g.neighbours.getD i ∅).toList.map fun j => g.vertices.getD j default
  | none => []

def live (neighbours : Adjacency) (gone : Std.TreeSet Nat) (v : Nat) : List Nat :=
  (neighbours.getD v ∅).toList.filter fun u => !gone.contains u

def missingEdges (neighbours : Adjacency) : List Nat → Nat
  | [] => 0
  | x :: xs =>
    (xs.filter fun y => !(neighbours.getD x ∅).contains y).length + missingEdges neighbours xs

/-- The first vertex of a list with the least number of missing edges. -/
def leastFill (neighbours : Adjacency) (gone : Std.TreeSet Nat) :
    List Nat → Option (Nat × Nat) → Option (Nat × Nat)
  | [], best => best
  | v :: vs, best =>
    let fill := missingEdges neighbours (live neighbours gone v)
    match best with
    | none => leastFill neighbours gone vs (some (v, fill))
    | some (w, least) =>
      leastFill neighbours gone vs (if fill < least then some (v, fill) else some (w, least))

/-- Takes out up to `n` vertices, joining the remaining neighbours of each. -/
def eliminate (vertices : List Var) : Nat → Adjacency → Std.TreeSet Nat → Elimination
  | 0, _, _ => ⟨[], 0⟩
  | n + 1, neighbours, gone =>
    let remaining := (List.range vertices.length).filter fun v => !gone.contains v
    match leastFill neighbours gone remaining none with
    | none => ⟨[], 0⟩
    | some (v, _) =>
      let around := live neighbours gone v
      let rest := eliminate vertices n (addClique around neighbours) (gone.insert v)
      ⟨vertices.getD v default :: rest.order, max around.length rest.width⟩

def minFill (g : InteractionGraph) : Elimination :=
  eliminate g.vertices g.vertices.length g.neighbours ∅

end InteractionGraph

end ModelCounting
