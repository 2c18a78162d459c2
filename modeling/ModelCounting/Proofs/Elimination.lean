import Mathlib.Combinatorics.SimpleGraph.Basic
import Mathlib.Data.List.Sym
import Mathlib.Data.Set.Card
import ModelCounting.Proofs.Construction
import ModelCounting.Proofs.Placement

/-!
Min-fill elimination plays the elimination game on the interaction graph of a conjunction. The game
deletes a vertex and joins its neighbours with each other, round after round. The computation deletes
nothing: it passes over the vertices taken out in neighbourhoods that only grow. Between the vertices
that are left, these draw the graph of the game in every round.
-/

namespace ModelCounting

namespace InteractionGraph

/-! The game. -/

/-- Two variables are joined when a clause has both. -/
def primal (cs : List (List Lit)) : SimpleGraph Var where
  Adj v w := v ≠ w ∧ ∃ c ∈ cs, (∃ l ∈ c, l.var = v) ∧ ∃ l ∈ c, l.var = w
  symm := ⟨fun _ _ ⟨apart, c, member, first, second⟩ => ⟨apart.symm, c, member, second, first⟩⟩
  loopless := ⟨fun _ h => h.1 rfl⟩

/-- Deletes a vertex and joins its neighbours with each other. -/
def takeOut (G : SimpleGraph Var) (v : Var) : SimpleGraph Var where
  Adj x y := x ≠ y ∧ x ≠ v ∧ y ≠ v ∧ (G.Adj x y ∨ G.Adj v x ∧ G.Adj v y)
  symm := ⟨fun _ _ ⟨apart, first, second, joined⟩ =>
    ⟨apart.symm, second, first, joined.imp (·.symm) And.symm⟩⟩
  loopless := ⟨fun _ h => h.1 rfl⟩

/-- The number of edges that taking out a vertex adds. -/
noncomputable def fillIn (G : SimpleGraph Var) (v : Var) : Nat :=
  ((takeOut G v).edgeSet \ G.edgeSet).ncard

/-- The number of neighbours. -/
noncomputable def degree (G : SimpleGraph Var) (v : Var) : Nat := (G.neighborSet v).ncard

/-- The game on a graph: the vertices are taken out in an order in which each is the least of those
with the least fill-in left, and the width is the largest degree at which one is taken out. -/
structure MinFill (G : SimpleGraph Var) (vertices : List Var) (e : Elimination) : Prop where
  perm : e.order.Perm vertices
  least : ∀ before v after, e.order = before ++ v :: after → ∀ w ∈ after,
    fillIn (before.foldl takeOut G) v < fillIn (before.foldl takeOut G) w ∨
      fillIn (before.foldl takeOut G) v = fillIn (before.foldl takeOut G) w ∧ v.id < w.id
  degree_le : ∀ before v after, e.order = before ++ v :: after →
    degree (before.foldl takeOut G) v ≤ e.width
  attained : e.width = 0 ∨ ∃ before v after, e.order = before ++ v :: after ∧
    degree (before.foldl takeOut G) v = e.width

theorem MinFill.done (G : SimpleGraph Var) : MinFill G [] ⟨[], 0⟩ where
  perm := .nil
  least before v after split := by
    cases before <;> cases split
  degree_le before v after split := by
    cases before <;> cases split
  attained := .inl rfl

/-- One round of the game, and the game on what is left. -/
theorem MinFill.round {G : SimpleGraph Var} {v : Var} {vertices rest : List Var} {e : Elimination}
    (choice : vertices.Perm (v :: rest))
    (least : ∀ w ∈ rest, fillIn G v < fillIn G w ∨ fillIn G v = fillIn G w ∧ v.id < w.id)
    (game : MinFill (takeOut G v) rest e) :
    MinFill G vertices ⟨v :: e.order, max (degree G v) e.width⟩ := by
  constructor
  case perm => exact (game.perm.cons v).trans choice.symm
  case least =>
    intro before u after split
    cases before with
    | nil =>
      cases split
      exact fun w member => least w (game.perm.mem_iff.mp member)
    | cons b before =>
      obtain ⟨rfl, below⟩ := List.cons.inj split
      exact game.least before u after below
  case degree_le =>
    intro before u after split
    cases before with
    | nil =>
      cases split
      exact Nat.le_max_left _ _
    | cons b before =>
      obtain ⟨rfl, below⟩ := List.cons.inj split
      exact (game.degree_le before u after below).trans (Nat.le_max_right _ _)
  case attained =>
    rcases Nat.le_total (degree G v) e.width with less | more
    · rw [Nat.max_eq_right less]
      apply game.attained.imp id
      rintro ⟨before, u, after, split, attained⟩
      exact ⟨v :: before, u, after, congrArg (v :: ·) split, attained⟩
    · exact .inr ⟨[], v, e.order, rfl, (Nat.max_eq_left more).symm⟩

/-! Fill-in. -/

section FillIn

variable {G : SimpleGraph Var} {x y v : Var} {xs : List Var}

open Classical in
noncomputable def lacking (G : SimpleGraph Var) (xs : List Var) : List (Sym2 Var) :=
  xs.sym2.filter fun e => ¬e.IsDiag ∧ e ∉ G.edgeSet

theorem mem_lacking : s(x, y) ∈ lacking G xs ↔ x ∈ xs ∧ y ∈ xs ∧ x ≠ y ∧ ¬G.Adj x y := by
  simp [lacking, List.mk_mem_sym2_iff, and_assoc]

open Classical in
theorem lacking_cons (distinct : (x :: xs).Nodup) : (lacking G (x :: xs)).length =
    (xs.filter fun y => ¬G.Adj x y).length + (lacking G xs).length := by
  have fresh : ∀ y ∈ xs, x ≠ y := fun y member same => (List.nodup_cons.mp distinct).1 (same ▸ member)
  unfold lacking
  rw [List.sym2, List.filter_append, List.length_append, List.map_cons, List.filter_cons_of_neg,
    List.filter_map, List.length_map]
  · congr 2
    apply List.filter_congr
    intro y member
    simp [fresh y member]
  · simp

theorem fillIn_eq (distinct : xs.Nodup) (around : ∀ w, w ∈ xs ↔ G.Adj v w) :
    fillIn G v = (lacking G xs).length := by
  classical
  have same : (takeOut G v).edgeSet \ G.edgeSet = (lacking G xs).toFinset := by
    ext e
    induction e with | _ x y
    rw [List.coe_toFinset, Set.mem_ofPred, mem_lacking, around, around, Set.mem_sdiff,
      SimpleGraph.mem_edgeSet, SimpleGraph.mem_edgeSet]
    constructor
    · rintro ⟨⟨apart, _, _, joined⟩, missing⟩
      obtain ⟨first, second⟩ := joined.resolve_left missing
      exact ⟨first, second, apart, missing⟩
    · rintro ⟨first, second, apart, missing⟩
      exact ⟨⟨apart, first.ne', second.ne', .inr ⟨first, second⟩⟩, missing⟩
  rw [fillIn, same, Set.ncard_coe_finset, List.toFinset_card_of_nodup]
  exact distinct.sym2.filter _

theorem degree_eq (distinct : xs.Nodup) (around : ∀ w, w ∈ xs ↔ G.Adj v w) :
    degree G v = xs.length := by
  have same : G.neighborSet v = xs.toFinset := by
    ext w
    rw [SimpleGraph.mem_neighborSet, List.coe_toFinset, Set.mem_ofPred, around]
  rw [degree, same, Set.ncard_coe_finset, List.toFinset_card_of_nodup distinct]

end FillIn

/-! Neighbourhoods. -/

section Neighbours

variable {neighbours : Adjacency} {x y i j : Nat} {xs : List Nat}

def Beside (neighbours : Adjacency) (i j : Nat) : Prop := j ∈ neighbours.getD i ∅

theorem contains_iff : (neighbours.getD i ∅).contains j = true ↔ Beside neighbours i j :=
  Std.TreeSet.mem_iff_contains.symm

theorem beside_insert (inside : x < neighbours.size) :
    Beside (neighbours.modify x (·.insert y)) i j ↔ i = x ∧ j = y ∨ Beside neighbours i j := by
  unfold Beside
  rw [Array.getD_eq_getD_getElem?, Array.getD_eq_getD_getElem?, Array.getElem?_modify]
  by_cases here : x = i
  · subst here
    rw [if_pos rfl, Array.getElem?_eq_getElem inside, Option.map_some, Option.getD_some,
      Option.getD_some, Std.TreeSet.mem_insert, Std.LawfulEqCmp.compare_eq_iff_eq]
    simp [eq_comm]
  · rw [if_neg here]
    simp [Ne.symm here]

theorem size_addEdge (neighbours : Adjacency) (x y : Nat) :
    (addEdge neighbours x y).size = neighbours.size := by
  unfold addEdge
  split
  · rfl
  · rw [Array.size_modify, Array.size_modify]

theorem beside_addEdge (first : x < neighbours.size) (second : y < neighbours.size) :
    Beside (addEdge neighbours x y) i j ↔
      i ≠ j ∧ (i = x ∧ j = y ∨ i = y ∧ j = x) ∨ Beside neighbours i j := by
  unfold addEdge
  split
  · rename_i same
    subst same
    constructor
    · exact .inr
    · rintro (⟨apart, ⟨rfl, rfl⟩ | ⟨rfl, rfl⟩⟩ | old)
      · exact absurd rfl apart
      · exact absurd rfl apart
      · exact old
  · rename_i apart
    rw [beside_insert (by rwa [Array.size_modify]), beside_insert first]
    grind

theorem beside_addEdges (first : x < neighbours.size) (inside : ∀ y ∈ xs, y < neighbours.size) :
    (xs.foldl (fun neighbours y => addEdge neighbours x y) neighbours).size = neighbours.size ∧
      ∀ i j, Beside (xs.foldl (fun neighbours y => addEdge neighbours x y) neighbours) i j ↔
        i ≠ j ∧ (i = x ∧ j ∈ xs ∨ i ∈ xs ∧ j = x) ∨ Beside neighbours i j := by
  induction xs generalizing neighbours with
  | nil => simp
  | cons y xs ih =>
    rw [List.forall_mem_cons] at inside
    have size := size_addEdge neighbours x y
    have first' : x < (addEdge neighbours x y).size := size ▸ first
    obtain ⟨size', joined⟩ := ih first' fun z member => size ▸ inside.2 z member
    refine ⟨size'.trans size, fun i j => ?_⟩
    rw [List.foldl_cons, joined, beside_addEdge first inside.1]
    simp only [List.mem_cons]
    grind

theorem beside_addClique (inside : ∀ x ∈ xs, x < neighbours.size) :
    (addClique xs neighbours).size = neighbours.size ∧
      ∀ i j, Beside (addClique xs neighbours) i j ↔
        i ≠ j ∧ i ∈ xs ∧ j ∈ xs ∨ Beside neighbours i j := by
  induction xs generalizing neighbours with
  | nil => simp [addClique]
  | cons x xs ih =>
    rw [List.forall_mem_cons] at inside
    obtain ⟨size, joined⟩ := beside_addEdges inside.1 inside.2
    obtain ⟨size', joined'⟩ := ih fun y member => size ▸ inside.2 y member
    refine ⟨size'.trans size, fun i j => ?_⟩
    rw [addClique, joined', joined]
    simp only [List.mem_cons]
    grind

end Neighbours

/-! Drawings. -/

section Drawings

variable {vertices : List Var} {neighbours : Adjacency} {gone : Std.TreeSet Nat}
  {G : SimpleGraph Var} {v w : Var} {i j : Nat} {js : List Nat}

def Stands (vertices : List Var) (gone : Std.TreeSet Nat) (i : Nat) (v : Var) : Prop :=
  vertices[i]? = some v ∧ i ∉ gone

theorem Stands.lt_length (stands : Stands vertices gone i v) : i < vertices.length :=
  (List.getElem?_eq_some_iff.mp stands.1).1

theorem Stands.getD_eq (stands : Stands vertices gone i v) : vertices.getD i default = v := by
  rw [List.getD_eq_getElem?_getD, stands.1, Option.getD_some]

theorem Stands.eq_iff (distinct : vertices.Nodup) (first : Stands vertices gone i v)
    (second : Stands vertices gone j w) : i = j ↔ v = w := by
  rw [← List.getElem?_inj first.lt_length distinct, first.1, second.1, Option.some_inj]

theorem Stands.id_lt (ascending : Ascending vertices) (first : Stands vertices gone i v)
    (second : Stands vertices gone j w) (before : i < j) : v.id < w.id := by
  obtain ⟨inside, rfl⟩ := List.getElem?_eq_some_iff.mp first.1
  obtain ⟨inside', rfl⟩ := List.getElem?_eq_some_iff.mp second.1
  exact List.pairwise_iff_getElem.mp ascending i j inside inside' before

theorem stands_insert : Stands vertices (gone.insert i) j w ↔ Stands vertices gone j w ∧ j ≠ i := by
  unfold Stands
  rw [Std.TreeSet.mem_insert, Std.LawfulEqCmp.compare_eq_iff_eq]
  grind

theorem exists_stands (inside : i < vertices.length) (left : i ∉ gone) :
    ∃ v, Stands vertices gone i v := ⟨_, List.getElem?_eq_getElem inside, left⟩

/-- The neighbourhoods draw a graph: its edges join variables that are left, and two of these are
joined when the neighbourhood of one has the other. -/
structure Draws (vertices : List Var) (neighbours : Adjacency) (gone : Std.TreeSet Nat)
    (G : SimpleGraph Var) : Prop where
  size_eq : neighbours.size = vertices.length
  bounded : ∀ i j, Beside neighbours i j → j < vertices.length
  adj_iff : ∀ i j v w, Stands vertices gone i v → Stands vertices gone j w →
    (G.Adj v w ↔ Beside neighbours i j)
  stands : ∀ v w, G.Adj v w → ∃ i, Stands vertices gone i v

theorem mem_live : j ∈ live neighbours gone i ↔ Beside neighbours i j ∧ j ∉ gone := by
  unfold live
  rw [List.mem_filter, Std.TreeSet.mem_toList, Bool.not_eq_true', ← Bool.not_eq_true,
    ← Std.TreeSet.mem_iff_contains]
  rfl

theorem nodup_live : (live neighbours gone i).Nodup := by
  have distinct : (neighbours.getD i ∅).toList.Nodup :=
    Std.TreeSet.distinct_toList.imp fun {_ _} apart same =>
      apart (Std.LawfulEqCmp.compare_eq_iff_eq.mpr same)
  exact distinct.filter _

def standing (vertices : List Var) (js : List Nat) : List Var :=
  js.map fun j => vertices.getD j default

theorem nodup_standing (distinct : vertices.Nodup) (fresh : js.Nodup)
    (each : ∀ j ∈ js, ∃ w, Stands vertices gone j w) : (standing vertices js).Nodup := by
  apply List.Nodup.map_on _ fresh
  intro i hi j hj same
  obtain ⟨v, first⟩ := each i hi
  obtain ⟨w, second⟩ := each j hj
  rw [first.getD_eq, second.getD_eq] at same
  exact (first.eq_iff distinct second).mpr same

namespace Draws

variable (draws : Draws vertices neighbours gone G)

include draws

theorem live_stands (member : j ∈ live neighbours gone i) : ∃ w, Stands vertices gone j w := by
  obtain ⟨beside, left⟩ := mem_live.mp member
  exact exists_stands (draws.bounded i j beside) left

theorem mem_live_iff (first : Stands vertices gone i v) (second : Stands vertices gone j w) :
    j ∈ live neighbours gone i ↔ G.Adj v w := by
  rw [mem_live, draws.adj_iff i j v w first second]
  exact and_iff_left second.2

theorem mem_standing_live (stands : Stands vertices gone i v) (w : Var) :
    w ∈ standing vertices (live neighbours gone i) ↔ G.Adj v w := by
  constructor
  · intro member
    obtain ⟨j, inside, same⟩ := List.mem_map.mp member
    obtain ⟨u, there⟩ := draws.live_stands inside
    obtain rfl := there.getD_eq.symm.trans same
    exact (draws.mem_live_iff stands there).mp inside
  · intro joined
    obtain ⟨j, there⟩ := draws.stands w v joined.symm
    exact List.mem_map.mpr ⟨j, (draws.mem_live_iff stands there).mpr joined, there.getD_eq⟩

theorem length_live (distinct : vertices.Nodup) (stands : Stands vertices gone i v) :
    (live neighbours gone i).length = degree G v := by
  have fresh := nodup_standing distinct nodup_live fun _ => draws.live_stands (i := i)
  rw [degree_eq fresh (draws.mem_standing_live stands)]
  exact (List.length_map _).symm

open Classical in
theorem missingEdges_eq (distinct : vertices.Nodup) (fresh : js.Nodup)
    (each : ∀ j ∈ js, ∃ w, Stands vertices gone j w) :
    missingEdges neighbours js = (lacking G (standing vertices js)).length := by
  induction js with
  | nil => rfl
  | cons j js ih =>
    have nodup := nodup_standing distinct fresh each
    rw [List.forall_mem_cons] at each
    obtain ⟨⟨v, here⟩, others⟩ := each
    have same : (js.filter fun k => !(neighbours.getD j ∅).contains k).length =
        ((standing vertices js).filter fun w => ¬G.Adj (vertices.getD j default) w).length := by
      rw [standing, List.filter_map, List.length_map]
      apply congrArg List.length
      apply List.filter_congr
      intro k member
      obtain ⟨w, there⟩ := others k member
      have agree := (draws.adj_iff j k v w here there).trans contains_iff.symm
      rw [Function.comp_apply, here.getD_eq, there.getD_eq, Bool.eq_iff_iff, Bool.not_eq_true',
        ← Bool.not_eq_true, decide_eq_true_iff, agree]
    rw [missingEdges, same, ih (List.nodup_cons.mp fresh).2 others]
    exact (lacking_cons nodup).symm

/-- Joining the neighbours of a vertex that is taken out draws what is left of the graph. -/
theorem step (distinct : vertices.Nodup) (stands : Stands vertices gone i v) :
    Draws vertices (addClique (live neighbours gone i) neighbours) (gone.insert i) (takeOut G v) := by
  have inside : ∀ j ∈ live neighbours gone i, j < neighbours.size := by
    intro j member
    obtain ⟨w, there⟩ := draws.live_stands member
    rw [draws.size_eq]
    exact there.lt_length
  obtain ⟨size, beside⟩ := beside_addClique inside
  constructor
  case size_eq => exact size.trans draws.size_eq
  case bounded =>
    intro j k joined
    rcases (beside j k).mp joined with ⟨_, _, second⟩ | old
    · exact draws.size_eq ▸ inside k second
    · exact draws.bounded j k old
  case adj_iff =>
    intro j k w u first second
    obtain ⟨first, awayj⟩ := stands_insert.mp first
    obtain ⟨second, awayk⟩ := stands_insert.mp second
    rw [Ne, first.eq_iff distinct stands] at awayj
    rw [Ne, second.eq_iff distinct stands] at awayk
    rw [beside, draws.mem_live_iff stands first, draws.mem_live_iff stands second,
      ← draws.adj_iff j k w u first second, Ne, first.eq_iff distinct second]
    have apart : G.Adj w u → w ≠ u := G.ne_of_adj
    change w ≠ u ∧ w ≠ v ∧ u ≠ v ∧ (G.Adj w u ∨ G.Adj v w ∧ G.Adj v u) ↔ _
    tauto
  case stands =>
    rintro w u ⟨_, apart, _, joined⟩
    have : ∃ j, Stands vertices gone j w := by
      rcases joined with joined | ⟨joined, _⟩
      · exact draws.stands w u joined
      · exact draws.stands w v joined.symm
    obtain ⟨j, there⟩ := this
    have away : j ≠ i := fun same => apart ((there.eq_iff distinct stands).mp same)
    exact ⟨j, stands_insert.mpr ⟨there, away⟩⟩

end Draws

/-! Rounds. -/

/-- The positions that are left. -/
def remaining (vertices : List Var) (gone : Std.TreeSet Nat) : List Nat :=
  (List.range vertices.length).filter fun i => !gone.contains i

theorem mem_remaining : i ∈ remaining vertices gone ↔ ∃ v, Stands vertices gone i v := by
  unfold remaining
  rw [List.mem_filter, List.mem_range, Bool.not_eq_true', ← Bool.not_eq_true,
    ← Std.TreeSet.mem_iff_contains]
  constructor
  · rintro ⟨inside, left⟩
    exact exists_stands inside left
  · rintro ⟨v, stands⟩
    exact ⟨stands.lt_length, stands.2⟩

theorem remaining_ascending : (remaining vertices gone).Pairwise (· < ·) :=
  List.pairwise_lt_range.filter _

theorem nodup_remaining : (remaining vertices gone).Nodup := remaining_ascending.imp Nat.ne_of_lt

theorem remaining_insert (member : i ∈ remaining vertices gone) :
    (remaining vertices gone).Perm (i :: remaining vertices (gone.insert i)) := by
  rw [List.perm_ext_iff_of_nodup nodup_remaining]
  · intro j
    rw [List.mem_cons, mem_remaining, mem_remaining]
    simp only [stands_insert]
    constructor
    · rintro ⟨v, stands⟩
      by_cases same : j = i
      · exact .inl same
      · exact .inr ⟨v, stands, same⟩
    · rintro (rfl | ⟨v, stands, _⟩)
      · exact mem_remaining.mp member
      · exact ⟨v, stands⟩
  · apply List.nodup_cons.mpr ⟨_, nodup_remaining⟩
    rw [mem_remaining]
    rintro ⟨v, stands⟩
    exact (stands_insert.mp stands).2 rfl

def fillAt (neighbours : Adjacency) (gone : Std.TreeSet Nat) (i : Nat) : Nat :=
  missingEdges neighbours (live neighbours gone i)

theorem Draws.fillAt_eq (draws : Draws vertices neighbours gone G) (distinct : vertices.Nodup)
    (stands : Stands vertices gone i v) : fillAt neighbours gone i = fillIn G v := by
  have fresh := nodup_standing distinct nodup_live fun _ => draws.live_stands (i := i)
  rw [fillIn_eq fresh (draws.mem_standing_live stands)]
  exact draws.missingEdges_eq distinct nodup_live fun _ => draws.live_stands

theorem leastFill_cons {fill : Nat} : leastFill neighbours gone (j :: js) (some (i, fill)) =
    leastFill neighbours gone js
      (if fillAt neighbours gone j < fill then some (j, fillAt neighbours gone j) else some (i, fill)) :=
  rfl

/-- The first of those with the least fill-in is found. -/
theorem leastFill_least (neighbours : Adjacency) (gone : Std.TreeSet Nat)
    (ascending : (i :: js).Pairwise (· < ·)) : ∃ k ∈ i :: js,
    leastFill neighbours gone js (some (i, fillAt neighbours gone i)) =
      some (k, fillAt neighbours gone k) ∧
    ∀ j ∈ i :: js, fillAt neighbours gone k < fillAt neighbours gone j ∨
      fillAt neighbours gone k = fillAt neighbours gone j ∧ k ≤ j := by
  -- the best so far stays in front of those to come: it comes before them, so it wins every tie
  induction js generalizing i with
  | nil =>
    refine ⟨i, List.mem_singleton_self i, rfl, fun j member => ?_⟩
    rw [List.mem_singleton.mp member]
    exact .inr ⟨rfl, le_rfl⟩
  | cons j js ih =>
    obtain ⟨before, later⟩ := List.pairwise_cons.mp ascending
    rw [List.forall_mem_cons] at before
    rw [leastFill_cons]
    split
    · rename_i less
      obtain ⟨k, member, found, least⟩ := ih later
      refine ⟨k, List.mem_cons_of_mem i member, found, List.forall_mem_cons.mpr ⟨?_, least⟩⟩
      have := least j List.mem_cons_self
      omega
    · rename_i more
      obtain ⟨k, member, found, least⟩ := ih (List.pairwise_cons.mpr ⟨before.2, later.of_cons⟩)
      rw [List.forall_mem_cons] at least
      refine ⟨k, ?_, found, List.forall_mem_cons.mpr ⟨least.1, List.forall_mem_cons.mpr ⟨?_, least.2⟩⟩⟩
      · exact List.mem_cons.mpr ((List.mem_cons.mp member).imp_right (List.mem_cons_of_mem j))
      · have := before.1
        omega

theorem eliminate_none (n : Nat) (none : remaining vertices gone = []) :
    eliminate vertices n neighbours gone = ⟨[], 0⟩ := by
  cases n with
  | zero => rfl
  | succ n =>
    unfold remaining at none
    rw [eliminate, none]
    rfl

theorem eliminate_some (n : Nat) (left : remaining vertices gone = j :: js) {fill : Nat}
    (found : leastFill neighbours gone js (some (j, fillAt neighbours gone j)) = some (i, fill)) :
    eliminate vertices (n + 1) neighbours gone =
      let rest := eliminate vertices n (addClique (live neighbours gone i) neighbours) (gone.insert i)
      ⟨vertices.getD i default :: rest.order, max (live neighbours gone i).length rest.width⟩ := by
  have found' : leastFill neighbours gone (remaining vertices gone) none = some (i, fill) := by
    rw [left]
    exact found
  unfold remaining at found'
  rw [eliminate, found']

/-- From a drawing, as many rounds as there are variables left play the game to its end. -/
theorem eliminate_minFill {n : Nat} (ascending : Ascending vertices)
    (draws : Draws vertices neighbours gone G) (enough : (remaining vertices gone).length ≤ n) :
    MinFill G (standing vertices (remaining vertices gone)) (eliminate vertices n neighbours gone) := by
  have distinct : vertices.Nodup := ascending.imp fun below same => by simp [same] at below
  induction n generalizing neighbours gone G with
  | zero =>
    have none := List.eq_nil_of_length_eq_zero (Nat.le_zero.mp enough)
    rw [none, eliminate_none _ none]
    exact .done G
  | succ n ih =>
    cases left : remaining vertices gone with
    | nil =>
      rw [eliminate_none _ left]
      exact .done G
    | cons j js =>
      obtain ⟨i, member, found, least⟩ := leastFill_least neighbours gone
        (left ▸ remaining_ascending)
      rw [← left] at member least ⊢
      obtain ⟨v, stands⟩ := mem_remaining.mp member
      have perm := remaining_insert member
      have fewer : (remaining vertices (gone.insert i)).length ≤ n := by
        rw [perm.length_eq, List.length_cons] at enough
        omega
      have game := ih (draws.step distinct stands) fewer
      rw [eliminate_some n left found, stands.getD_eq, draws.length_live distinct stands]
      apply MinFill.round _ _ game
      · have choice := perm.map fun i => vertices.getD i default
        rwa [List.map_cons, stands.getD_eq] at choice
      · intro w other
        obtain ⟨k, left', rfl⟩ := List.mem_map.mp other
        obtain ⟨w, there⟩ := mem_remaining.mp left'
        obtain ⟨there, away⟩ := stands_insert.mp there
        have better := least k (mem_remaining.mpr ⟨w, there⟩)
        rw [draws.fillAt_eq distinct stands, draws.fillAt_eq distinct there] at better
        rw [there.getD_eq]
        apply better.imp_right
        rintro ⟨same, before⟩
        exact ⟨same, stands.id_lt ascending there (Nat.lt_of_le_of_ne before (Ne.symm away))⟩

end Drawings

/-! The graph of a conjunction. -/

section Conjunction

variable {s : Store} {f : Formula} {vertices : List Var} {neighbours : Adjacency} {i j : Nat}
  {v w : Var} {cs : List (List Lit)}

theorem idxOf?_iff (distinct : vertices.Nodup) : vertices.idxOf? v = some i ↔ vertices[i]? = some v := by
  rw [List.idxOf?_eq_some_iff, List.getElem?_eq_some_iff]
  constructor
  · rintro ⟨inside, found, _⟩
    exact ⟨inside, found⟩
  · rintro ⟨inside, found⟩
    refine ⟨inside, found, fun j before same => ?_⟩
    have := distinct.getElem_inj_iff.mp (same.trans found.symm)
    omega

/-- The positions of the variables of a clause. -/
def places (vertices : List Var) (c : List Lit) : List Nat :=
  c.filterMap fun l => vertices.idxOf? l.var

theorem mem_places (distinct : vertices.Nodup) {c : List Lit} :
    i ∈ places vertices c ↔ ∃ l ∈ c, vertices[i]? = some l.var := by
  unfold places
  rw [List.mem_filterMap]
  simp only [idxOf?_iff distinct]

theorem beside_addCliques (cs : List (List Lit)) (distinct : vertices.Nodup) (size : neighbours.size = vertices.length) :
    let drawn := cs.foldl (fun neighbours c => addClique (places vertices c) neighbours) neighbours
    drawn.size = vertices.length ∧ ∀ i j, Beside drawn i j ↔
      (∃ c ∈ cs, i ≠ j ∧ i ∈ places vertices c ∧ j ∈ places vertices c) ∨ Beside neighbours i j := by
  induction cs generalizing neighbours with
  | nil => exact ⟨size, fun i j => by simp⟩
  | cons c cs ih =>
    have inside : ∀ i ∈ places vertices c, i < neighbours.size := by
      intro i member
      obtain ⟨l, _, found⟩ := (mem_places distinct).mp member
      exact size ▸ (List.getElem?_eq_some_iff.mp found).1
    obtain ⟨size', joined⟩ := beside_addClique inside
    obtain ⟨size'', joined'⟩ := ih (size'.trans size)
    refine ⟨size'', fun i j => ?_⟩
    rw [List.foldl_cons, joined', joined]
    simp only [List.mem_cons, exists_eq_or_imp, or_assoc]
    exact or_left_comm

/-- The graph of some clauses, drawn clause by clause. -/
theorem draws_primal (distinct : vertices.Nodup)
    (inside : ∀ c ∈ cs, ∀ l ∈ c, l.var ∈ vertices) :
    Draws vertices (cs.foldl (fun neighbours c => addClique (places vertices c) neighbours)
      (Array.replicate vertices.length ∅)) ∅ (primal cs) := by
  obtain ⟨size, beside⟩ := beside_addCliques cs distinct
    (Array.size_replicate (n := vertices.length) (v := (∅ : Std.TreeSet Nat)))
  have empty (i j : Nat) : ¬Beside (Array.replicate vertices.length ∅) i j := by
    unfold Beside
    rw [Array.getD_eq_getD_getElem?, Array.getElem?_replicate]
    split <;> simp
  simp only [empty, or_false] at beside
  constructor
  case size_eq => exact size
  case bounded =>
    intro i j joined
    obtain ⟨c, _, _, _, second⟩ := (beside i j).mp joined
    obtain ⟨l, _, found⟩ := (mem_places distinct).mp second
    exact (List.getElem?_eq_some_iff.mp found).1
  case adj_iff =>
    intro i j v w first second
    rw [beside]
    simp only [mem_places distinct, first.1, second.1, Option.some_inj, Ne, first.eq_iff distinct second]
    constructor
    · rintro ⟨apart, c, member, ⟨l, hl, rfl⟩, m, hm, rfl⟩
      exact ⟨c, member, apart, ⟨l, hl, rfl⟩, m, hm, rfl⟩
    · rintro ⟨c, member, apart, ⟨l, hl, rfl⟩, m, hm, rfl⟩
      exact ⟨apart, c, member, ⟨l, hl, rfl⟩, m, hm, rfl⟩
  case stands =>
    rintro v w ⟨_, c, member, ⟨l, literal, rfl⟩, _⟩
    obtain ⟨i, found⟩ := List.mem_iff_getElem?.mp (inside c member l literal)
    exact ⟨i, found, Std.TreeSet.not_mem_emptyc⟩

theorem remaining_empty : remaining vertices ∅ = List.range vertices.length := by
  unfold remaining
  rw [List.filter_eq_self]
  intro i _
  rw [Std.TreeSet.contains_emptyc]
  rfl

theorem standing_range : standing vertices (List.range vertices.length) = vertices := by
  unfold standing
  apply List.ext_getElem
  · rw [List.length_map, List.length_range]
  · intro i inside inside'
    rw [List.getElem_map, List.getElem_range, ← List.getElem_eq_getD]

theorem mem_neighboursOf {g : InteractionGraph} {G : SimpleGraph Var} (distinct : g.vertices.Nodup)
    (draws : Draws g.vertices g.neighbours ∅ G) : w ∈ g.neighboursOf v ↔ G.Adj v w := by
  have all (i : Nat) : (g.neighbours.getD i ∅).toList = live g.neighbours ∅ i := by
    unfold live
    rw [eq_comm, List.filter_eq_self]
    intro i _
    rw [Std.TreeSet.contains_emptyc]
    rfl
  unfold neighboursOf
  cases found : g.vertex? v with
  | none =>
    have absent : v ∉ g.vertices := List.idxOf?_eq_none_iff.mp found
    constructor
    · intro member
      cases member
    · intro joined
      obtain ⟨i, stands⟩ := draws.stands v w joined
      exact absurd (List.mem_of_getElem? stands.1) absent
  | some i =>
    have stands : Stands g.vertices ∅ i v :=
      ⟨(idxOf?_iff distinct).mp found, Std.TreeSet.not_mem_emptyc⟩
    change w ∈ standing g.vertices (g.neighbours.getD i ∅).toList ↔ _
    rw [all]
    exact draws.mem_standing_live stands w

/-- The graph of a conjunction has its variables as vertices and joins those that share a clause, and
its min-fill order is one of the elimination game. -/
theorem ofCnf_delivers (wf : s.WellFormed) (known : f ∈ s)
    (read : s.clauses f = .ok cs) : Delivers (ofCnf s f) fun g => g.vertices = s.vars f ∧
      (∀ v w, w ∈ g.neighboursOf v ↔ (primal cs).Adj v w) ∧
        MinFill (primal cs) (s.vars f) g.minFill := by
  have ascending := wf.ascending_vars known
  have distinct := wf.nodup_vars known
  have inside : ∀ c ∈ cs, ∀ l ∈ c, l.var ∈ s.vars f := fun c member l literal =>
    ((wf.clauses_ok known read).2 _).mpr ⟨c, member, l, literal, rfl⟩
  have draws := draws_primal distinct inside
  unfold ofCnf
  rw [read]
  apply Delivers.pure
  refine ⟨rfl, fun v w => mem_neighboursOf distinct draws, ?_⟩
  have enough : (remaining (s.vars f) ∅).length ≤ (s.vars f).length := by
    rw [remaining_empty, List.length_range]
  have game := eliminate_minFill ascending draws enough
  rwa [remaining_empty, standing_range] at game

theorem vars_eq_of_clauses (wf : s.WellFormed) (known : f ∈ s) (read : s.clauses f = .ok cs)
    (ascending : Ascending vertices) (inside : ∀ c ∈ cs, ∀ l ∈ c, l.var ∈ vertices)
    (used : ∀ v ∈ vertices, ∃ c ∈ cs, ∃ l ∈ c, l.var = v) : s.vars f = vertices := by
  have members (v : Var) : v ∈ s.vars f ↔ v ∈ vertices := by
    rw [(wf.clauses_ok known read).2]
    constructor
    · rintro ⟨c, member, l, literal, rfl⟩
      exact inside c member l literal
    · exact used v
  have perm := (List.perm_ext_iff_of_nodup (wf.nodup_vars known)
    (ascending.imp fun below same => by simp [same] at below)).mpr members
  apply perm.eq_of_pairwise _ (wf.ascending_vars known) ascending
  intro v w _ _ below above
  exact absurd below (Nat.lt_asymm above)

/-- The graph of a conjunction of clauses has its variables as vertices and joins two of them when a
clause has both, and min-fill elimination plays the elimination game on it. -/
theorem minFill_plays (leads : Store.Leads Store.initial s) (known : f ∈ s) (cnf : s.isCnf f = true) :
    ∃ cs, s.clauses f = .ok cs ∧ Delivers (ofCnf s f) fun g =>
      (g.vertices = s.vars f ∧ ∀ v, v ∈ g.vertices ↔ ∃ c ∈ cs, ∃ l ∈ c, l.var = v) ∧
        (∀ v w, w ∈ g.neighboursOf v ↔ (primal cs).Adj v w) ∧
        MinFill (primal cs) g.vertices g.minFill := by
  have wf := leads.wellFormed
  obtain ⟨cs, read, _⟩ := Store.clauses_delivers cnf
  obtain ⟨g, run, vertices, joins, game⟩ := ofCnf_delivers wf known read
  have members := (wf.clauses_ok known read).2
  rw [← vertices] at members game
  exact ⟨cs, read, g, run, ⟨vertices, members⟩, joins, game⟩

/-- In a cycle of four variables every one lacks an edge at first, and the least is taken out. -/
theorem minFill_plays_cycle : ∃ s f g,
    s.clauses f = .ok [[⟨0⟩, ⟨2⟩], [⟨2⟩, ⟨4⟩], [⟨4⟩, ⟨6⟩], [⟨6⟩, ⟨0⟩]] ∧ ofCnf s f = .ok g ∧
      g.minFill = ⟨[⟨0⟩, ⟨1⟩, ⟨2⟩, ⟨3⟩], 2⟩ ∧
      MinFill (primal [[⟨0⟩, ⟨2⟩], [⟨2⟩, ⟨4⟩], [⟨4⟩, ⟨6⟩], [⟨6⟩, ⟨0⟩]]) [⟨0⟩, ⟨1⟩, ⟨2⟩, ⟨3⟩] g.minFill := by
  have proper : ∀ c ∈ [[⟨0⟩, ⟨2⟩], [⟨2⟩, ⟨4⟩], [⟨4⟩, ⟨6⟩], [⟨6⟩, (⟨0⟩ : Lit)]], Store.Proper c := by decide
  obtain ⟨s, f, leads, known, cnf, clauses⟩ :=
    Store.initial_wellFormed.exists_cnf (by decide) (by decide) proper
  obtain ⟨cs, read, g, run, ⟨vertices, members⟩, _, game⟩ := minFill_plays leads known cnf
  cases clauses.symm.trans read
  have vars : s.vars f = [⟨0⟩, ⟨1⟩, ⟨2⟩, ⟨3⟩] :=
    vars_eq_of_clauses leads.wellFormed known clauses (by unfold Ascending; decide) (by decide) (by decide)
  have shape := run
  unfold ofCnf at shape
  rw [clauses, vars] at shape
  obtain rfl := Except.ok.inj shape
  exact ⟨s, f, _, clauses, run, by decide, game⟩

end Conjunction

end InteractionGraph

end ModelCounting
