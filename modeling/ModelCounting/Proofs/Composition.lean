import ModelCounting.Proofs.Construction
import ModelCounting.Proofs.Placement

/-!
Trees composed of clauses. Composing halves a list until single trees are left, so what holds of a
single tree, and passes from two lists to the node over them, holds of every composition. Along
whatever order of variables a tree is built, it has each clause at one leaf, with the place of the
clause, and each of its nodes knows how many clauses are below it, how deep they lie and which
variables they have.
-/

namespace ModelCounting

theorem Store.compound_of_clauses {s : Store} {f : Formula} {c c' : List Lit} {cs : List (List Lit)}
    (read : s.clauses f = .ok (c :: c' :: cs)) : s.isAtomic f = false := by
  unfold clauses at read
  split at read
  · cases read
  · rename_i shape
    rw [isAtomic, shape]
    rfl
  · obtain ⟨lits, _, rest⟩ := bind_ok.mp read
    cases rest

namespace Dtree

section Subtrees

variable {Leaf Inner : Type}

/-- The trees at the nodes of a tree, each before those below it. -/
def subtrees : Dtree Leaf Inner → List (Dtree Leaf Inner)
  | .leaf l => [.leaf l]
  | .node d left right => .node d left right :: (left.subtrees ++ right.subtrees)

theorem self_subtree (t : Dtree Leaf Inner) : t ∈ t.subtrees := by
  cases t with
  | leaf l => exact List.mem_singleton_self _
  | node d left right => exact List.mem_cons_self

theorem forall_subtrees_node {P : Dtree Leaf Inner → Prop} {d : Inner}
    {left right : Dtree Leaf Inner} : (∀ u ∈ (node d left right).subtrees, P u) ↔
      P (.node d left right) ∧ (∀ u ∈ left.subtrees, P u) ∧ ∀ u ∈ right.subtrees, P u := by
  rw [subtrees, List.forall_mem_cons, List.forall_mem_append]

theorem leaves_sublist {t u : Dtree Leaf Inner} (below : u ∈ t.subtrees) : u.leaves.Sublist t.leaves := by
  induction t with
  | leaf l => rw [List.mem_singleton.mp below]
  | node d left right ihl ihr =>
    rw [subtrees, List.mem_cons, List.mem_append] at below
    rcases below with rfl | below | below
    · exact .refl _
    · exact (ihl below).trans (List.sublist_append_left _ _)
    · exact (ihr below).trans (List.sublist_append_right _ _)

theorem subtrees_trans {t u v : Dtree Leaf Inner} (below : u ∈ t.subtrees) (lower : v ∈ u.subtrees) :
    v ∈ t.subtrees := by
  induction t with
  | leaf l => rwa [List.mem_singleton.mp below] at lower
  | node d left right ihl ihr =>
    rw [subtrees, List.mem_cons, List.mem_append] at below
    rcases below with rfl | below | below
    · exact lower
    · exact List.mem_cons_of_mem _ (List.mem_append_left _ (ihl below))
    · exact List.mem_cons_of_mem _ (List.mem_append_right _ (ihr below))

end Subtrees

variable {s : Store} {f : Formula} {l : ClauseLeaf} {id : Nat} {v : Var} {order : List Var}
  {t : ClauseTree} {trees trees' : List ClauseTree}

/-! Composing. -/

theorem compose_single (t : ClauseTree) : compose [t] = .ok t := by
  rw [compose]

theorem compose_induction {P : List ClauseTree → ClauseTree → Prop} (single : ∀ t, P [t] t)
    (halves : ∀ ts us l r, P ts l → P us r → P (ts ++ us) (join l r))
    (run : compose trees = .ok t) : P trees t := by
  fun_induction compose trees generalizing t with
  | case1 => cases run
  | case2 u =>
    cases run
    exact single u
  | case3 =>
    cases run
    rename_i l r right left ihl ihr
    have whole := halves _ _ l r (ihl left) (ihr right)
    rwa [List.take_append_drop] at whole
  | case4 => cases run
  | case5 => cases run

theorem compose_leaves (run : compose trees = .ok t) : t.leaves = trees.flatMap leaves := by
  apply compose_induction (P := fun trees t => t.leaves = trees.flatMap leaves) _ _ run
  · intro t
    exact (List.flatMap_singleton leaves t).symm
  · intro ts us l r first second
    rw [List.flatMap_append, ← first, ← second]
    rfl

theorem compose_keeps {P : ClauseTree → Prop} (joined : ∀ l r, P l → P r → P (join l r))
    (each : ∀ t ∈ trees, P t) (run : compose trees = .ok t) : P t := by
  apply compose_induction (P := fun trees t => (∀ t ∈ trees, P t) → P t) _ _ run each
  · intro t each
    exact each t (List.mem_singleton_self t)
  · intro ts us l r first second each
    rw [List.forall_mem_append] at each
    exact joined l r (first each.1) (second each.2)

theorem gather_cases (run : gather trees v = .ok trees') :
    ((∀ t ∈ trees, v ∉ t.extent.vars) ∧ trees' = trees) ∨
      ∃ t, compose (trees.filter fun u => u.extent.vars.contains v) = .ok t ∧
        trees' = (trees.filter fun u => !u.extent.vars.contains v) ++ [t] := by
  unfold gather at run
  rw [List.partition_eq_filter_filter] at run
  simp only [Function.comp_def] at run
  split at run
  · rename_i none
    cases run
    have absent (t : ClauseTree) (member : t ∈ trees) : v ∉ t.extent.vars := by
      have := List.filter_eq_nil_iff.mp (List.isEmpty_iff.mp none) t member
      simpa using this
    refine .inl ⟨absent, List.filter_eq_self.mpr fun t member => ?_⟩
    simpa using absent t member
  · obtain ⟨t, composed, rest⟩ := bind_ok.mp run
    cases rest
    exact .inr ⟨t, composed, rfl⟩

theorem gather_keeps {P : ClauseTree → Prop} (joined : ∀ l r, P l → P r → P (join l r))
    (each : ∀ t ∈ trees, P t) (run : gather trees v = .ok trees') : ∀ t ∈ trees', P t := by
  rcases gather_cases run with ⟨_, rfl⟩ | ⟨t, composed, rfl⟩
  · exact each
  · have whole := compose_keeps joined (fun u member => each u (List.mem_of_mem_filter member)) composed
    intro u member
    rcases List.mem_append.mp member with member | member
    · exact each u (List.mem_of_mem_filter member)
    · exact List.mem_singleton.mp member ▸ whole

/-! What a node knows. -/

/-- The root describes the clauses below it: their number, the longest way down to one, and their
variables in ascending order. -/
structure Describes (t : ClauseTree) : Prop where
  size_eq : t.extent.size = t.leaves.length
  depth_eq : t.extent.depth = match t with
    | .leaf _ => 1
    | .node _ left right => 1 + max left.extent.depth right.extent.depth
  ascending : Ascending t.extent.vars
  mem_vars : ∀ v, v ∈ t.extent.vars ↔ ∃ l ∈ t.leaves, ∃ m ∈ l.lits, m.var = v

def Described (t : ClauseTree) : Prop := ∀ u ∈ t.subtrees, u.Describes

theorem Described.describes (described : t.Described) : t.Describes := described t t.self_subtree

theorem Described.join {left right : ClauseTree} (first : left.Described) (second : right.Described) :
    (join left right).Described := by
  have l := first.describes
  have r := second.describes
  refine forall_subtrees_node.mpr ⟨?_, first, second⟩
  constructor
  case size_eq =>
    change left.extent.size + right.extent.size = (left.leaves ++ right.leaves).length
    rw [l.size_eq, r.size_eq, List.length_append]
  case depth_eq => rfl
  case ascending => exact ascending_mergeVars l.ascending r.ascending
  case mem_vars =>
    intro v
    change v ∈ mergeVars left.extent.vars right.extent.vars ↔
      ∃ l ∈ left.leaves ++ right.leaves, ∃ m ∈ l.lits, m.var = v
    rw [mem_mergeVars, l.mem_vars, r.mem_vars]
    simp only [List.mem_append, or_and_right, exists_or]

theorem foldl_litVars (lits : List Lit) {vs : List Var} (ascending : Ascending vs) :
    Ascending (lits.foldl (fun vs l => mergeVars vs [l.var]) vs) ∧
      ∀ v, v ∈ lits.foldl (fun vs l => mergeVars vs [l.var]) vs ↔ v ∈ vs ∨ ∃ l ∈ lits, l.var = v := by
  induction lits generalizing vs with
  | nil => exact ⟨ascending, fun v => by simp⟩
  | cons l lits ih =>
    have single : Ascending [l.var] := List.pairwise_singleton _ _
    obtain ⟨sorted, members⟩ := ih (ascending_mergeVars ascending single)
    refine ⟨sorted, fun v => ?_⟩
    rw [List.foldl_cons, members, mem_mergeVars, or_assoc]
    simp [eq_comm]

theorem ofClause_ok (run : ClauseLeaf.ofClause s id f = .ok l) : l.clause = f ∧ l.id = id ∧
    s.clauseLits f = .ok l.lits ∧ (leaf l : ClauseTree).Described := by
  obtain ⟨lits, read, rest⟩ := bind_ok.mp run
  cases rest
  obtain ⟨sorted, members⟩ := foldl_litVars lits List.Pairwise.nil
  refine ⟨rfl, rfl, read, fun u member => ?_⟩
  obtain rfl := List.mem_singleton.mp member
  refine ⟨rfl, rfl, sorted, fun v => (members v).trans ?_⟩
  simp [leaves]

/-! The tree along an order. -/

theorem gather_alone (order : List Var) : order.foldlM gather [t] = .ok [t] := by
  induction order with
  | nil => rfl
  | cons v order ih =>
    rw [List.foldlM_cons]
    have same : gather [t] v = .ok [t] := by
      unfold gather
      cases mentioned : t.extent.vars.contains v
      · simp only [List.partition, List.partition.loop, mentioned]
        rfl
      · simp only [List.partition, List.partition.loop, mentioned, List.reverse_cons, List.reverse_nil,
          List.nil_append, List.isEmpty_cons, compose_single]
        rfl
    rw [same]
    exact ih

structure Stages (s : Store) (f : Formula) (order : List Var) (leaves : List ClauseLeaf)
    (trees : List ClauseTree) (t : ClauseTree) : Prop where
  read : (s.flatten .conj f).zipIdx.mapM (fun (g, id) => ClauseLeaf.ofClause s id g) = .ok leaves
  gathered : order.foldlM gather (leaves.map .leaf) = .ok trees
  composed : compose trees = .ok t

theorem alongOrder_stages (wf : s.WellFormed) (run : alongOrder s f order = .ok t) :
    ∃ leaves trees, Stages s f order leaves trees t := by
  unfold alongOrder at run
  split at run
  · cases run
  rename_i fit
  split at run
  · rename_i fs shape
    obtain ⟨leaves, read, run⟩ := bind_ok.mp run
    obtain ⟨trees, gathered, composed⟩ := bind_ok.mp run
    have flat : s.flatten .conj f = fs := wf.flatten_node shape
    exact ⟨leaves, trees, ⟨flat ▸ read, gathered, composed⟩⟩
  · rename_i other
    obtain ⟨l, read, rest⟩ := bind_ok.mp run
    cases rest
    have proper : f ≠ Connective.conj.neutral := by
      rintro rfl
      simp [Store.isAtomic, Connective.neutral, wf.node_verum, Node.isAtomic] at fit
    have flat : s.flatten .conj f = [f] := Store.flatten_self proper other
    refine ⟨[l], [.leaf l], ⟨?_, gather_alone order, compose_single _⟩⟩
    rw [flat]
    exact mapM_of_forall₂ (.cons read .nil)

namespace Stages

variable {leaves : List ClauseLeaf} (stages : Stages s f order leaves trees t)

include stages

theorem each_read : List.Forall₂ (fun (x : Formula × Nat) l => ClauseLeaf.ofClause s x.2 x.1 = .ok l)
    (s.flatten .conj f).zipIdx leaves := mapM_ok stages.read

theorem leaf_described {u : ClauseTree} (member : u ∈ leaves.map Dtree.leaf) : u.Described := by
  obtain ⟨l, inside, rfl⟩ := List.mem_map.mp member
  obtain ⟨x, _, read⟩ := forall₂_mem_right stages.each_read l inside
  exact (ofClause_ok read).2.2.2

theorem described : t.Described := by
  have joined (l r : ClauseTree) (first : l.Described) (second : r.Described) := first.join second
  have gathered : ∀ u ∈ trees, u.Described :=
    foldlM_ok (fun trees : List ClauseTree => ∀ u ∈ trees, u.Described)
      (fun _ _ _ _ each run => gather_keeps joined each run)
      (fun u member => stages.leaf_described member) stages.gathered
  exact compose_keeps joined gathered stages.composed

theorem leaves_perm : t.leaves.Perm leaves := by
  have gathered : (trees.flatMap Dtree.leaves).Perm leaves := by
    refine foldlM_ok (fun trees : List ClauseTree => (trees.flatMap Dtree.leaves).Perm leaves)
      (fun v _ _ _ perm run => ?_) ?_ stages.gathered
    · exact ((gather_delivers _ v).answer run).trans perm
    · rw [List.flatMap_map]
      exact .of_eq (List.flatMap_singleton' leaves)
  rw [compose_leaves stages.composed]
  exact gathered

theorem clause_ids : leaves.map (fun l => (l.clause, l.id)) = (s.flatten .conj f).zipIdx := by
  have pairs : List.Forall₂ (fun l (x : Formula × Nat) => (l.clause, l.id) = x) leaves
      (s.flatten .conj f).zipIdx := stages.each_read.flip.imp fun l x read => by
    obtain ⟨clause, id, _⟩ := ofClause_ok read
    rw [clause, id]
  have same := List.forall₂_map_left_iff.mpr pairs
  rwa [List.forall₂_eq_eq_eq] at same

theorem lits_ids (wf : s.WellFormed) (known : f ∈ s) {cs : List (List Lit)}
    (read : s.clauses f = .ok cs) : leaves.map (fun l => (l.lits, l.id)) = cs.zipIdx := by
  have clauses : leaves.map (·.clause) = s.flatten .conj f := by
    have firsts := congrArg (List.map Prod.fst) stages.clause_ids
    rwa [List.map_map, List.zipIdx_map_fst] at firsts
  have ids : leaves.map (·.id) = List.range' 0 leaves.length := by
    have seconds := congrArg (List.map Prod.snd) stages.clause_ids
    rwa [List.map_map, List.zipIdx_map_snd, ← clauses, List.length_map] at seconds
  have each : List.Forall₂ (fun g lits => s.clauseLits g = .ok lits) (leaves.map (·.clause))
      (leaves.map (·.lits)) := by
    rw [List.forall₂_map_left_iff, List.forall₂_map_right_iff, List.forall₂_same]
    intro l member
    obtain ⟨x, _, read⟩ := forall₂_mem_right stages.each_read l member
    obtain ⟨clause, _, read, _⟩ := ofClause_ok read
    rwa [clause]
  rw [wf.clauses_eq known, ← clauses, mapM_of_forall₂ each] at read
  cases read
  rw [List.zipIdx_eq_zip_range', List.length_map, ← ids, List.zip_map']

end Stages

/-- Whatever the order, the tree of a conjunction has each of its clauses at one leaf, with the place
of the clause, and each of its nodes describes the clauses below it. -/
theorem alongOrder_partitions (leads : Store.Leads Store.initial s) (known : f ∈ s) (cnf : s.isCnf f = true)
    (compound : s.isAtomic f = false) (order : List Var) :
    ∃ cs, s.clauses f = .ok cs ∧ Delivers (alongOrder s f order) fun t =>
      (t.leaves.map fun l => (l.lits, l.id)).Perm cs.zipIdx ∧
        (t.leaves.map fun l => (l.clause, l.id)).Perm (s.flatten .conj f).zipIdx ∧
        ∀ u ∈ t.subtrees, u.Describes := by
  have wf := leads.wellFormed
  obtain ⟨cs, read, _⟩ := Store.clauses_delivers cnf
  have built : Delivers (alongOrder s f order) (Clausal s f) := alongOrder_delivers wf known cnf compound
  obtain ⟨t, run, _⟩ := built
  obtain ⟨leaves, trees, stages⟩ := alongOrder_stages wf run
  have lits := stages.leaves_perm.map fun l => (l.lits, l.id)
  have clauses := stages.leaves_perm.map fun l => (l.clause, l.id)
  rw [stages.lits_ids wf known read] at lits
  rw [stages.clause_ids] at clauses
  exact ⟨cs, read, t, run, lits, clauses, stages.described⟩

/-- An order may name a variable twice, or one that no clause has. -/
theorem alongOrder_partitions_chain : ∃ s f,
    s.clauses f = .ok [[⟨0⟩, ⟨2⟩], [⟨3⟩, ⟨4⟩]] ∧
      Delivers (alongOrder s f [⟨1⟩, ⟨1⟩, ⟨9⟩]) fun t =>
        (t.leaves.map fun l => (l.lits, l.id)).Perm [([⟨0⟩, ⟨2⟩], 0), ([⟨3⟩, ⟨4⟩], 1)] ∧
          t.extent.size = 2 := by
  have proper : ∀ c ∈ [[⟨0⟩, ⟨2⟩], [⟨3⟩, (⟨4⟩ : Lit)]], Store.Proper c := by decide
  obtain ⟨s, f, leads, known, cnf, clauses⟩ :=
    Store.initial_wellFormed.exists_cnf (by decide) (by decide) proper
  obtain ⟨cs, read, t, run, lits, _, described⟩ :=
    alongOrder_partitions leads known cnf (Store.compound_of_clauses clauses) [⟨1⟩, ⟨1⟩, ⟨9⟩]
  cases clauses.symm.trans read
  refine ⟨s, f, clauses, t, run, lits, ?_⟩
  have size := (described t t.self_subtree).size_eq
  rw [size, ← List.length_map, lits.length_eq]
  rfl

end Dtree

end ModelCounting
