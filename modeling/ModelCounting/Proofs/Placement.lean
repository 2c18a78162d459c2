import ModelCounting.Proofs.Finishing
import ModelCounting.Proofs.IndexSet
import ModelCounting.Proofs.Preparation
import ModelCounting.Proofs.Search.Driving

/-!
Placed trees. Composing trees keeps their leaves, so the tree of a conjunction has each of its clauses
at one leaf. Put into the variables of a solver that knows them all, a node lists exactly the clauses
of its two subtrees, and what is left of these clauses under a partial assignment mentions unassigned
variables only.
-/

namespace ModelCounting

/-! Reading a formula as clauses. -/

namespace Store

variable {s : Store} {f : Formula}

theorem clauseLits_delivers (clause : s.isClause f = true) :
    Delivers (s.clauseLits f) fun _ => True := by
  unfold clauseLits
  unfold isClause at clause
  split at clause
  · exact .ok trivial
  · exact .ok trivial
  · refine .mapM fun g member => ?_
    obtain ⟨l, found⟩ := Option.isSome_iff_exists.mp (List.all_eq_true.mp clause g member)
    rw [found]
    exact .ok trivial
  · cases clause

theorem clauses_delivers (cnf : s.isCnf f = true) : Delivers (s.clauses f) fun _ => True := by
  unfold clauses
  unfold isCnf at cnf
  split at cnf
  · exact .ok trivial
  · exact .mapM fun g member => clauseLits_delivers (List.all_eq_true.mp cnf g member)
  · exact (clauseLits_delivers cnf).bind fun _ _ _ => .pure trivial

end Store

/-! Leaves. -/

namespace Dtree

section Leaves

variable {Leaf Inner : Type}

def leaves : Dtree Leaf Inner → List Leaf
  | .leaf l => [l]
  | .node _ left right => left.leaves ++ right.leaves

end Leaves

variable {s : Store} {f : Formula}

theorem compose_delivers {trees : List ClauseTree} (filled : trees ≠ []) :
    Delivers (compose trees) fun t => t.leaves.Perm (trees.flatMap leaves) := by
  fun_induction compose trees with
  | case1 => exact absurd rfl filled
  | case2 t => exact .ok (by simp)
  | case3 t u rest half l r right left ihl ihr =>
    obtain ⟨l', left', first⟩ := ihl (by simp [half])
    obtain ⟨r', right', second⟩ := ihr (by
      rw [Ne, List.drop_eq_nil_iff, List.length_cons, List.length_cons]
      omega)
    obtain rfl := Except.ok.inj (left.symm.trans left')
    obtain rfl := Except.ok.inj (right.symm.trans right')
    refine .ok ?_
    have parts := List.take_append_drop half (t :: u :: rest)
    rw [← parts, List.flatMap_append]
    exact first.append second
  | case4 t u rest half e failed ih _ =>
    obtain ⟨l, left, _⟩ := ih (by simp [half])
    rw [left] at failed
    cases failed
  | case5 t u rest half e failed _ _ ih =>
    obtain ⟨r, right, _⟩ := ih (by
      rw [Ne, List.drop_eq_nil_iff, List.length_cons, List.length_cons]
      omega)
    rw [right] at failed
    cases failed

theorem gather_delivers (trees : List ClauseTree) (v : Var) :
    Delivers (gather trees v) fun trees' =>
      (trees'.flatMap leaves).Perm (trees.flatMap leaves) := by
  have perm : (trees.filter (fun t => t.extent.vars.contains v) ++
      trees.filter (fun t => !t.extent.vars.contains v)).Perm trees :=
    List.filter_append_perm _ _
  unfold gather
  rw [List.partition_eq_filter_filter]
  simp only [Function.comp_def]
  split
  · rename_i none
    rw [List.isEmpty_iff] at none
    rw [none, List.nil_append] at perm
    exact .ok (perm.flatMap_right _)
  · rename_i some
    refine (compose_delivers fun none => some (List.isEmpty_iff.mpr none)).bind
      fun t _ composed => .pure ?_
    rw [List.flatMap_append, List.flatMap_singleton]
    refine (List.perm_append_comm.trans (composed.append_right _)).trans ?_
    rw [← List.flatMap_append]
    exact perm.flatMap_right _

structure Clausal (s : Store) (f : Formula) (t : ClauseTree) : Prop where
  vars : ∀ l ∈ t.leaves, ∀ m ∈ l.lits, m.var ∈ s.vars f
  distinct : (t.leaves.map ClauseLeaf.id).Nodup

theorem ofClause_delivers {id : Nat} (clause : s.isClause f = true) :
    Delivers (ClauseLeaf.ofClause s id f) fun l => l.id = id ∧ s.clauseLits f = .ok l.lits :=
  (Store.clauseLits_delivers clause).bind fun _ read _ => .pure ⟨rfl, read⟩

theorem leaves_of_mapM {fs : List Formula} {leaves : List ClauseLeaf}
    (run : fs.zipIdx.mapM (fun (g, id) => ClauseLeaf.ofClause s id g) = .ok leaves) :
    leaves.map ClauseLeaf.id = List.range fs.length ∧
      ∀ l ∈ leaves, ∃ g ∈ fs, s.clauseLits g = .ok l.lits := by
  have each : List.Forall₂ (fun (x : Formula × Nat) l => l.id = x.2 ∧ s.clauseLits x.1 = .ok l.lits)
      fs.zipIdx leaves := by
    refine (mapM_ok run).imp fun x l read => ?_
    simp only [ClauseLeaf.ofClause, bind_ok, pure_ok] at read
    obtain ⟨lits, read, rfl⟩ := read
    exact ⟨rfl, read⟩
  constructor
  · have ids : fs.zipIdx.map Prod.snd = leaves.map ClauseLeaf.id := by
      clear run
      generalize fs.zipIdx = xs at each
      induction each with
      | nil => rfl
      | cons head _ ih => rw [List.map_cons, List.map_cons, ih, head.1]
    rw [← ids, List.zipIdx_map_snd, List.range_eq_range']
  · intro l member
    obtain ⟨⟨g, i⟩, inside, _, read⟩ := forall₂_mem_right each l member
    exact ⟨g, (List.mem_zipIdx inside).2.2 ▸ List.getElem_mem _, read⟩

theorem alongOrder_delivers {order : List Var} (wf : s.WellFormed) (known : f ∈ s)
    (cnf : s.isCnf f = true) (compound : s.isAtomic f = false) :
    Delivers (alongOrder s f order) (Clausal s f) := by
  unfold alongOrder
  simp only [cnf, compound, Bool.not_true, Bool.or_self, Bool.false_eq_true, if_false]
  split
  · rename_i fs shape
    have clause : ∀ g ∈ fs, s.isClause g = true := by
      simpa [Store.isCnf, shape] using cnf
    have several : fs ≠ [] := by
      have canonical := wf.canonical f known
      rw [shape] at canonical
      rintro rfl
      exact absurd canonical.many (by decide)
    refine ((Delivers.mapM ?_).and fun _ run => leaves_of_mapM run).bind ?_
    · rintro ⟨g, id⟩ member
      have inside : g ∈ fs := (List.mem_zipIdx member).2.2 ▸ List.getElem_mem _
      exact (ofClause_delivers (clause g inside)).mono fun _ _ => trivial
    rintro leaves _ ⟨_, ids, read⟩
    have flat : (leaves.map Dtree.leaf : List ClauseTree).flatMap Dtree.leaves = leaves := by
      simp [List.flatMap_map, Dtree.leaves]
    have gathered : Delivers (order.foldlM gather (leaves.map Dtree.leaf)) fun trees =>
        (trees.flatMap Dtree.leaves).Perm leaves :=
      .foldlM (fun trees perm v _ => (gather_delivers trees v).mono fun _ perm' => perm'.trans perm)
        (.of_eq flat)
    refine gathered.bind fun trees _ perm => ?_
    have filled : trees ≠ [] := by
      rintro rfl
      have none : leaves = [] := perm.nil_eq.symm
      rw [none, List.map_nil, eq_comm, List.range_eq_nil, List.length_eq_zero_iff] at ids
      exact several ids
    refine (compose_delivers filled).mono fun t composed => ?_
    have perm := composed.trans perm
    refine ⟨fun l member m inside => ?_, ?_⟩
    · obtain ⟨g, child, read⟩ := read l (perm.mem_iff.mp member)
      have child : g ∈ (s.node f).children := by rwa [shape]
      refine wf.vars_child known child ?_
      exact ((wf.clauseLits_ok (Store.child_mem known child) read).2 _).mpr ⟨m, inside, rfl⟩
    · rw [(perm.map _).nodup_iff, ids]
      exact List.nodup_range
  · rename_i other
    have clause : s.isClause f = true := by
      unfold Store.isCnf at cnf
      unfold Store.isAtomic at compound
      split at cnf
      · rename_i shape
        rw [shape] at compound
        cases compound
      · rename_i shape
        exact absurd shape (other _)
      · exact cnf
    refine (ofClause_delivers clause).bind ?_
    rintro l _ ⟨_, read⟩
    refine .pure ⟨fun l' member m inside => ?_, ?_⟩
    · rw [List.mem_singleton.mp member] at inside
      exact ((wf.clauseLits_ok known read).2 _).mpr ⟨m, inside, rfl⟩
    · exact List.nodup_singleton _

theorem minFill_delivers (wf : s.WellFormed) (known : f ∈ s) (cnf : s.isCnf f = true)
    (compound : s.isAtomic f = false) : Delivers (minFill s f) fun x => x.1.Clausal s f := by
  have graph : Delivers (InteractionGraph.ofCnf s f) fun _ => True :=
    (Store.clauses_delivers cnf).bind fun _ _ _ => .pure trivial
  exact graph.bind fun _ _ _ => (alongOrder_delivers wf known cnf compound).bind
    fun _ _ clausal => .pure clausal

end Dtree

/-! Flat contents. -/

theorem segmentsFrom_codes {x : Int} (codes acc rest : List Int) (each : ∀ c ∈ codes, 0 ≤ c)
    (closes : x < 0) : segmentsFrom acc (codes ++ x :: rest) =
      ((-x - 1).toNat, acc.reverse ++ codes) :: segmentsFrom [] rest := by
  induction codes generalizing acc with
  | nil =>
    rw [List.nil_append, segmentsFrom, if_pos closes, List.append_nil]
  | cons c codes ih =>
    have positive := each c List.mem_cons_self
    rw [List.cons_append, segmentsFrom, if_neg (by omega),
      ih _ fun d member => each d (List.mem_cons_of_mem _ member)]
    simp

namespace PlacedLeaf

variable (l : PlacedLeaf)

/-- The place of the clause at a leaf, and the codes of its literals. -/
def entry : Nat × List Int := (l.source.id, l.lits.map fun m => (m.code : Int))

def flat : List Int := l.lits.map (fun m => (m.code : Int)) ++ [-(l.source.id : Int) - 1]

theorem segments_flat (rest : List Int) : segments (l.flat ++ rest) = l.entry :: segments rest := by
  have codes : ∀ c ∈ l.lits.map (fun m => (m.code : Int)), 0 ≤ c := by simp
  have closes : -(l.source.id : Int) - 1 < 0 := by omega
  have place : (-(-(l.source.id : Int) - 1) - 1).toNat = l.source.id := by omega
  rw [flat, segments, List.append_assoc, List.cons_append, List.nil_append,
    segmentsFrom_codes _ _ _ codes closes, List.reverse_nil, List.nil_append, place]
  rfl

theorem segments_alone : segments l.flat = [l.entry] := by
  have alone := l.segments_flat []
  rwa [List.append_nil] at alone

theorem segments_flatMap (ls : List PlacedLeaf) : segments (ls.flatMap flat) = ls.map entry := by
  induction ls with
  | nil => rfl
  | cons l ls ih => rw [List.flatMap_cons, segments_flat, ih, List.map_cons]

end PlacedLeaf

theorem litOfCode_code (l : Lit) : litOfCode (l.code : Int) = l := by
  simp [litOfCode]

namespace Dtree

variable {p : Stepper} {n i : Nat} {t : PlacedTree} {value : Lit → Truth}

/-- What a placed tree knows of itself: the variables of a leaf are among the first `n`, a node has
the variables and the clauses of its subtrees, and separates them by the variables they share. -/
def Sited (n : Nat) : PlacedTree → Prop
  | .leaf l => (∀ m ∈ l.lits, m.var.id < n) ∧
      l.footprint.vars = .ofList (l.lits.map (·.var.id)) ∧
      l.footprint.clauses = [(l.source.id, l.lits.map fun m => (m.code : Int))]
  | .node d left right => (left.Sited n ∧ right.Sited n) ∧
      d.footprint.vars = left.vars.union right.vars ∧
      d.footprint.clauses = left.footprint.clauses ++ right.footprint.clauses ∧
      d.separator = (left.vars.inter right.vars).toList ∧
      d.widest = max (max d.separator.length left.widest) right.widest

/-- The literals of a clause, in the variables of a solver that knows theirs. -/
theorem literals_delivers {ls : List Lit} (fault : Lit → Fault)
    (known : ∀ m ∈ ls, p.numbers[m.var]? ≠ none) :
    Delivers (ls.mapM fun m => match p.literal? m with
      | some m => .ok m
      | none => .error (fault m)) fun ms =>
        List.Forall₂ (fun m m' => ∃ i, p.numbers[m.var]? = some i ∧ m' = .of i m.phase) ls ms := by
  have each : Delivers (ls.mapM fun m => match p.literal? m with
      | some m => .ok m
      | none => .error (fault m)) fun _ => True := by
    apply Delivers.mapM
    intro m member
    obtain ⟨i, found⟩ := Option.ne_none_iff_exists'.mp (known m member)
    rw [show p.literal? m = some (.of i m.phase) by simp [Stepper.literal?, Stepper.numberOf?, found]]
    exact .ok trivial
  apply (each.and fun _ run => mapM_ok run).mono
  rintro ms ⟨-, read⟩
  apply read.imp
  intro m m' read
  split at read
  · rename_i m'' found
    cases read
    obtain ⟨i, here, same⟩ := Option.map_eq_some_iff.mp found
    exact ⟨i, here, same.symm⟩
  · cases read

/-- A node lists the clauses of its leaves from left to right, and keeps the list split. -/
structure Lists (t : PlacedTree) : Prop where
  contents_eq : t.contents = t.leaves.flatMap PlacedLeaf.flat
  split_eq : t.footprint.clauses = segments t.contents

theorem Lists.clauses_eq (lists : t.Lists) : t.footprint.clauses = t.leaves.map PlacedLeaf.entry := by
  rw [lists.split_eq, lists.contents_eq, PlacedLeaf.segments_flatMap]

theorem placeLeaf_delivers {l : ClauseLeaf}
    (inside : ∀ {v i : Var}, p.numbers[v]? = some i → i.id < n)
    (known : ∀ m ∈ l.lits, p.numbers[m.var]? ≠ none) :
    Delivers (PlacedLeaf.place p l) fun l' => l'.source = l ∧ Sited n (.leaf l') ∧ Lists (.leaf l') := by
  unfold PlacedLeaf.place
  apply (literals_delivers (fun m => .unplacedVariable m.var l.id) known).bind
  rintro lits - placed
  refine .pure ⟨rfl, ⟨fun m member => ?_, rfl, PlacedLeaf.segments_alone ⟨l, lits, _⟩⟩,
    (List.flatMap_singleton _ _).symm, rfl⟩
  obtain ⟨m', _, i, here, rfl⟩ := forall₂_mem_right placed m member
  rw [Lit.var_of]
  exact inside here

theorem place_delivers {t : ClauseTree} (inside : ∀ {v i : Var}, p.numbers[v]? = some i → i.id < n)
    (known : ∀ l ∈ t.leaves, ∀ m ∈ l.lits, p.numbers[m.var]? ≠ none) :
    Delivers (place p t) fun t' =>
      t'.Sited n ∧ t'.leaves.map PlacedLeaf.source = t.leaves ∧ t'.Lists := by
  induction t with
  | leaf l =>
    refine (placeLeaf_delivers inside (known l (by simp [leaves]))).bind ?_
    rintro l' - ⟨source, sited, lists⟩
    exact .pure ⟨sited, congrArg ([·]) source, lists⟩
  | node extent left right ihl ihr =>
    refine (ihl fun l member => known l (List.mem_append_left _ member)).bind ?_
    rintro l - ⟨sited, sources, lists⟩
    refine (ihr fun l member => known l (List.mem_append_right _ member)).bind ?_
    rintro r - ⟨sited', sources', lists'⟩
    have contents : l.contents ++ r.contents = (l.leaves ++ r.leaves).flatMap PlacedLeaf.flat := by
      rw [lists.contents_eq, lists'.contents_eq, List.flatMap_append]
    refine .pure ⟨⟨⟨sited, sited'⟩, rfl, ?_, rfl, rfl⟩, ?_, contents, rfl⟩
    · change segments (l.contents ++ r.contents) = _
      rw [contents, PlacedLeaf.segments_flatMap, List.map_append, lists.clauses_eq, lists'.clauses_eq]
    · simp [leaves, sources, sources']

theorem Sited.clauses_eq (sited : t.Sited n) : t.footprint.clauses = t.leaves.map PlacedLeaf.entry := by
  induction t with
  | leaf l => exact sited.2.2
  | node d left right ihl ihr =>
    obtain ⟨⟨first, second⟩, _, clauses, _⟩ := sited
    rw [leaves, List.map_append, ← ihl first, ← ihr second]
    exact clauses

/-- The literals that a node lists are of its variables. -/
theorem Sited.code_mem (sited : t.Sited n) {c : Nat × List Int} (listed : c ∈ t.footprint.clauses)
    {code : Int} (member : code ∈ c.2) :
    t.vars.contains (litOfCode code).var.id = true ∧ (litOfCode code).var.id < n := by
  induction t with
  | leaf l =>
    obtain ⟨inside, vars, clauses⟩ := sited
    change c ∈ l.footprint.clauses at listed
    change l.footprint.vars.contains _ = true ∧ _
    rw [clauses, List.mem_singleton] at listed
    subst listed
    obtain ⟨m, here, rfl⟩ := List.mem_map.mp member
    rw [vars, litOfCode_code, IndexSet.contains_ofList]
    exact ⟨List.mem_map_of_mem here, inside m here⟩
  | node d left right ihl ihr =>
    obtain ⟨⟨first, second⟩, vars, clauses, _⟩ := sited
    change c ∈ d.footprint.clauses at listed
    change d.footprint.vars.contains _ = true ∧ _
    rw [clauses, List.mem_append] at listed
    rw [vars, IndexSet.contains_union, Bool.or_eq_true]
    rcases listed with listed | listed
    · exact (ihl first listed).imp_left .inl
    · exact (ihr second listed).imp_left .inr

/-! What is left under a partial assignment. -/

theorem contains_addUnassigned {codes : List Int} {out : IndexSet} :
    (addUnassigned value codes out).contains i = true ↔ out.contains i = true ∨
      ∃ code ∈ codes, value (litOfCode code) = .undef ∧ (litOfCode code).var.id = i := by
  unfold addUnassigned
  induction codes generalizing out with
  | nil => simp
  | cons c codes ih =>
    rw [List.foldl_cons, ih]
    by_cases free : value (litOfCode c) = .undef
    · simp only [free, if_true, IndexSet.contains_insert, Bool.or_eq_true, decide_eq_true_eq,
        List.mem_cons, exists_eq_or_imp, true_and]
      rw [eq_comm]
      tauto
    · simp [free]

theorem contains_dynamicVars {out : IndexSet} :
    (t.dynamicVars value out).contains i = true ↔ out.contains i = true ∨
      ∃ c ∈ t.residual value, ∃ code ∈ c.2,
        value (litOfCode code) = .undef ∧ (litOfCode code).var.id = i := by
  unfold dynamicVars
  induction t.residual value generalizing out with
  | nil => simp
  | cons c cs ih =>
    rw [List.foldl_cons, ih, contains_addUnassigned]
    simp only [List.mem_cons, exists_eq_or_imp, or_assoc]

theorem residual_mem {c : Nat × List Int} (left : c ∈ t.residual value) :
    c ∈ t.footprint.clauses := List.mem_of_mem_filter left

theorem Sited.separator {out scratch : IndexSet} (sited : t.Sited n)
    (member : (t.dynamicSeparator value out scratch).1.contains i = true) :
    ∃ d left right, t = .node d left right ∧ i ∈ d.separator ∧ i < n ∧
      ∃ l, l.var.id = i ∧ value l = .undef := by
  cases t with
  | leaf l => simp [dynamicSeparator] at member
  | node d left right =>
    obtain ⟨⟨first, second⟩, _, _, separator, _⟩ := sited
    simp only [dynamicSeparator, IndexSet.contains_inter, Bool.and_eq_true, contains_dynamicVars,
      IndexSet.contains_clear, Bool.false_eq_true, false_or] at member
    obtain ⟨⟨c, listed, code, inside, free, rfl⟩, c', listed', code', inside', _, same⟩ := member
    have here := first.code_mem (residual_mem listed) inside
    have there := second.code_mem (residual_mem listed') inside'
    refine ⟨d, left, right, rfl, ?_, here.2, _, rfl, free⟩
    rw [separator, IndexSet.mem_toList, IndexSet.contains_inter, Bool.and_eq_true]
    exact ⟨here.1, same ▸ there.1⟩

/-- Counting finds a place for each variable, and the counts of eligible ones stay natural. -/
theorem Sited.countOccurrences {occurrences : Array Int} (sited : t.Sited n)
    (size : occurrences.size = n) :
    Delivers (t.countOccurrences value occurrences) fun counts =>
      counts.size = n ∧ ∀ i, 0 ≤ occurrences.getD i (-1) → 0 ≤ counts.getD i (-1) := by
  let Kept (counts : Array Int) : Prop :=
    counts.size = n ∧ ∀ i, 0 ≤ occurrences.getD i (-1) → 0 ≤ counts.getD i (-1)
  have step (counts : Array Int) (kept : Kept counts) (code : Int)
      (inside : (litOfCode code).var.id < n) : Delivers (countOccurrence counts code) Kept := by
    unfold countOccurrence
    simp only
    have here : (litOfCode code).var.id < counts.size := kept.1.symm ▸ inside
    rw [Array.getElem?_eq_getElem here]
    refine .ok ?_
    split
    · exact kept
    · refine ⟨by simpa using kept.1, fun i natural => ?_⟩
      have old := kept.2 i natural
      rw [Array.getD_eq_getD_getElem?, Array.getElem?_setIfInBounds]
      rw [Array.getD_eq_getD_getElem?] at old
      split
      · rename_i same
        subst same
        rw [Array.getElem?_eq_getElem here, Option.getD_some] at old
        simp only [Option.getD_some]
        omega
      · exact old
  refine .foldlM (fun counts kept c left => ?_) ⟨size, fun _ natural => natural⟩
  exact .foldlM (fun counts kept code member =>
    step counts kept code (sited.code_mem (residual_mem left) member).2) kept

end Dtree

theorem Compilation.mostFrequent_mem {counts : Array Int} {candidates : List Nat}
    (some : candidates ≠ []) (natural : ∀ i ∈ candidates, 0 ≤ counts.getD i (-1)) :
    mostFrequent counts candidates ∈ candidates := by
  unfold mostFrequent
  suffices best : ∀ (b : Int × Nat), (b.1 = -1 ∧ candidates ≠ []) ∨ b.2 ∈ candidates →
      ∀ rest, (∀ i ∈ rest, i ∈ candidates) → (b.2 ∈ candidates ∨ rest ≠ []) →
      (rest.foldl (fun (best : Int × Nat) i =>
        let n := counts.getD i (-1)
        if best.1 < n then (n, i) else best) b).2 ∈ candidates from
    best (-1, 0) (.inl ⟨rfl, some⟩) candidates (fun _ h => h) (.inr some)
  intro b start rest within
  induction rest generalizing b with
  | nil => exact fun known => known.resolve_right fun h => h rfl
  | cons i rest ih =>
    intro _
    rw [List.foldl_cons]
    have member := within i List.mem_cons_self
    have within' : ∀ j ∈ rest, j ∈ candidates := fun j h => within j (List.mem_cons_of_mem _ h)
    simp only
    split
    · exact ih _ (.inr member) within' (.inl member)
    · rename_i lower
      have known : b.2 ∈ candidates := start.resolve_left fun ⟨least, _⟩ => by
        have := natural i member
        omega
      exact ih b (.inr known) within' (.inl known)

end ModelCounting
