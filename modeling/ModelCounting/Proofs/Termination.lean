import ModelCounting.Proofs.Run
import ModelCounting.Proofs.Search.Stepping

/-!
Compilations come to an end. A call of the recursion either goes down the tree or finds more
variables assigned than its caller did. Below a decision the decided variable is one more. A lesson
that is asserted adds its first literal to the level of the failed branch, where it stays while the
node is compiled again. So the nesting of calls is below the depth of the tree plus the number of
variables, whatever the handler does, and the bound that the recursion is given plays no part.
-/

namespace ModelCounting

/-! Reading a formula as clauses. -/

namespace Store

variable {s : Store} {f : Formula}

theorem name_finishes {v : Var} : Finishes (s.name v) fun _ => True := by
  unfold name
  split
  · exact .ok trivial
  · exact .error nofun

theorem renderNode_finishes {sub : Formula → Except Fault String} {n : Node}
    (operands : ∀ g, Finishes (sub g) fun _ => True) :
    Finishes (s.renderNode sub n) fun _ => True := by
  unfold renderNode
  extract_lets operand
  have each (strict : Bool) (g : Formula) : Finishes (operand strict g) fun _ => True := by
    refine (operands g).bind fun inner _ _ => ?_
    simp only
    split <;> exact .pure trivial
  clear_value operand
  cases n with
  | falsum => exact .pure trivial
  | verum => exact .pure trivial
  | lit l => exact name_finishes.bind fun _ _ _ => .pure trivial
  | not g => exact (each _ g).bind fun _ _ _ => .pure trivial
  | and fs => exact (Finishes.mapM fun g _ => each _ g).bind fun _ _ _ => .pure trivial
  | or fs => exact (Finishes.mapM fun g _ => each _ g).bind fun _ _ _ => .pure trivial
  | implies f g => exact (each _ f).bind fun _ _ _ => (each _ g).bind fun _ _ _ => .pure trivial
  | equiv f g => exact (each _ f).bind fun _ _ _ => (each _ g).bind fun _ _ _ => .pure trivial

theorem render_finishes : Finishes (s.render f) fun _ => True := by
  unfold render
  generalize bound : f.id = n
  induction n using Nat.strongRecOn generalizing f with
  | ind n ih =>
    rw [fold]
    refine renderNode_finishes fun g => ?_
    split
    · exact ih g.id (by omega) rfl
    · exact .error (by decide)

theorem notAClause_finishes {α : Type} {post : α → Prop} : Finishes (s.notAClause f) post :=
  render_finishes.bind fun _ _ _ => .error nofun

theorem clauseLits_finishes : Finishes (s.clauseLits f) fun _ => True := by
  unfold clauseLits
  split
  · exact .ok trivial
  · exact .ok trivial
  · refine .mapM fun g _ => ?_
    split
    · exact .ok trivial
    · exact notAClause_finishes
  · exact notAClause_finishes

theorem clauses_finishes : Finishes (s.clauses f) fun _ => True := by
  unfold clauses
  split
  · exact .ok trivial
  · exact .mapM fun _ _ => clauseLits_finishes
  · exact clauseLits_finishes.bind fun _ _ _ => .pure trivial

end Store

/-! The tree. -/

namespace Dtree

variable {Leaf Inner : Type}

def Layered (rank : Dtree Leaf Inner → Nat) : Dtree Leaf Inner → Prop
  | .leaf _ => True
  | .node d left right =>
    (rank left < rank (.node d left right) ∧ left.Layered rank) ∧
      rank right < rank (.node d left right) ∧ right.Layered rank

abbrev Measured (t : ClauseTree) : Prop := t.Layered fun t => t.extent.depth

theorem Measured.join {left right : ClauseTree} (first : left.Measured) (second : right.Measured) :
    (join left right).Measured := by
  refine ⟨⟨?_, first⟩, ?_, second⟩
  · change left.extent.depth < 1 + max left.extent.depth right.extent.depth
    omega
  · change right.extent.depth < 1 + max left.extent.depth right.extent.depth
    omega

theorem compose_finishes {trees : List ClauseTree} (measured : ∀ t ∈ trees, t.Measured) :
    Finishes (compose trees) Measured := by
  fun_induction compose trees with
  | case1 => exact .error nofun
  | case2 t => exact .ok (measured t List.mem_cons_self)
  | case3 _ _ _ _ l r right left ihl ihr =>
    have first := (ihl fun t member => measured t (List.mem_of_mem_take member)).answer l left
    have second := (ihr fun t member => measured t (List.mem_of_mem_drop member)).answer r right
    exact .ok (first.join second)
  | case4 _ _ _ _ _ failed ih _ =>
    have left := ih fun t member => measured t (List.mem_of_mem_take member)
    exact .error fun stalled => left.ne_stalled (stalled ▸ failed)
  | case5 _ _ _ _ _ failed _ _ ih =>
    have right := ih fun t member => measured t (List.mem_of_mem_drop member)
    exact .error fun stalled => right.ne_stalled (stalled ▸ failed)

theorem gather_finishes {trees : List ClauseTree} {v : Var} (measured : ∀ t ∈ trees, t.Measured) :
    Finishes (gather trees v) fun trees' => ∀ t ∈ trees', t.Measured := by
  unfold gather
  rw [List.partition_eq_filter_filter]
  simp only
  split
  · exact .ok fun t member => measured t (List.mem_of_mem_filter member)
  · refine (compose_finishes fun t member => measured t (List.mem_of_mem_filter member)).bind
      fun t _ composed => .pure fun u member => ?_
    rcases List.mem_append.mp member with member | member
    · exact measured u (List.mem_of_mem_filter member)
    · rw [List.mem_singleton.mp member]
      exact composed

variable {s : Store} {f : Formula}

theorem ofClause_finishes {id : Nat} : Finishes (ClauseLeaf.ofClause s id f) fun _ => True :=
  Store.clauseLits_finishes.bind fun _ _ _ => .pure trivial

theorem alongOrder_finishes {order : List Var} : Finishes (alongOrder s f order) Measured := by
  unfold alongOrder
  split
  · exact .error nofun
  · split
    · refine (Finishes.mapM fun _ _ => ofClause_finishes).bind fun leaves _ _ => ?_
      have start (t : ClauseTree) (member : t ∈ leaves.map Dtree.leaf) : t.Measured := by
        obtain ⟨l, _, rfl⟩ := List.mem_map.mp member
        trivial
      exact (Finishes.foldlM (fun _ measured _ _ => gather_finishes measured) start).bind
        fun _ _ measured => compose_finishes measured
    · exact ofClause_finishes.bind fun _ _ _ => .pure trivial

theorem minFill_finishes : Finishes (minFill s f) fun x => x.1.Measured := by
  have graph : Finishes (InteractionGraph.ofCnf s f) fun _ => True :=
    Store.clauses_finishes.bind fun _ _ _ => .pure trivial
  exact graph.bind fun _ _ _ => alongOrder_finishes.bind fun _ _ measured => .pure measured

theorem placeLeaf_finishes {p : Stepper} {l : ClauseLeaf} :
    Finishes (PlacedLeaf.place p l) fun l' => l'.source = l := by
  refine (Finishes.mapM fun m _ => ?_).bind fun _ _ _ => .pure rfl
  split
  · exact .ok trivial
  · exact .error (by simp)

theorem place_finishes {p : Stepper} {t : ClauseTree} (measured : t.Measured) :
    Finishes (place p t) fun t' => t'.depth = t.extent.depth ∧ t'.Layered depth := by
  induction t with
  | leaf l =>
    refine placeLeaf_finishes.bind fun l' _ same => .pure ⟨?_, trivial⟩
    change l'.source.extent.depth = l.extent.depth
    rw [same]
  | node extent left right ihl ihr =>
    obtain ⟨⟨below, first⟩, below', second⟩ := measured
    refine (ihl first).bind fun l _ ⟨depth, layered⟩ => ?_
    refine (ihr second).bind fun r _ ⟨depth', layered'⟩ => .pure ⟨rfl, ⟨?_, layered⟩, ?_, layered'⟩
    · rw [depth]
      exact below
    · rw [depth']
      exact below'

end Dtree

/-! The recursion. -/

namespace Compilation

variable {c c' : Compilation} {t : PlacedTree} {nested n u : Nat} {step : CompilationStep}

/-- The number of variables without a value. -/
def undecided (c : Compilation) : Nat := c.solver.core.varCount - c.solver.core.trail.lits.size

/-- The levels are those of before, and so is all that was assigned. -/
structure Leads (c c' : Compilation) : Prop where
  steady : c'.solver.Steady
  grows : c.solver.core.trail.Grows c'.solver.core.trail

def Settles (u : Nat) (step : CompilationStep) : Prop :=
  ∀ c, c.solver.Steady → c.undecided ≤ u → Finishes (step c) fun x => c.Leads x.2

theorem Leads.trans {c'' : Compilation} (first : c.Leads c') (second : c'.Leads c'') :
    c.Leads c'' := ⟨second.steady, first.grows.trans second.grows⟩

theorem Leads.of_core (steady : c'.solver.Steady) (same : c'.solver.core = c.solver.core) :
    c.Leads c' := ⟨steady, same ▸ .refl _⟩

theorem Leads.of_solver (steady : c.solver.Steady) (same : c'.solver = c.solver) : c.Leads c' :=
  .of_core (same ▸ steady) (congrArg Stepper.core same)

theorem Leads.undecided_le (leads : c.Leads c') : c'.undecided ≤ c.undecided := by
  have count : c'.solver.core.varCount = c.solver.core.varCount := leads.grows.varCount_eq
  have size := leads.grows.size_le
  unfold undecided
  omega

theorem undecided_lt (steady : c'.solver.Steady)
    (count : c'.solver.core.varCount = c.solver.core.varCount)
    (more : c.solver.core.trail.lits.size < c'.solver.core.trail.lits.size) :
    c'.undecided < c.undecided := by
  have : c'.solver.core.trail.lits.size ≤ c'.solver.core.varCount := steady.core.trail.size_le
  unfold undecided
  omega

theorem undo_leads {result : Outcome} {v : Var} (c' : Compilation) (trail : c.solver.core.trail.WellFormed)
    (steady : c'.solver.Steady)
    (grows : c.solver.core.trail.openLevel.Grows c'.solver.core.trail) :
    Finishes (do
      let solver ← c'.solver.undo v
      return (result, { c' with solver })) fun x => c.Leads x.2 := by
  refine steady.undo.bind fun q _ ⟨steady', lowered⟩ => .pure ⟨steady', ?_⟩
  have depth : c'.solver.core.depth - 1 = c.solver.core.depth := by
    rw [Solver.depth, grows.depth_eq, Trail.depth, Trail.openLevel, Array.size_push]
    rfl
  rw [depth] at lowered
  exact grows.closed trail lowered

theorem branch_settles {v : Var} {phase : Bool} (below : ∀ k < u, Settles k step) :
    Settles u (branch step v phase) := by
  intro c steady le
  refine steady.decide.bind fun ⟨consistent, p⟩ _ ⟨steady', grows, more⟩ => ?_
  cases consistent with
  | false => exact undo_leads { c with solver := p } steady.core.trail steady' grows
  | true =>
    have fewer : undecided { c with solver := p } < c.undecided :=
      undecided_lt steady' grows.varCount_eq (more rfl)
    refine (below _ (Nat.lt_of_lt_of_le fewer le) _ steady' (Nat.le_refl _)).bind
      fun ⟨result, c₁⟩ _ leads => ?_
    exact undo_leads c₁ steady.core.trail leads.steady (grows.trans leads.grows)

theorem retry_settles (below : ∀ k < u, Settles k step) : Settles u (retry step) := by
  intro c steady le
  unfold retry
  split
  · refine steady.assertLesson.bind fun ⟨consistent, p⟩ _ ⟨steady', grows, more⟩ => ?_
    cases consistent with
    | false => exact .pure ⟨steady', grows⟩
    | true =>
      have fewer : undecided { c with solver := p } < c.undecided :=
        undecided_lt steady' grows.varCount_eq more
      exact (below _ (Nat.lt_of_lt_of_le fewer le) _ steady' (Nat.le_refl _)).mono
        fun x leads => ⟨leads.steady, grows.trans leads.grows⟩
  · exact .ok (.of_core steady rfl)

theorem leafTerms_finishes {value : Lit → Truth} {name : Lit → Except Fault Lit} {ls : List Lit}
    {negated : List Formula} {s : Store} (named : ∀ l, Finishes (name l) fun _ => True) :
    Finishes (leafTerms value name ls negated s) fun _ => True := by
  induction ls generalizing negated s with
  | nil => exact .ok trivial
  | cons l ls ih =>
    unfold leafTerms
    split
    · exact .ok trivial
    · exact ih
    · refine (named l).bind fun m _ _ => ?_
      refine ih.bind fun ⟨terms, s⟩ _ _ => ?_
      cases terms <;> exact .pure trivial

theorem leaf_finishes {l : PlacedLeaf} : Finishes (c.leaf l) fun x => x.2.solver = c.solver := by
  refine (leafTerms_finishes fun _ => Stepper.litOf_finishes).bind fun ⟨terms, s⟩ _ _ => ?_
  cases terms <;> exact .pure rfl

theorem reserve_finishes {w : Workspace} {row column : Nat} :
    Finishes (w.reserve row column) fun _ => True := by
  unfold Workspace.reserve
  split
  · exact .ok trivial
  · exact .error nofun

theorem countOccurrence_finishes {occurrences : Array Int} {code : Int} :
    Finishes (Dtree.countOccurrence occurrences code) fun _ => True := by
  unfold Dtree.countOccurrence
  simp only
  split
  · exact .error nofun
  · exact .ok trivial

theorem chooseVariable_finishes : Finishes (c.chooseVariable t nested) fun _ => True := by
  refine reserve_finishes.bind fun _ _ _ => ?_
  have counted {occurrences : Array Int} :
      Finishes (t.countOccurrences c.solver.value occurrences) fun _ => True :=
    .foldlM (fun _ _ _ _ => .foldlM (fun _ _ _ _ => countOccurrence_finishes) trivial) trivial
  exact counted.bind fun _ _ _ => .pure trivial

theorem cached_settles (below : Settles u step) : Settles u (cached step t nested) := by
  intro c steady le
  refine reserve_finishes.bind fun _ _ _ => ?_
  simp only
  split
  · exact .pure (.of_core steady rfl)
  · have looked := below (c.looked t) steady le
    refine looked.bind fun x _ leads => ?_
    obtain ⟨outcome, c₁⟩ := x
    cases outcome with
    | cancelled => exact .pure ⟨leads.steady, leads.grows⟩
    | compiled f =>
      simp only
      split <;> exact .pure ⟨leads.steady, leads.grows⟩

theorem part_settles {compile : PlacedTree → CompilationStep} (below : Settles u (compile t)) :
    Settles u (part compile nested t) := by
  intro c steady le
  cases t with
  | leaf l =>
    exact leaf_finishes.bind fun ⟨f, c₁⟩ _ same => .pure (.of_solver steady same)
  | node d left right => exact cached_settles below c steady le

theorem conjoin_settles {compile : PlacedTree → CompilationStep} {implied : Formula}
    {left right : PlacedTree} (first : Settles u (compile left))
    (second : Settles u (compile right)) : Settles u (conjoin compile nested implied left right) := by
  intro c steady le
  unfold conjoin
  split
  · exact .pure (.of_core steady rfl)
  refine (part_settles first c steady le).bind fun ⟨outcome, c₁⟩ _ leads => ?_
  cases outcome with
  | cancelled => exact .pure leads
  | compiled l =>
    simp only
    split
    · exact .pure leads
    have le₁ := Nat.le_trans leads.undecided_le le
    refine (part_settles second c₁ leads.steady le₁).bind fun ⟨outcome, c₂⟩ _ leads₁ => ?_
    have leads := leads.trans leads₁
    cases outcome with
    | cancelled => exact .pure leads
    | compiled r =>
      simp only
      split
      · exact .pure leads
      · exact .pure ⟨leads.steady, leads.grows⟩

theorem expansion_finishes {implied p q : Formula} {v : Var} :
    Finishes (expansion implied v p q c) fun x => x.2.solver = c.solver :=
  Finishes.bind ⟨Stepper.nameOf_ne_stalled, fun _ _ => trivial⟩ fun _ _ _ => .pure rfl

/-- What a frame of the recursion does after it has entered, in terms of the calls it makes. -/
def frame (compile : PlacedTree → Nat → CompilationStep) (t : PlacedTree) (nested : Nat)
    (implied : Formula) : CompilationStep := fun c =>
  if c.separator.isEmpty then
    match t with
    | .leaf l => do
      let (f, c) ← c.leaf l
      return c.conj [implied, f]
    | .node _ left right => conjoin (fun t => compile t 0) nested implied left right c
  else do
    let v ← c.chooseVariable t nested
    if !c.handler.expand.1 then return (.cancelled, c.counted)
    match ← branch (compile t (nested + 1)) v true c.counted with
    | (.cancelled, c) => return (.cancelled, c)
    | (.compiled positive, c) =>
      if positive = .falsum then retry (compile t 0) c
      else
        match ← branch (compile t (nested + 1)) v false c with
        | (.cancelled, c) => return (.cancelled, c)
        | (.compiled negative, c) =>
          if negative = .falsum then retry (compile t 0) c
          else expansion implied v positive negative c

theorem tree_succ (n : Nat) (t : PlacedTree) (nested : Nat) (c : Compilation) :
    tree (n + 1) t nested c = c.enter t >>= fun x => frame (tree n) t nested x.1 x.2 := by
  rw [tree]
  simp only [enter]
  cases c.solver.newlyImplied t.vars c.store with
  | error fault => rfl
  | ok x => rfl

theorem enter_leads (steady : c.solver.Steady) : Finishes (c.enter t) fun x => c.Leads x.2 := by
  have implied : Finishes (c.solver.newlyImplied t.vars c.store) _ := steady.newlyImplied
  unfold enter
  simp only
  split
  · rename_i run
    obtain ⟨steady', same⟩ := implied.answer _ run
    exact .ok (.of_core steady' same)
  · rename_i run
    exact .error fun stalled => implied.ne_stalled (stalled ▸ run)

/-- A frame finishes if its calls do: those for the subtrees with no fewer variables undecided, and
those for the same tree with fewer. -/
theorem frame_settles {compile : PlacedTree → Nat → CompilationStep} {implied : Formula}
    (layered : t.Layered Dtree.depth)
    (down : ∀ t', t'.Layered Dtree.depth → t'.depth < t.depth → Settles u (compile t' 0))
    (again : ∀ nested, ∀ k < u, Settles k (compile t nested)) :
    Settles u (frame compile t nested implied) := by
  intro c steady le
  unfold frame
  split
  · cases t with
    | leaf l =>
      refine leaf_finishes.bind fun ⟨f, c₁⟩ _ same => ?_
      have leads : c.Leads c₁ := .of_solver steady same
      exact .pure ⟨leads.steady, leads.grows⟩
    | node d left right =>
      obtain ⟨⟨below, first⟩, below', second⟩ := layered
      exact conjoin_settles (down left first below) (down right second below') c steady le
  · refine chooseVariable_finishes.bind fun v _ _ => ?_
    have counted : c.Leads c.counted := .of_core steady rfl
    split
    · exact .pure counted
    refine (branch_settles (again _) c.counted steady le).bind fun ⟨outcome, c₁⟩ _ leads => ?_
    have leads := counted.trans leads
    have le₁ := Nat.le_trans leads.undecided_le le
    cases outcome with
    | cancelled => exact .pure leads
    | compiled positive =>
      simp only
      split
      · exact (retry_settles (again 0) c₁ leads.steady le₁).mono fun _ rest => leads.trans rest
      refine (branch_settles (again _) c₁ leads.steady le₁).bind fun ⟨outcome, c₂⟩ _ leads₂ => ?_
      have leads := leads.trans leads₂
      have le₂ := Nat.le_trans leads.undecided_le le
      cases outcome with
      | cancelled => exact .pure leads
      | compiled negative =>
        simp only
        split
        · exact (retry_settles (again 0) c₂ leads.steady le₂).mono fun _ rest => leads.trans rest
        · exact expansion_finishes.mono fun x same => leads.trans (.of_solver leads.steady same)

theorem tree_settles (layered : t.Layered Dtree.depth) (enough : u + t.depth < n) :
    Settles u (tree n t nested) := by
  induction n generalizing t nested u with
  | zero => omega
  | succ n ih =>
    intro c steady le
    rw [tree_succ]
    refine (enter_leads steady).bind fun ⟨implied, c₁⟩ _ leads => ?_
    have le₁ := Nat.le_trans leads.undecided_le le
    refine (frame_settles layered (fun t' layered' below => ?_) (fun nested k less => ?_)
      c₁ leads.steady le₁).mono fun _ rest => leads.trans rest
    -- A descent lowers the depth, and a call for the same tree comes after a literal was assigned.
    · exact ih layered' (by omega)
    · exact ih layered (by omega)

/-! More rounds. -/

theorem branch_outlasts {step' : CompilationStep} {v : Var} {phase : Bool}
    (below : ∀ c, Outlasts (step c) (step' c)) :
    Outlasts (branch step v phase c) (branch step' v phase c) := by
  refine .bind (.refl _) fun ⟨consistent, p⟩ => ?_
  cases consistent with
  | false => exact .refl _
  | true => exact .bind (below _) fun _ => .refl _

theorem retry_outlasts {step' : CompilationStep} (below : ∀ c, Outlasts (step c) (step' c)) :
    Outlasts (retry step c) (retry step' c) := by
  unfold retry
  by_cases level : c.solver.atAssertionLevel = true
  · rw [if_pos level, if_pos level]
    refine .bind (.refl _) fun ⟨consistent, p⟩ => ?_
    cases consistent with
    | false => exact .refl _
    | true => exact below _
  · rw [if_neg level, if_neg level]
    exact .refl _

theorem part_outlasts {compile compile' : PlacedTree → CompilationStep}
    (below : ∀ c, Outlasts (compile t c) (compile' t c)) :
    Outlasts (part compile nested t c) (part compile' nested t c) := by
  cases t with
  | leaf l => exact .refl _
  | node d left right =>
    refine .bind (.refl _) fun _ => ?_
    simp only
    generalize c.cache.query (Dtree.cacheKey _ _ _ _) = found
    obtain ⟨known, cache⟩ := found
    cases known with
    | some f => exact .refl _
    | none => exact .bind (below _) fun _ => .refl _

theorem conjoin_outlasts {compile compile' : PlacedTree → CompilationStep} {implied : Formula}
    {left right : PlacedTree} (below : ∀ t c, Outlasts (compile t c) (compile' t c)) :
    Outlasts (conjoin compile nested implied left right c)
      (conjoin compile' nested implied left right c) := by
  unfold conjoin
  by_cases falsum : implied = .falsum
  · rw [if_pos falsum, if_pos falsum]
    exact .refl _
  rw [if_neg falsum, if_neg falsum]
  refine .bind (part_outlasts (below left)) fun ⟨outcome, c₁⟩ => ?_
  cases outcome with
  | cancelled => exact .refl _
  | compiled l =>
    simp only
    by_cases falsum : l = .falsum
    · rw [if_pos falsum, if_pos falsum]
      exact .refl _
    rw [if_neg falsum, if_neg falsum]
    exact .bind (part_outlasts (below right)) fun _ => .refl _

theorem frame_outlasts {compile compile' : PlacedTree → Nat → CompilationStep} {implied : Formula}
    (below : ∀ t nested c, Outlasts (compile t nested c) (compile' t nested c)) :
    Outlasts (frame compile t nested implied c) (frame compile' t nested implied c) := by
  unfold frame
  by_cases apart : c.separator.isEmpty = true
  · rw [if_pos apart, if_pos apart]
    cases t with
    | leaf l => exact .refl _
    | node d left right => exact conjoin_outlasts fun t c => below t 0 c
  rw [if_neg apart, if_neg apart]
  refine .bind (.refl _) fun v => ?_
  by_cases refused : (!c.handler.expand.1) = true
  · rw [if_pos refused, if_pos refused]
    exact .refl _
  rw [if_neg refused, if_neg refused]
  refine .bind (branch_outlasts (below t _)) fun ⟨outcome, c₁⟩ => ?_
  cases outcome with
  | cancelled => exact .refl _
  | compiled positive =>
    simp only
    by_cases falsum : positive = .falsum
    · rw [if_pos falsum, if_pos falsum]
      exact retry_outlasts (below t 0)
    rw [if_neg falsum, if_neg falsum]
    refine .bind (branch_outlasts (below t _)) fun ⟨outcome, c₂⟩ => ?_
    cases outcome with
    | cancelled => exact .refl _
    | compiled negative =>
      simp only
      by_cases falsum : negative = .falsum
      · rw [if_pos falsum, if_pos falsum]
        exact retry_outlasts (below t 0)
      rw [if_neg falsum, if_neg falsum]
      exact .refl _

theorem tree_outlasts {n' : Nat} (le : n ≤ n') :
    Outlasts (tree n t nested c) (tree n' t nested c) := by
  induction n generalizing n' t nested c with
  | zero => exact fun goes => absurd rfl goes
  | succ n ih =>
    obtain ⟨n', rfl⟩ : ∃ k, n' = k + 1 := ⟨n' - 1, by omega⟩
    have le' : n ≤ n' := Nat.le_of_succ_le_succ le
    rw [tree_succ, tree_succ]
    exact .bind (.refl _) fun x => frame_outlasts fun t nested c => ih le'

end Compilation

/-! Compilations of prepared clauses. -/

namespace Compiler

open Store Compilation

variable {s s' : Store} {f : Formula} {settings : Settings} {m : Compiler}

theorem prepare_numbered (run : prepare s f settings = .ok (m, s')) : m.solver.Numbered := by
  unfold prepare at run
  split at run
  · cases run
  simp only [bind_ok, Prod.exists] at run
  obtain ⟨g, s₁, _, cnf, s₂, _, solver, added, rest⟩ := run
  cases rest
  exact (Stepper.Numbered.fresh settings).add added

theorem search_finishes {p : Stepper} {t : PlacedTree} {handler : Handler}
    (steady : p.Steady) (count : p.core.varCount = p.varCount) (layered : t.Layered Dtree.depth) :
    Finishes (tree (nestingBound p t) t 0 (.first s p t handler)) fun _ => True := by
  have all : (first s p t handler).undecided ≤ p.varCount := by
    rw [← count]
    exact Nat.sub_le _ _
  have settles : Settles p.varCount (tree (nestingBound p t) t 0) :=
    tree_settles layered (Nat.lt_succ_self _)
  exact (settles _ steady all).mono fun _ _ => trivial

theorem compile_finishes {handler : Handler} (numbered : m.solver.Numbered) :
    Finishes (m.compile s handler) fun _ => True := by
  unfold compile
  split
  · exact .error nofun
  simp only
  split
  · exact .pure trivial
  refine numbered.start.bind fun ⟨consistent, p⟩ _ ready => ?_
  cases consistent with
  | false => exact .pure trivial
  | true =>
    obtain ⟨steady, count⟩ := ready rfl
    refine Dtree.minFill_finishes.bind fun ⟨d, e⟩ _ measured => ?_
    refine (Dtree.place_finishes measured).bind fun t _ ⟨_, layered⟩ => ?_
    refine (search_finishes steady count layered).bind fun ⟨outcome, c⟩ _ _ => ?_
    cases outcome <;> exact .pure trivial

/-- A compilation comes to an end, whatever the handler does: the recursion along the tree does not
reach its bound on the nesting, and every higher bound gives the same. -/
theorem compile_terminates (prepared : prepare s f settings = .ok (m, s')) (handler : Handler) :
    m.compile s' handler ≠ .error .stalled ∧
      ∀ p d e t, m.solver.start = .ok (true, p) → Dtree.minFill s' m.nonUnits = .ok (d, e) →
        d.place p = .ok t → ∀ n, nestingBound p t ≤ n →
          tree n t 0 (.first s' p t handler) ≠ .error .stalled ∧
            tree n t 0 (.first s' p t handler) =
              tree (nestingBound p t) t 0 (.first s' p t handler) := by
  have numbered := prepare_numbered prepared
  refine ⟨(compile_finishes numbered).ne_stalled, fun p d e t started built placed n le => ?_⟩
  obtain ⟨steady, count⟩ := numbered.start.answer _ started rfl
  have measured := Dtree.minFill_finishes.answer _ built
  obtain ⟨_, layered⟩ := (Dtree.place_finishes measured).answer _ placed
  have goes : tree (nestingBound p t) t 0 (.first s' p t handler) ≠ .error .stalled :=
    (search_finishes steady count layered).ne_stalled
  have same := tree_outlasts le goes
  exact ⟨same ▸ goes, same⟩

/-- Three expansions, two of which have a branch that fails. -/
theorem compile_terminates_knot : ∃ m s' p d e t f c, prepare knot.2 knot.1 {} = .ok (m, s') ∧
    m.compile s' .never ≠ .error .stalled ∧ m.solver.start = .ok (true, p) ∧
      Dtree.minFill s' m.nonUnits = .ok (d, e) ∧ d.place p = .ok t ∧ c.expansions = 3 ∧
        ∀ n, nestingBound p t ≤ n → tree n t 0 (.first s' p t .never) = .ok (.compiled f, c) := by
  have ran : Delivers (prepare knot.2 knot.1 {}) fun x => Delivers x.1.solver.start fun y => y.1 = true ∧
      Delivers (Dtree.minFill x.2 x.1.nonUnits) fun z => Delivers (z.1.place y.2) fun t =>
        Delivers (tree (nestingBound y.2 t) t 0 (.first x.2 y.2 t .never)) fun w =>
          w.1 ≠ .cancelled ∧ w.2.expansions = 3 := by decide +kernel
  obtain ⟨⟨m, s'⟩, prepared, ⟨_, p⟩, start, rfl, ⟨d, e⟩, built, t, place, ⟨outcome, c⟩, run, goes, count⟩ := ran
  obtain ⟨whole, terminates⟩ := compile_terminates prepared .never
  cases outcome with
  | cancelled => exact absurd rfl goes
  | compiled f =>
    exact ⟨m, s', p, d, e, t, f, c, prepared, whole, start, built, place, count, fun n le =>
      (terminates p d e t start built place n le).2.trans run⟩

end Compiler

end ModelCounting
