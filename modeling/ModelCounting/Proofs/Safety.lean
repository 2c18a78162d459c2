import ModelCounting.Proofs.Placement
import ModelCounting.Proofs.Termination

/-!
Compilations do not fail. The recursion decides unassigned variables only, and only where no conflict
is open. A branch that fails leaves a lesson for a lower level, and every frame on the way hands the
failure on, so the lesson is asserted where the levels above its own have just been closed: there it
is unit. Each nested expansion of a node assigns one more variable of its separator, so there is room
for its results.
-/

namespace ModelCounting

namespace Dtree

variable {t : PlacedTree} {n v : Nat} {value value' : Lit → Truth}

def boundary : PlacedTree → List Nat
  | .leaf _ => []
  | .node d _ _ => d.separator

def spent (value : Lit → Truth) (t : PlacedTree) : Nat :=
  t.boundary.countP fun i => value (.of ⟨i⟩ true) ≠ .undef

theorem Sited.boundary_le (sited : t.Sited n) : t.boundary.length ≤ t.widest := by
  cases t with
  | leaf l => exact Nat.zero_le _
  | node d left right =>
    obtain ⟨_, _, _, _, widest⟩ := sited
    change d.separator.length ≤ d.widest
    omega

theorem spent_le (value : Lit → Truth) (t : PlacedTree) : t.spent value ≤ t.boundary.length :=
  List.countP_le_length

theorem spent_lt (kept : ∀ l, value l ≠ .undef → value' l ≠ .undef) (member : v ∈ t.boundary)
    (free : value (.of ⟨v⟩ true) = .undef) (assigned : value' (.of ⟨v⟩ true) ≠ .undef) :
    t.spent value < t.spent value' := by
  unfold spent
  obtain ⟨before, after, split⟩ := List.append_of_mem member
  have fewer (is : List Nat) : is.countP (fun i => value (.of ⟨i⟩ true) ≠ .undef) ≤
      is.countP fun i => value' (.of ⟨i⟩ true) ≠ .undef :=
    List.countP_mono_left fun i _ some => by simpa using kept _ (by simpa using some)
  have := fewer before
  have := fewer after
  simp only [split, List.countP_append, List.countP_cons, free, assigned, ne_eq, not_true_eq_false,
    not_false_eq_true, decide_false, decide_true, Bool.false_eq_true, if_false, if_true] at *
  omega

end Dtree

namespace Compilation

variable {Γ : List (List Lit)} {c c' : Compilation} {t left right : PlacedTree} {nested u n : Nat}
  {v : Var} {phase : Bool} {step : CompilationStep} {compile : PlacedTree → CompilationStep}
  {implied : Formula}

/-- A call of the recursion that can be made. -/
structure Admits (Γ : List (List Lit)) (t : PlacedTree) (nested : Nat) (c : Compilation) : Prop where
  calm : c.solver.Calm Γ
  sited : t.Sited c.solver.core.varCount
  row : t.depth < c.workspace.rows
  column : t.widest < c.workspace.columns
  nested_le : nested ≤ t.spent c.solver.value

/-- How a call ends: the levels are those of before, and unless the result is the falsum no conflict
is open. -/
structure Ends (Γ : List (List Lit)) (c : Compilation) (x : Outcome × Compilation) : Prop where
  leads : c.Leads x.2
  room : x.2.workspace = c.workspace
  failed : x.2.solver.Failed Γ
  calm : x.1 ≠ .compiled .falsum → x.2.solver.Calm Γ

def Serves (Γ : List (List Lit)) (u : Nat) (t : PlacedTree) (nested : Nat) (step : CompilationStep) :
    Prop :=
  ∀ c, c.Admits Γ t nested → c.undecided ≤ u → Delivers (step c) (c.Ends Γ)

theorem Ends.of_calm {x : Outcome × Compilation} (calm : x.2.solver.Calm Γ)
    (core : x.2.solver.core = c.solver.core) (room : x.2.workspace = c.workspace) : c.Ends Γ x :=
  ⟨.of_core calm.failed.steady core, room, calm.failed, fun _ => calm⟩

theorem Ends.trans {x : Outcome × Compilation} (leads : c.Leads c') (room : c'.workspace = c.workspace)
    (ends : c'.Ends Γ x) : c.Ends Γ x :=
  ⟨leads.trans ends.leads, ends.room.trans room, ends.failed, ends.calm⟩

theorem grows_kept {p q : Stepper} (grows : p.core.trail.Grows q.core.trail)
    (wf : p.core.trail.WellFormed) (wf' : q.core.trail.WellFormed) (l : Lit)
    (some : p.value l ≠ .undef) : q.value l ≠ .undef := fun none =>
  some ((Trail.value_of_var _ _).mpr (grows.undef_mono wf wf' ((Trail.value_of_var _ _).mp none)))

/-! Leaves and choices. -/

theorem leafTerms_delivers {value : Lit → Truth} {name : Lit → Except Fault Lit} {ls : List Lit}
    {negated : List Formula} {s : Store} (named : ∀ l ∈ ls, Delivers (name l) fun _ => True) :
    Delivers (leafTerms value name ls negated s) fun _ => True := by
  induction ls generalizing negated s with
  | nil => exact .ok trivial
  | cons l ls ih =>
    have others := fun m member => named m (List.mem_cons_of_mem l member)
    unfold leafTerms
    split
    · exact .ok trivial
    · exact ih others
    · refine (named l List.mem_cons_self).bind fun m _ _ => ?_
      refine (ih others).bind fun ⟨terms, s⟩ _ _ => ?_
      cases terms <;> exact .pure trivial

theorem leaf_answers {l : PlacedLeaf}
    (named : ∀ m ∈ l.lits, Delivers (c.solver.litOf m) fun _ => True) :
    Delivers (c.leaf l) fun x => x.2.solver = c.solver ∧ x.2.workspace = c.workspace := by
  refine (leafTerms_delivers named).bind fun ⟨terms, s⟩ _ _ => ?_
  cases terms <;> exact .pure ⟨rfl, rfl⟩

theorem leaf_delivers {l : PlacedLeaf} (calm : c.solver.Calm Γ)
    (sited : Dtree.Sited c.solver.core.varCount (.leaf l)) :
    Delivers (c.leaf l) fun x => x.2.solver = c.solver ∧ x.2.workspace = c.workspace := by
  refine leaf_answers fun m member => Stepper.litOf_delivers ?_
  rw [← calm.count]
  exact sited.1 m member

theorem reserve_delivers {w : Workspace} {depth : Nat} (row : depth < w.rows)
    (column : nested < w.columns) : Delivers (w.reserve depth nested) fun _ => True :=
  ⟨(), if_pos ⟨row, column⟩, trivial⟩

theorem Admits.nested_lt (admits : c.Admits Γ t nested) : nested < c.workspace.columns := by
  have := Dtree.spent_le c.solver.value t
  have := admits.sited.boundary_le
  have := admits.nested_le
  have := admits.column
  omega

structure Entered (Γ : List (List Lit)) (t : PlacedTree) (nested : Nat) (c : Compilation) : Prop
    extends Admits Γ t nested c where
  shared : ∀ i, c.separator.contains i = true → i ∈ t.boundary ∧ i < c.solver.core.varCount ∧
    c.solver.core.trail.valueVar ⟨i⟩ = .undef

theorem Admits.enter (admits : c.Admits Γ t nested) :
    Delivers (c.enter t) fun x => x.2.Entered Γ t nested ∧ c.Leads x.2 ∧
      x.2.workspace = c.workspace := by
  have reported : Delivers (c.solver.newlyImplied t.vars c.store) _ := admits.calm.newlyImplied
  obtain ⟨⟨f, p, s⟩, run, same⟩ := reported
  simp only at same
  subst same
  have calm : { c.solver with unreported := false }.Calm Γ :=
    ⟨⟨admits.calm.core, admits.calm.drained, admits.calm.count, admits.calm.words⟩,
      admits.calm.drawn, admits.calm.untaught, admits.calm.unleveled⟩
  unfold Compilation.enter
  simp only [run]
  refine .ok ⟨⟨⟨calm, admits.sited, admits.row, admits.column, admits.nested_le⟩, fun i member => ?_⟩,
    .of_core calm.failed.steady rfl, rfl⟩
  obtain ⟨d, left, right, rfl, inside, below, l, rfl, free⟩ := admits.sited.separator member
  exact ⟨inside, below, (Trail.value_of_var _ _).mp free⟩

structure Candidate (t : PlacedTree) (v : Var) (c : Compilation) : Prop where
  member : v.id ∈ t.boundary
  inside : v.id < c.solver.core.varCount
  free : c.solver.core.trail.valueVar v = .undef

theorem Entered.chooses_shared (entered : c.Entered Γ t nested)
    (shared : c.separator.isEmpty = false) :
    Delivers (c.chooseVariable t nested) fun v => c.separator.contains v.id = true := by
  unfold Compilation.chooseVariable
  refine (reserve_delivers entered.row entered.nested_lt).bind fun _ _ _ => ?_
  have size : (Array.ofFn fun i : Fin c.solver.varCount =>
      if c.separator.contains i then (0 : Int) else -1).size = c.solver.core.varCount := by
    rw [Array.size_ofFn, entered.calm.count]
    rfl
  refine (entered.sited.countOccurrences size).bind fun counts _ ⟨_, natural⟩ => .pure ?_
  have some : c.separator.toList ≠ [] := by
    intro none
    refine absurd (IndexSet.isEmpty_iff.mpr fun i => ?_) (Bool.eq_false_iff.mp shared)
    by_contra member
    have := IndexSet.mem_toList.mpr (Bool.not_eq_false _ ▸ member)
    simp [none] at this
  have chosen := mostFrequent_mem some fun i member => by
    have here := IndexSet.mem_toList.mp member
    have below : i < c.solver.varCount := by
      rw [Stepper.varCount, ← entered.calm.count]
      exact (entered.shared i here).2.1
    refine natural i ?_
    simp [Array.getD_eq_getD_getElem?, below, here]
  exact IndexSet.mem_toList.mp chosen

theorem Entered.chooseVariable (entered : c.Entered Γ t nested)
    (shared : c.separator.isEmpty = false) :
    Delivers (c.chooseVariable t nested) (Candidate t · c) :=
  (entered.chooses_shared shared).mono fun v chosen => by
    obtain ⟨member, inside, free⟩ := entered.shared v.id chosen
    exact ⟨member, inside, free⟩

/-! Branches and retries. -/

/-- How a branch ends: its level is closed, and what was unassigned is so again. -/
structure Closes (Γ : List (List Lit)) (c : Compilation) (x : Outcome × Compilation) : Prop where
  leads : c.Leads x.2
  room : x.2.workspace = c.workspace
  recovered : x.2.solver.Recovered Γ
  calm : x.1 ≠ .compiled .falsum → x.2.solver.Calm Γ
  free : ∀ w, c.solver.core.trail.valueVar w = .undef → x.2.solver.core.trail.valueVar w = .undef

theorem undo_closes {result : Outcome} (c' : Compilation) (wf : c.solver.core.trail.WellFormed)
    (grows : c.solver.core.trail.openLevel.Grows c'.solver.core.trail)
    (room : c'.workspace = c.workspace) (failed : c'.solver.Failed Γ)
    (calm : result ≠ .compiled .falsum → c'.solver.Calm Γ) :
    Delivers (do
      let solver ← c'.solver.undo v
      return (result, { c' with solver })) (c.Closes Γ) := by
  have depth : c'.solver.core.depth = c.solver.core.depth + 1 := by
    rw [Solver.depth, grows.depth_eq, Trail.depth, Trail.openLevel, Array.size_push]
    rfl
  have above : 0 < c'.solver.core.depth := by omega
  have undone : Delivers (c'.solver.undo v) fun q => (q.Recovered Γ ∧
      c'.solver.core.trail.Lowered (c'.solver.core.depth - 1) q.core.trail) ∧
        (result ≠ .compiled .falsum → q.Calm Γ) := by
    refine (failed.undo above).and fun q run some => ?_
    obtain ⟨q', run', calm', _⟩ := (calm some).undo (v := v) above
    obtain rfl := Except.ok.inj (run.symm.trans run')
    exact calm'
  refine undone.bind ?_
  rintro q _ ⟨⟨recovered, lowered⟩, calm'⟩
  refine .pure ?_
  rw [depth, Nat.add_sub_cancel] at lowered
  have grown := grows.closed wf lowered
  have size := grows.closed_size lowered
  exact ⟨⟨recovered.steady, grown⟩, room, recovered, calm', fun w =>
    grown.undef_of_size wf recovered.core.engine.trail size⟩

/-- The call below a decision: the decided variable is spent. -/
theorem Admits.decided {p : Stepper} (admits : c.Admits Γ t nested) (candidate : Candidate t v c)
    (calm : p.Calm Γ) (grows : c.solver.core.trail.openLevel.Grows p.core.trail)
    (assigned : Lit.of v phase ∈ p.core.trail.lits) :
    { c with solver := p }.Admits Γ t (nested + 1) ∧
      undecided { c with solver := p } < c.undecided := by
  have wf := admits.calm.core.engine.trail
  have wf' := calm.core.engine.trail
  have opened := wf.openLevel admits.calm.drained
  have spent : t.spent c.solver.value < t.spent p.value := by
    refine Dtree.spent_lt (fun l some none => some ?_) candidate.member ?_ fun none => ?_
    · exact (Trail.value_of_var _ _).mpr
        (grows.undef_mono opened wf' ((Trail.value_of_var _ _).mp none))
    · exact (Trail.value_of_var _ _).mpr (by simpa using candidate.free)
    · have none := (Trail.value_of_var _ _).mp none
      rw [Lit.var_of] at none
      exact (wf'.undef_iff v).mp none _ assigned (Lit.var_of _ _)
  refine ⟨⟨calm, ?_, admits.row, admits.column, Nat.lt_of_le_of_lt admits.nested_le spent⟩,
    undecided_lt calm.failed.steady grows.varCount_eq ?_⟩
  · exact (show p.core.varCount = _ from grows.varCount_eq) ▸ admits.sited
  -- The decided literal was not on the trail.
  · refine Nat.lt_of_le_of_ne grows.size_le fun same => ?_
    have free := grows.undef_of_size (v := v) opened wf' same.symm candidate.free
    exact (wf'.undef_iff v).mp free _ assigned (Lit.var_of _ _)

theorem branch_delivers (admits : c.Admits Γ t nested) (candidate : Candidate t v c)
    (le : c.undecided ≤ u) (below : ∀ k < u, Serves Γ k t (nested + 1) step) :
    Delivers (branch step v phase c) (c.Closes Γ) := by
  have wf := admits.calm.core.engine.trail
  have decided : Delivers (c.solver.decide v phase) _ :=
    admits.calm.decide candidate.inside candidate.free
  refine decided.bind fun ⟨consistent, p⟩ _ ⟨failed, calm, grows, assigned⟩ => ?_
  simp only at failed calm grows assigned
  cases consistent with
  | false =>
    exact undo_closes { c with solver := p } wf grows rfl failed fun some => absurd rfl some
  | true =>
    obtain ⟨admits', fewer⟩ := admits.decided candidate (calm rfl) grows assigned
    refine (below _ (Nat.lt_of_lt_of_le fewer le) _ admits' (Nat.le_refl _)).bind
      fun ⟨result, c₁⟩ _ ends => ?_
    exact undo_closes c₁ wf (grows.trans ends.leads.grows) ends.room ends.failed ends.calm

theorem Admits.congr (admits : c.Admits Γ t nested) (calm : c'.solver.Calm Γ) (leads : c.Leads c')
    (room : c'.workspace = c.workspace) : c'.Admits Γ t 0 :=
  ⟨calm, (show c'.solver.core.varCount = _ from leads.grows.varCount_eq) ▸ admits.sited,
    room ▸ admits.row, room ▸ admits.column, Nat.zero_le _⟩

theorem Closes.admits {f : Formula} (closes : c.Closes Γ (.compiled f, c'))
    (admits : c.Admits Γ t nested) (candidate : Candidate t v c) (some : f ≠ .falsum) :
    c'.Admits Γ t nested ∧ Candidate t v c' := by
  have calm : c'.solver.Calm Γ := closes.calm fun same => some (Outcome.compiled.inj same)
  have count : c'.solver.core.varCount = c.solver.core.varCount := closes.leads.grows.varCount_eq
  have spent : t.spent c.solver.value ≤ t.spent c'.solver.value :=
    List.countP_mono_left fun i _ assigned => by
      simpa using grows_kept closes.leads.grows admits.calm.core.engine.trail
        calm.core.engine.trail _ (by simpa using assigned)
  exact ⟨{ admits.congr calm closes.leads closes.room with
      nested_le := Nat.le_trans admits.nested_le spent },
    ⟨candidate.member, count ▸ candidate.inside, closes.free v candidate.free⟩⟩

theorem Admits.taught {c₀ : Compilation} {p : Stepper} (admits : c₀.Admits Γ t nested)
    (leads : c₀.Leads c) (room : c.workspace = c₀.workspace) (recovered : c.solver.Recovered Γ)
    (learn : c.solver.assertLesson = .ok (true, p)) (calm : p.Calm Γ) :
    { c with solver := p }.Admits Γ t 0 ∧ c.Leads { c with solver := p } ∧
      undecided { c with solver := p } < c.undecided := by
  obtain ⟨steady, grows, more⟩ := recovered.steady.assertLesson.answer _ learn
  have count : p.core.varCount = c₀.solver.core.varCount :=
    (grows.varCount_eq : p.core.varCount = _).trans leads.grows.varCount_eq
  refine ⟨⟨calm, count ▸ admits.sited, ?_, ?_, Nat.zero_le _⟩, ⟨steady, grows⟩,
    undecided_lt steady grows.varCount_eq more⟩
  · exact room ▸ admits.row
  · exact room ▸ admits.column

theorem retry_delivers {c₀ : Compilation} (admits : c₀.Admits Γ t nested) (leads : c₀.Leads c)
    (room : c.workspace = c₀.workspace) (recovered : c.solver.Recovered Γ) (le : c.undecided ≤ u)
    (below : ∀ k < u, Serves Γ k t 0 step) : Delivers (retry step c) (c.Ends Γ) := by
  unfold retry
  split
  · rename_i level
    refine (recovered.assertLesson level).bind fun ⟨consistent, p⟩ learn ⟨failed, calm⟩ => ?_
    cases consistent with
    | false =>
      obtain ⟨steady, grows, _⟩ := recovered.steady.assertLesson.answer _ learn
      exact .pure ⟨⟨steady, grows⟩, rfl, failed, fun some => absurd rfl some⟩
    | true =>
      obtain ⟨admits', leads', fewer⟩ := admits.taught leads room recovered learn (calm rfl)
      exact (below _ (Nat.lt_of_lt_of_le fewer le) _ admits' (Nat.le_refl _)).mono
        fun x ends => ends.trans leads' rfl
  · rename_i level
    exact .ok ⟨.of_core recovered.steady rfl, rfl, recovered.failed (Bool.eq_false_iff.mpr level),
      fun some => absurd rfl some⟩

/-! Parts. -/

theorem Admits.below {d : PlacedInner} (admits : c.Admits Γ (.node d left right) nested)
    (layered : (Dtree.node d left right).Layered Dtree.depth) :
    c.Admits Γ left 0 ∧ c.Admits Γ right 0 := by
  obtain ⟨⟨first, _⟩, second, _⟩ := layered
  obtain ⟨⟨sited, sited'⟩, _, _, _, widest⟩ := admits.sited
  have row := admits.row
  have column : d.widest < c.workspace.columns := admits.column
  exact ⟨⟨admits.calm, sited, by omega, by omega, Nat.zero_le _⟩,
    ⟨admits.calm, sited', by omega, by omega, Nat.zero_le _⟩⟩

theorem Admits.looked (admits : c.Admits Γ t nested) : (c.looked t).Admits Γ t nested :=
  ⟨admits.calm, admits.sited, admits.row, admits.column, admits.nested_le⟩

theorem looked_undecided : (c.looked t).undecided = c.undecided := rfl

theorem part_delivers (admits : c.Admits Γ t 0) (column : nested < c.workspace.columns)
    (le : c.undecided ≤ u) (below : Serves Γ u t 0 (compile t)) :
    Delivers (part compile nested t c) (c.Ends Γ) := by
  cases t with
  | leaf l =>
    refine (leaf_delivers admits.calm admits.sited).bind ?_
    rintro ⟨f, c₁⟩ _ ⟨solver, room⟩
    refine .pure ?_
    exact .of_calm (solver ▸ admits.calm) (congrArg Stepper.core solver) room
  | node d left right =>
    change Delivers (cached _ _ nested c) _
    unfold cached
    refine (reserve_delivers admits.row column).bind fun _ _ _ => ?_
    simp only
    split
    · exact .pure (.of_calm admits.calm rfl rfl)
    · refine (below (c.looked _) admits.looked le).bind ?_
      rintro ⟨outcome, c₁⟩ _ ends
      cases outcome with
      | cancelled => exact .pure ⟨⟨ends.leads.steady, ends.leads.grows⟩, ends.room, ends.failed, ends.calm⟩
      | compiled f =>
        simp only
        split <;>
          exact .pure ⟨⟨ends.leads.steady, ends.leads.grows⟩, ends.room, ends.failed, ends.calm⟩

theorem Ends.conj {f : Formula} {fs : List Formula} (ends : c.Ends Γ (.compiled f, c'))
    (some : f ≠ .falsum) : c.Ends Γ (c'.conj fs) := by
  have calm := ends.calm fun same => some (Outcome.compiled.inj same)
  exact ⟨⟨ends.leads.steady, ends.leads.grows⟩, ends.room, ends.failed, fun _ => calm⟩

theorem conjoin_delivers (left_admits : c.Admits Γ left 0) (right_admits : c.Admits Γ right 0)
    (column : nested < c.workspace.columns) (le : c.undecided ≤ u)
    (first : Serves Γ u left 0 (compile left)) (second : Serves Γ u right 0 (compile right)) :
    Delivers (conjoin compile nested implied left right c) (c.Ends Γ) := by
  unfold conjoin
  split
  · exact .pure (.of_calm left_admits.calm rfl rfl)
  refine (part_delivers left_admits column le first).bind fun ⟨outcome, c₁⟩ _ ends => ?_
  cases outcome with
  | cancelled => exact .pure ends
  | compiled l =>
    simp only
    split
    · rename_i falsum
      exact .pure (falsum ▸ ends)
    rename_i some
    have calm := ends.calm fun same => some (Outcome.compiled.inj same)
    have admits := right_admits.congr calm ends.leads ends.room
    refine (part_delivers admits (ends.room ▸ column) (Nat.le_trans ends.leads.undecided_le le)
      second).bind fun ⟨outcome, c₂⟩ _ ends' => ?_
    have ends := ends'.trans ends.leads ends.room
    cases outcome with
    | cancelled => exact .pure ends
    | compiled r =>
      simp only
      split
      · rename_i falsum
        exact .pure (falsum ▸ ends)
      · exact .pure (ends.conj ‹_›)

/-! Frames. -/

theorem expansion_delivers {f g : Formula} (calm : c.solver.Calm Γ)
    (inside : v.id < c.solver.core.varCount) :
    Delivers (expansion implied v f g c) (c.Ends Γ) :=
  (Stepper.nameOf_delivers (calm.count ▸ inside)).bind fun _ _ _ => .pure (.of_calm calm rfl rfl)

theorem Entered.counted (entered : c.Entered Γ t nested) : c.counted.Entered Γ t nested :=
  ⟨⟨entered.calm, entered.sited, entered.row, entered.column, entered.nested_le⟩,
    entered.shared⟩

theorem frame_delivers {compile : PlacedTree → Nat → CompilationStep}
    (layered : t.Layered Dtree.depth) (entered : c.Entered Γ t nested) (le : c.undecided ≤ u)
    (down : ∀ t', t'.Layered Dtree.depth → t'.depth < t.depth → Serves Γ u t' 0 (compile t' 0))
    (again : ∀ nested, ∀ k < u, Serves Γ k t nested (compile t nested)) :
    Delivers (frame compile t nested implied c) (c.Ends Γ) := by
  have calm := entered.calm
  unfold frame
  split
  · cases t with
    | leaf l =>
      refine (leaf_delivers calm entered.sited).bind fun ⟨f, c₁⟩ _ ⟨solver, room⟩ => .pure ?_
      simp only at solver room
      exact .of_calm (solver ▸ calm) (congrArg Stepper.core solver) room
    | node d left right =>
      obtain ⟨first, second⟩ := entered.toAdmits.below layered
      obtain ⟨⟨below, layered⟩, below', layered'⟩ := layered
      exact conjoin_delivers first second entered.nested_lt le (down left layered below)
        (down right layered' below')
  · rename_i shared
    refine (entered.chooseVariable (Bool.eq_false_iff.mpr shared)).bind
      fun v _ ⟨member, inside, free⟩ => ?_
    have candidate : Candidate t v c.counted := ⟨member, inside, free⟩
    have counted : c.Leads c.counted := .of_core calm.failed.steady rfl
    have entered := entered.counted
    split
    · exact .pure (.of_calm calm rfl rfl)
    refine (branch_delivers entered.toAdmits candidate le (again _)).bind
      fun ⟨outcome, c₁⟩ _ yes => ?_
    have leads := counted.trans yes.leads
    have le₁ := Nat.le_trans leads.undecided_le le
    cases outcome with
    | cancelled => exact .pure ⟨leads, yes.room, (yes.calm nofun).failed, yes.calm⟩
    | compiled positive =>
      simp only
      split
      · exact (retry_delivers entered.toAdmits yes.leads yes.room yes.recovered le₁ (again 0)).mono
          fun x ends => ends.trans leads yes.room
      rename_i some
      obtain ⟨admits₁, candidate₁⟩ := yes.admits entered.toAdmits candidate some
      refine (branch_delivers admits₁ candidate₁ le₁ (again _)).bind fun ⟨outcome, c₂⟩ _ no => ?_
      have leads := leads.trans no.leads
      have room : c₂.workspace = c.workspace := no.room.trans yes.room
      have le₂ := Nat.le_trans leads.undecided_le le
      cases outcome with
      | cancelled => exact .pure ⟨leads, room, (no.calm nofun).failed, no.calm⟩
      | compiled negative =>
        simp only
        split
        · exact (retry_delivers admits₁ no.leads no.room no.recovered le₂ (again 0)).mono
            fun x ends => ends.trans leads room
        · rename_i some'
          have calm₂ := no.calm fun same => some' (Outcome.compiled.inj same)
          have count₂ : c₂.solver.core.varCount = c.solver.core.varCount := leads.grows.varCount_eq
          exact (expansion_delivers calm₂ (count₂ ▸ inside)).mono fun x ends => ends.trans leads room

theorem tree_delivers (layered : t.Layered Dtree.depth) (enough : u + t.depth < n) :
    Serves Γ u t nested (tree n t nested) := by
  induction n generalizing t nested u with
  | zero => omega
  | succ n ih =>
    intro c admits le
    rw [tree_succ]
    refine admits.enter.bind fun ⟨implied, c₁⟩ _ ⟨entered, leads, room⟩ => ?_
    have le₁ := Nat.le_trans leads.undecided_le le
    refine (frame_delivers layered entered le₁ (fun t' layered' below => ?_)
      (fun nested k less => ?_)).mono fun _ ends => ends.trans leads room
    · exact ih layered' (by omega)
    · exact ih layered (by omega)

/-! Calls. -/

/-- A call of the recursion: its bound on the nesting, what it compiles, and the state. -/
structure Call where
  bound : Nat
  tree : PlacedTree
  nested : Nat
  state : Compilation

namespace Call

/-- The branches that a call compiles: the variable it expands, the phase, and the state before. -/
inductive Branches : Call → Var → Bool → Compilation → Prop
  | positive {c c₁ : Compilation} {implied : Formula} {t : PlacedTree} {n nested : Nat} {v : Var}
      (enter : c.enter t = .ok (implied, c₁)) (shared : c₁.separator.isEmpty = false)
      (choice : c₁.chooseVariable t nested = .ok v) (granted : c₁.handler.expand.1 = true) :
      Branches ⟨n + 1, t, nested, c⟩ v true c₁.counted
  | negative {c c₁ c₂ : Compilation} {f : Formula} {t : PlacedTree} {n nested : Nat} {v : Var}
      (before : Branches ⟨n + 1, t, nested, c⟩ v true c₁)
      (positive : branch (Compilation.tree n t (nested + 1)) v true c₁ = .ok (.compiled f, c₂))
      (some : f ≠ .falsum) : Branches ⟨n + 1, t, nested, c⟩ v false c₂

/-- The states in which a call finds one of its branches failed. -/
inductive Retries : Call → Compilation → Prop
  | intro {c c₁ c₂ : Compilation} {t : PlacedTree} {n nested : Nat} {v : Var} {phase : Bool}
      (before : Branches ⟨n + 1, t, nested, c⟩ v phase c₁)
      (failed : branch (Compilation.tree n t (nested + 1)) v phase c₁ =
        .ok (.compiled .falsum, c₂)) : Retries ⟨n + 1, t, nested, c⟩ c₂

/-- The independent parts that a call compiles. -/
inductive Parts : Call → PlacedTree → Compilation → Prop
  | left {c c₁ : Compilation} {implied : Formula} {d : PlacedInner} {left right : PlacedTree}
      {n nested : Nat} (enter : c.enter (.node d left right) = .ok (implied, c₁))
      (apart : c₁.separator.isEmpty = true) (some : implied ≠ .falsum) :
      Parts ⟨n + 1, .node d left right, nested, c⟩ left c₁
  | right {c c₁ c₂ : Compilation} {implied f : Formula} {d : PlacedInner} {left right : PlacedTree}
      {n nested : Nat} (enter : c.enter (.node d left right) = .ok (implied, c₁))
      (apart : c₁.separator.isEmpty = true) (some : implied ≠ .falsum)
      (first : part (Compilation.tree n · 0) nested left c₁ = .ok (.compiled f, c₂))
      (some' : f ≠ .falsum) : Parts ⟨n + 1, .node d left right, nested, c⟩ right c₂

/-- The calls that a call makes: for its branches, again after a lesson, and for the parts that were
not compiled before. -/
inductive Makes : Call → Call → Prop
  | branch {c c₁ : Compilation} {p : Stepper} {t : PlacedTree} {n nested : Nat} {v : Var}
      {phase : Bool} (before : Branches ⟨n + 1, t, nested, c⟩ v phase c₁)
      (decide : c₁.solver.decide v phase = .ok (true, p)) :
      Makes ⟨n + 1, t, nested, c⟩ ⟨n, t, nested + 1, { c₁ with solver := p }⟩
  | again {c c₁ : Compilation} {p : Stepper} {t : PlacedTree} {n nested : Nat}
      (failed : Retries ⟨n + 1, t, nested, c⟩ c₁) (level : c₁.solver.atAssertionLevel = true)
      (learn : c₁.solver.assertLesson = .ok (true, p)) :
      Makes ⟨n + 1, t, nested, c⟩ ⟨n, t, 0, { c₁ with solver := p }⟩
  | part {c c₁ : Compilation} {t left right : PlacedTree} {d : PlacedInner} {n nested : Nat}
      (before : Parts ⟨n + 1, t, nested, c⟩ (.node d left right) c₁)
      (missing : c₁.cache.find? (c₁.key (.node d left right)) = none) :
      Makes ⟨n + 1, t, nested, c⟩ ⟨n, .node d left right, 0, c₁.looked (.node d left right)⟩

structure Safe (Γ : List (List Lit)) (a : Call) : Prop where
  layered : a.tree.Layered Dtree.depth
  admits : a.state.Admits Γ a.tree a.nested
  enough : a.state.undecided + a.tree.depth < a.bound

variable {a b : Call}

theorem Safe.delivers (safe : a.Safe Γ) :
    Delivers (Compilation.tree a.bound a.tree a.nested a.state) (a.state.Ends Γ) :=
  tree_delivers safe.layered safe.enough a.state safe.admits (Nat.le_refl _)

theorem Safe.again (safe : Safe Γ ⟨n + 1, t, nested, c⟩) (m : Nat) :
    ∀ k < c.undecided, Serves Γ k t m (Compilation.tree n t m) := fun k less => by
  have enough : c.undecided + t.depth < n + 1 := safe.enough
  exact tree_delivers safe.layered (by omega)

theorem Safe.down (safe : Safe Γ ⟨n + 1, t, nested, c⟩) {t' : PlacedTree}
    (layered : t'.Layered Dtree.depth) (below : t'.depth < t.depth) :
    Serves Γ c.undecided t' 0 (Compilation.tree n t' 0) := by
  have enough : c.undecided + t.depth < n + 1 := safe.enough
  exact tree_delivers layered (by omega)

theorem Branches.admits (branches : a.Branches v phase c) (safe : a.Safe Γ) :
    c.Admits Γ a.tree a.nested ∧ Candidate a.tree v c ∧ c.undecided ≤ a.state.undecided := by
  induction branches with
  | positive enter shared choice granted =>
    obtain ⟨entered, leads, _⟩ := safe.admits.enter.answer enter
    obtain ⟨member, inside, free⟩ := (entered.chooseVariable shared).answer choice
    exact ⟨entered.counted.toAdmits, ⟨member, inside, free⟩, leads.undecided_le⟩
  | negative before positive some ih =>
    obtain ⟨admits, candidate, le⟩ := ih safe
    have closes := (branch_delivers admits candidate le (safe.again _)).answer positive
    obtain ⟨admits', candidate'⟩ := closes.admits admits candidate some
    exact ⟨admits', candidate', Nat.le_trans closes.leads.undecided_le le⟩

theorem Retries.closes (retries : a.Retries c) (safe : a.Safe Γ) :
    ∃ c₀ : Compilation, c₀.Admits Γ a.tree a.nested ∧ c₀.undecided ≤ a.state.undecided ∧
      c₀.Closes Γ (.compiled .falsum, c) := by
  obtain ⟨before, failed⟩ := retries
  obtain ⟨admits, candidate, le⟩ := before.admits safe
  exact ⟨_, admits, le, (branch_delivers admits candidate le (safe.again _)).answer failed⟩

theorem Parts.admits (parts : a.Parts t c) (safe : a.Safe Γ) :
    c.Admits Γ t 0 ∧ t.Layered Dtree.depth ∧ t.depth < a.tree.depth ∧
      c.undecided ≤ a.state.undecided := by
  cases parts with
  | left enter apart some =>
    obtain ⟨entered, leads, _⟩ := safe.admits.enter.answer enter
    obtain ⟨⟨below, layered⟩, _⟩ := safe.layered
    exact ⟨(entered.toAdmits.below safe.layered).1, layered, below, leads.undecided_le⟩
  | right enter apart some first some' =>
    obtain ⟨entered, leads, _⟩ := safe.admits.enter.answer enter
    obtain ⟨left_admits, right_admits⟩ := entered.toAdmits.below safe.layered
    obtain ⟨⟨left_below, left_layered⟩, below, layered⟩ := safe.layered
    have ends := (part_delivers left_admits entered.nested_lt leads.undecided_le
      (safe.down left_layered left_below)).answer first
    have calm := ends.calm fun same => some' (Outcome.compiled.inj same)
    exact ⟨right_admits.congr calm ends.leads ends.room, layered, below,
      Nat.le_trans ends.leads.undecided_le leads.undecided_le⟩

/-- A safe call makes safe calls only. -/
theorem Makes.safe (makes : a.Makes b) (safe : a.Safe Γ) : b.Safe Γ := by
  cases makes with
  | branch before decide =>
    obtain ⟨admits, candidate, le⟩ := before.admits safe
    obtain ⟨_, calm, grows, assigned⟩ :=
      (admits.calm.decide candidate.inside candidate.free).answer decide
    obtain ⟨admits', fewer⟩ := admits.decided candidate (calm rfl) grows assigned
    refine ⟨safe.layered, admits', ?_⟩
    have := safe.enough
    simp only at *
    omega
  | again failed level learn =>
    obtain ⟨c₀, admits, le, closes⟩ := failed.closes safe
    obtain ⟨_, calm⟩ := (closes.recovered.assertLesson level).answer learn
    obtain ⟨admits', _, fewer⟩ := admits.taught closes.leads closes.room closes.recovered learn (calm rfl)
    refine ⟨safe.layered, admits', ?_⟩
    have := safe.enough
    have := closes.leads.undecided_le
    simp only at *
    omega
  | part before missing =>
    obtain ⟨admits, layered, below, le⟩ := before.admits safe
    refine ⟨layered, admits.looked, ?_⟩
    have := safe.enough
    simp only [looked_undecided] at *
    omega

theorem Safe.reaches (safe : a.Safe Γ) (calls : Relation.ReflTransGen Makes a b) : b.Safe Γ := by
  induction calls with
  | refl => exact safe
  | tail _ makes ih => exact makes.safe ih

end Call

end Compilation

/-! Prepared clauses. -/

namespace Compiler

open Compilation

variable {Γ : List (List Lit)} {s s' : Store} {f : Formula} {settings : Settings} {m : Compiler}
  {p : Stepper} {handler : Handler}

/-- Clauses that can be compiled: the solver knows the variables of all that are no literals. -/
structure Ready (m : Compiler) (s : Store) : Prop where
  wellFormed : s.WellFormed
  mem : m.nonUnits ∈ s
  cnf : s.isCnf m.nonUnits = true
  given : m.solver.Given
  fits : m.solver.NamesIn fun v => 2 * v.id + 1 < Node.wordLimit
  numbered : ∀ v ∈ s.vars m.nonUnits, m.solver.numbers[v]? ≠ none
  unused : m.used = false

theorem prepare_fresh (run : prepare s f settings = .ok (m, s')) :
    m.used = false ∧ m.stats = {} := by
  unfold prepare at run
  split at run
  · cases run
  simp only [bind_ok, Prod.exists] at run
  obtain ⟨_, _, _, _, _, _, _, _, rest⟩ := run
  cases rest
  exact ⟨rfl, rfl⟩

theorem prepare_ready (wf : s.WellFormed) (known : f ∈ s)
    (run : prepare s f settings = .ok (m, s')) : m.Ready s' := by
  obtain ⟨grows, prepared⟩ := prepare_prepared wf known run
  obtain ⟨s₂, s₃, _, simplified, _, added, _⟩ := prepare_simplified wf known run
  obtain ⟨cs, read, _⟩ := Store.clauses_delivers simplified.cnf
  obtain ⟨given, numbered⟩ := (Stepper.Given.fresh settings).add read added
  refine ⟨grows.wellFormed wf, prepared.nonUnits_mem, simplified.isCnf, given,
    fun v member => (prepared.names v member).2, fun v mentioned => ?_, (prepare_fresh run).1⟩
  obtain ⟨c, listed, l, inside, rfl⟩ :=
    ((simplified.wellFormed.clauses_ok simplified.mem read).2 v).mp (simplified.vars_sub mentioned)
  exact numbered c listed l inside

theorem minFill_compound {x : ClauseTree × Elimination} (run : Dtree.minFill s f = .ok x) :
    s.isAtomic f = false := by
  simp only [Dtree.minFill, Dtree.alongOrder, bind_ok] at run
  obtain ⟨_, _, _, built, _⟩ := run
  split at built
  · cases built
  · rename_i fine
    exact (Bool.or_eq_false_iff.mp (Bool.eq_false_iff.mpr fine)).2

theorem Ready.started (ready : m.Ready s) (run : m.solver.start = .ok (true, p)) :
    (∃ Γ, p.Calm Γ) ∧ p.Numbered ∧ ∀ v ∈ s.vars m.nonUnits, p.numbers[v]? ≠ none := by
  obtain ⟨Γ, calm⟩ := (ready.given.start ready.fits).answer run rfl
  have numbers := Stepper.start_numbers run
  have names := Stepper.start_names run
  have steady := calm.failed.steady
  refine ⟨⟨Γ, calm⟩, ⟨steady.core, calm.count, fun {v i} known => ?_, calm.untaught⟩, ?_⟩
  · rw [calm.count, names, ← ready.given.count]
    exact ready.given.inside (numbers ▸ known)
  · rw [numbers]
    exact ready.numbered

theorem Ready.tree (ready : m.Ready s) (compound : s.isAtomic m.nonUnits = false)
    (start : m.solver.start = .ok (true, p)) :
    Delivers (Dtree.minFill s m.nonUnits) fun x => Delivers (x.1.place p) fun t =>
      t.Sited p.core.varCount ∧ t.Layered Dtree.depth ∧
        (t.leaves.map fun l => l.source.id).Nodup := by
  obtain ⟨_, numbered, known⟩ := ready.started start
  have built := Dtree.minFill_delivers ready.wellFormed ready.mem ready.cnf compound
  refine (built.and Dtree.minFill_finishes.answer).mono fun x ⟨clausal, measured⟩ => ?_
  have placed := Dtree.place_delivers numbered.inside fun l member m' inside =>
    known _ (clausal.vars l member m' inside)
  refine (placed.and (Dtree.place_finishes measured).answer).mono
    fun t ⟨⟨sited, sources, _⟩, _, layered⟩ => ⟨sited, layered, ?_⟩
  have distinct := clausal.distinct
  rw [← sources, List.map_map] at distinct
  exact distinct

theorem Ready.first_safe {d : ClauseTree} {e : Elimination} {t : PlacedTree} (ready : m.Ready s)
    (start : m.solver.start = .ok (true, p)) (calm : p.Calm Γ)
    (tree : Dtree.minFill s m.nonUnits = .ok (d, e)) (place : d.place p = .ok t)
    (handler : Handler) : Call.Safe Γ ⟨nestingBound p t, t, 0, .first s p t handler⟩ := by
  obtain ⟨sited, layered, _⟩ :=
    ((ready.tree (minFill_compound tree) start).answer tree).answer place
  refine ⟨layered, ⟨calm, sited, Nat.lt_succ_self _, Nat.lt_succ_self _, Nat.zero_le _⟩, ?_⟩
  have all : (first s p t handler).undecided ≤ p.varCount := by
    rw [Stepper.varCount, ← calm.count]
    exact Nat.sub_le _ _
  exact Nat.lt_succ_of_le (Nat.add_le_add_right all _)

theorem Ready.safe {d : ClauseTree} {e : Elimination} {t : PlacedTree} (ready : m.Ready s)
    (start : m.solver.start = .ok (true, p)) (tree : Dtree.minFill s m.nonUnits = .ok (d, e))
    (place : d.place p = .ok t) (handler : Handler) :
    ∃ Γ, Call.Safe Γ ⟨nestingBound p t, t, 0, .first s p t handler⟩ := by
  obtain ⟨⟨Γ, calm⟩, _⟩ := ready.started start
  exact ⟨Γ, ready.first_safe start calm tree place handler⟩

theorem Ready.compile (ready : m.Ready s) (handler : Handler) :
    Delivers (m.compile s handler) fun _ => True := by
  unfold Compiler.compile
  rw [ready.unused]
  simp only [Bool.false_eq_true, if_false]
  split
  · exact .pure trivial
  rename_i compound
  refine (ready.given.start ready.fits).bind fun ⟨consistent, p⟩ start _ => ?_
  cases consistent with
  | false => exact .pure trivial
  | true =>
    refine (ready.tree (Bool.eq_false_iff.mpr compound) start).bind fun ⟨d, e⟩ tree placed => ?_
    refine placed.bind fun t place _ => ?_
    obtain ⟨Γ, safe⟩ := ready.safe start tree place handler
    refine Delivers.bind safe.delivers fun ⟨outcome, c⟩ _ _ => ?_
    cases outcome <;> exact .pure trivial

end Compiler

end ModelCounting
