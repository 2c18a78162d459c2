import ModelCounting.Proofs.Determinism
import ModelCounting.Proofs.Placement
import ModelCounting.Proofs.Termination

/-!
What a run does to the results it keeps. They are only ever added. A result is added under the key
that was missed before, and the key can have been added in between only for a subtree with the same
clauses left. Then the sibling of that subtree has none, so it is compiled to the verum and the two
results are one formula. So no result is ever replaced by another.
-/

namespace ModelCounting

/-! Conjunctions with the verum. -/

namespace Store

variable {s : Store} {c : Connective} {f g : Formula} {fs : List Formula}

theorem WellFormed.nodup_flatten (wf : s.WellFormed) (known : f ∈ s) : (s.flatten c f).Nodup := by
  by_cases neutral : f = c.neutral
  · rw [neutral, flatten_neutral]
    exact .nil
  · rcases s.flatten_cases c neutral with ⟨gs, shape, flat⟩ | ⟨_, flat⟩
    · rw [flat]
      exact (wf.operands_of_node known shape).distinct
    · rw [flat]
      exact List.nodup_singleton f

/-- A formula is known by its operands. -/
theorem WellFormed.flatten_inj (wf : s.WellFormed) (hf : f ∈ s) (hg : g ∈ s)
    (same : s.flatten c f = s.flatten c g) : f = g := by
  -- Two operands or more make a junction, one is the formula itself, and none the neutral one.
  have shape {h : Formula} (hh : h ∈ s) : (s.flatten c h = [] ∧ h = c.neutral) ∨
      (2 ≤ (s.flatten c h).length ∧ s.node h = c.node (s.flatten c h)) ∨ s.flatten c h = [h] := by
    by_cases neutral : h = c.neutral
    · exact .inl ⟨neutral ▸ s.flatten_neutral c, neutral⟩
    · rcases s.flatten_cases c neutral with ⟨gs, shape, flat⟩ | ⟨_, flat⟩
      · exact .inr (.inl ⟨flat ▸ (wf.operands_of_node hh shape).many, flat ▸ shape⟩)
      · exact .inr (.inr flat)
  have left := shape hf
  have right := shape hg
  rw [same] at left
  rcases right with ⟨none, rfl⟩ | ⟨many, node⟩ | one
  · simpa [none] using left
  · rcases left with ⟨none, _⟩ | ⟨_, node'⟩ | one
    · simp [none] at many
    · exact wf.node_inj hf hg (node'.trans node.symm)
    · simp [one] at many
  · simpa [one, eq_comm] using left

theorem flatMap_verum (verum : ∀ g ∈ fs, g = .verum) : fs.flatMap (s.flatten .conj) = [] :=
  List.flatMap_eq_nil_iff.mpr fun g member => verum g member ▸ s.flatten_neutral .conj

theorem WellFormed.conj_single (wf : s.WellFormed) (here : f ∈ s) (before after : List Formula)
    (verum : ∀ g ∈ before ++ after, g = .verum)
    (fine : (s.conj (before ++ f :: after)).1 ≠ .falsum) : (s.conj (before ++ f :: after)).1 = f := by
  have known : ∀ g ∈ before ++ f :: after, g ∈ s := fun g member => by
    rw [List.mem_append, List.mem_cons, or_left_comm, ← List.mem_append] at member
    rcases member with rfl | member
    · exact here
    · exact verum g member ▸ wf.verum_mem
  have joined : Joined s .conj _ (s.conj (before ++ f :: after)).1
      (s.conj (before ++ f :: after)).2 := wf.junction_joined known
  refine joined.wellFormed.flatten_inj joined.mem (joined.later.mem here) (c := .conj) ?_
  rw [joined.flatten_eq fun decided => fine (joined.decided decided), operandsOf,
    List.flatMap_append, List.flatMap_cons,
    flatMap_verum fun g member => verum g (List.mem_append_left after member),
    flatMap_verum fun g member => verum g (List.mem_append_right before member), List.nil_append,
    List.append_nil, joined.later.flatten_eq here,
    firstOccurrences_of_nodup (wf.nodup_flatten here) (by simp)]

theorem conj_verum (verum : ∀ g ∈ fs, g = .verum) : (s.conj fs).1 = .verum := by
  have absorbing : fs.contains Connective.conj.absorbing = false := by
    rw [Bool.eq_false_iff, Ne, List.contains_iff_mem]
    intro member
    exact absurd (verum _ member) (by decide)
  unfold conj junction
  rw [absorbing]
  simp [flatMap_verum verum, firstOccurrences, clashing, Connective.neutral]

end Store

/-! Entries. -/

namespace SubproblemCache

variable {c c' c'' : SubproblemCache} {key key' : IndexSet} {f : Formula}

theorem find_congr (same : key.compare key' = .eq) : c.find? key = c.find? key' :=
  Std.TreeMap.getElem?_congr same

/-- Every entry of one cache is an entry of the other. -/
def Within (c c' : SubproblemCache) : Prop := ∀ key f, c.find? key = some f → c'.find? key = some f

theorem Within.refl (c : SubproblemCache) : c.Within c := fun _ _ found => found

theorem Within.trans (first : c.Within c') (second : c'.Within c'') : c.Within c'' :=
  fun key f found => second key f (first key f found)

end SubproblemCache

/-! Clauses left. -/

namespace Dtree

variable {t left right : PlacedTree} {d : PlacedInner} {n i : Nat} {value value' : Lit → Truth}
  {out scratch : IndexSet}

def ids (t : PlacedTree) : List Nat := t.footprint.clauses.map Prod.fst

def Done (value : Lit → Truth) (t : PlacedTree) : Prop := t.residual value = []

theorem Sited.residual_node (sited : (Dtree.node d left right).Sited n) :
    (Dtree.node d left right).residual value = left.residual value ++ right.residual value := by
  obtain ⟨_, _, clauses, _⟩ := sited
  change d.footprint.clauses.filter _ = _
  rw [clauses, List.filter_append]
  rfl

theorem Sited.ids_eq (sited : t.Sited n) : t.ids = t.leaves.map fun l => l.source.id := by
  rw [ids, sited.clauses_eq, List.map_map]
  rfl

theorem Sited.ids_node (sited : (Dtree.node d left right).Sited n) :
    (Dtree.node d left right).ids = left.ids ++ right.ids := by
  rw [sited.ids_eq, sited.1.1.ids_eq, sited.1.2.ids_eq, leaves, List.map_append]

theorem Done.node (sited : (Dtree.node d left right).Sited n) :
    (Dtree.node d left right).Done value ↔ left.Done value ∧ right.Done value := by
  unfold Done
  rw [sited.residual_node, List.append_eq_nil_iff]

theorem Done.mono (done : t.Done value) (kept : ∀ l, value l = .tru → value' l = .tru) :
    t.Done value' := by
  unfold Done residual at *
  rw [List.filter_eq_nil_iff] at *
  intro c listed
  have satisfied := done c listed
  simp only [Bool.not_eq_true', Bool.not_eq_false, Dtree.satisfied, List.any_eq_true,
    decide_eq_true_eq] at *
  obtain ⟨code, member, true_⟩ := satisfied
  exact ⟨code, member, kept _ true_⟩

theorem dynamicSeparator_isEmpty (done : left.Done value ∨ right.Done value) :
    ((Dtree.node d left right).dynamicSeparator value out scratch).1.isEmpty = true := by
  rw [IndexSet.isEmpty_iff]
  intro i
  simp only [dynamicSeparator, IndexSet.contains_inter]
  rw [Bool.and_eq_false_iff]
  refine done.imp (fun none => ?_) fun none => ?_ <;>
    simp [Bool.eq_false_iff, contains_dynamicVars, show residual _ _ = [] from none]

theorem contains_cacheKey {key : IndexSet} :
    (t.cacheKey value n key).contains i = true ↔ key.contains i = true ∨
      ∃ c ∈ t.residual value, i = n + c.1 + 1 ∨
        ∃ code ∈ c.2, value (litOfCode code) = .undef ∧ (litOfCode code).var.id = i := by
  unfold cacheKey
  induction t.residual value generalizing key with
  | nil => simp
  | cons c cs ih =>
    rw [List.foldl_cons, ih, contains_addUnassigned, IndexSet.contains_insert]
    simp only [List.mem_cons, exists_eq_or_imp, Bool.or_eq_true, decide_eq_true_eq,
      or_assoc, or_left_comm]

def Covers (n : Nat) (t : PlacedTree) (key : IndexSet) : Prop :=
  ∀ i, key.contains (n + i + 1) = true → i ∈ t.ids

theorem Covers.congr {key key' : IndexSet} (same : key.compare key' = .eq) (covers : t.Covers n key) :
    t.Covers n key' := fun i member =>
  covers i ((IndexSet.contains_of_compare same).trans member)

end Dtree

/-! Steps. -/

namespace Compilation

variable {watch : Event → Prop} {task : Task} {c c' c₁ : Compilation} {f g : Formula}
  {t left right : PlacedTree} {d : PlacedInner} {key key' : IndexSet} {n : Nat}

structure Beside (c c' : Compilation) : Prop where
  cache : c'.cache = c.cache
  expansions : c'.expansions = c.expansions
  handler : c'.handler = c.handler
  solver : c'.solver = { c.solver with unreported := c'.solver.unreported }

theorem enter_beside (run : c.enter t = .ok (f, c')) :
    c.Beside c' ∧ c'.solver.unreported = false ∧
      c'.separator = (t.dynamicSeparator c.solver.value c.separator c.scratch).1 := by
  unfold enter at run
  simp only at run
  split at run
  · rename_i reported
    cases run
    simp only [Stepper.newlyImplied, bind_ok] at reported
    obtain ⟨_, _, rest⟩ := reported
    cases rest
    exact ⟨⟨rfl, rfl, rfl, rfl⟩, rfl, rfl⟩
  · cases run

theorem enter_reported (run : c.enter t = .ok (f, c')) (reported : c.solver.unreported = false) :
    f = .verum ∧ c'.solver = c.solver ∧ c'.cache = c.cache := by
  obtain ⟨beside, reported', _⟩ := enter_beside run
  refine ⟨?_, by rw [beside.solver, reported', ← reported], beside.cache⟩
  unfold enter at run
  simp only at run
  split at run
  · rename_i implied
    cases run
    simp only [Stepper.newlyImplied, Stepper.consequences, reported, Bool.false_eq_true, if_false,
      List.mapM_nil, pure_ok, bind_ok, exists_eq_left', Prod.mk.injEq] at implied
    rw [← implied.1]
    exact Store.conj_verum (by simp)
  · cases run

theorem enter_apart (run : c.enter (.node d left right) = .ok (f, c'))
    (done : left.Done c.solver.value ∨ right.Done c.solver.value) : c'.separator.isEmpty = true := by
  rw [(enter_beside run).2.2]
  exact Dtree.dynamicSeparator_isEmpty done

theorem enter_done (sited : t.Sited n) (done : t.Done c.solver.value)
    (run : c.enter t = .ok (f, c')) : c'.separator.isEmpty = true := by
  cases t with
  | leaf l =>
    rw [(enter_beside run).2.2]
    exact IndexSet.isEmpty_iff.mpr fun i => IndexSet.contains_clear
  | node d left right => exact enter_apart run (.inl ((Dtree.Done.node sited).mp done).1)

theorem leaf_beside {l : PlacedLeaf} (run : c.leaf l = .ok (f, c')) :
    ∃ store, c' = { c with store } := by
  simp only [leaf, bind_ok, Prod.exists] at run
  obtain ⟨out, s, _, rest⟩ := run
  cases out with
  | none =>
    cases rest
    exact ⟨s, rfl⟩
  | some terms =>
    cases rest
    exact ⟨_, rfl⟩

theorem expansion_beside {implied p m : Formula} {v : Var}
    (run : expansion implied v p m c = .ok (.compiled f, c')) : ∃ store, c' = { c with store } := by
  obtain ⟨name, _, rest⟩ := expansion_ok run
  cases rest
  exact ⟨_, rfl⟩

theorem remember_find : (c.remember key f).cache.find? key' =
    if f ≠ .falsum ∧ key.compare key' = .eq then some f else c.cache.find? key' := by
  unfold remember
  by_cases falsum : f = .falsum
  · simp [falsum]
  · simp [falsum, SubproblemCache.find_insert_eq]

theorem remember_beside (key : IndexSet) (f : Formula) (c : Compilation) :
    ∃ cache, c.remember key f = { c with cache } := by
  unfold remember
  split
  · exact ⟨_, rfl⟩
  · exact ⟨_, rfl⟩

theorem looked_find : (c.looked t).cache.find? key = c.cache.find? key :=
  (SubproblemCache.find_query c.cache (c.key t) key).2

/-! What a run keeps. -/

/-- The entries found so far are kept, and so are the names of the variables. No handler comes in, and
the count of expansions does not fall. -/
structure Carries (c c' : Compilation) : Prop where
  within : c.cache.Within c'.cache
  expansions_le : c.expansions ≤ c'.expansions
  handler : c.handler = .never → c'.handler = .never
  names : c'.solver.names = c.solver.names

theorem Carries.refl (c : Compilation) : c.Carries c := ⟨.refl _, Nat.le_refl _, id, rfl⟩

theorem Carries.trans {c'' : Compilation} (first : c.Carries c') (second : c'.Carries c'') :
    c.Carries c'' where
  within := first.within.trans second.within
  expansions_le := Nat.le_trans first.expansions_le second.expansions_le
  handler never := second.handler (first.handler never)
  names := second.names.trans first.names

theorem Carries.count (carries : c.Carries c') : c'.solver.varCount = c.solver.varCount :=
  congrArg Array.size carries.names

theorem Beside.carries (beside : c.Beside c') : c.Carries c' where
  within := beside.cache ▸ .refl _
  expansions_le := Nat.le_of_eq beside.expansions.symm
  handler never := beside.handler.trans never
  names := by rw [beside.solver]

theorem Carries.withStore (c : Compilation) (store : Store) : c.Carries { c with store } :=
  Beside.carries ⟨rfl, rfl, rfl, rfl⟩

theorem Carries.withSolver {p : Stepper} (same : p.names = c.solver.names) :
    c.Carries { c with solver := p } := ⟨.refl _, Nat.le_refl _, id, same⟩

theorem Carries.counted (c : Compilation) : c.Carries c.counted where
  within := .refl _
  expansions_le := Nat.le_succ _
  handler never := by rw [Compilation.counted, never]; rfl
  names := rfl

theorem Carries.looked (c : Compilation) (t : PlacedTree) : c.Carries (c.looked t) where
  within _ _ found := looked_find.trans found
  expansions_le := Nat.le_refl _
  handler := id
  names := rfl

theorem Carries.remember (carries : c.Carries c') (missing : c.cache.find? key = none) :
    c.Carries (c'.remember key f) := by
  have within : c.cache.Within (c'.remember key f).cache := by
    intro key' g found
    rw [remember_find, if_neg]
    · exact carries.within key' g found
    · rintro ⟨_, same⟩
      rw [SubproblemCache.find_congr same, found] at missing
      cases missing
  obtain ⟨cache, same⟩ := remember_beside key f c'
  rw [same] at within ⊢
  exact ⟨within, carries.expansions_le, carries.handler, carries.names⟩

theorem leaf_carries {l : PlacedLeaf} (run : c.leaf l = .ok (f, c')) : c.Carries c' := by
  obtain ⟨store, rfl⟩ := leaf_beside run
  exact .withStore c store

theorem Runs.carries (run : Runs watch task c f c') : c.Carries c' := by
  induction run with
  | leaf enter leaf =>
    exact ((enter_beside enter).1.carries.trans (leaf_carries leaf)).trans (.withStore _ _)
  | contradiction enter apart => exact (enter_beside enter).1.carries
  | leftFails enter apart first ih => exact (enter_beside enter).1.carries.trans ih
  | rightFails enter apart first some second ih₁ ih₂ =>
    exact ((enter_beside enter).1.carries.trans ih₁).trans ih₂
  | join enter apart first some second some' event ih₁ ih₂ =>
    exact (((enter_beside enter).1.carries.trans ih₁).trans ih₂).trans (.withStore _ _)
  | failPositive enter shared choice positive again ih₁ ih₂ =>
    exact (((enter_beside enter).1.carries.trans (.counted _)).trans ih₁).trans ih₂
  | failNegative enter shared choice positive some negative again ih₁ ih₂ ih₃ =>
    exact ((((enter_beside enter).1.carries.trans (.counted _)).trans ih₁).trans ih₂).trans ih₃
  | expand enter shared choice positive some negative some' expansion event ih₁ ih₂ =>
    obtain ⟨store, rfl⟩ := expansion_beside expansion
    exact ((((enter_beside enter).1.carries.trans (.counted _)).trans ih₁).trans ih₂).trans
      (.withStore _ _)
  | partLeaf leaf => exact leaf_carries leaf
  | hit found event => exact .looked _ _
  | miss missing run ih => exact ((Carries.looked _ _).trans ih).remember missing
  | branch decide event run undo ih =>
    exact ((Carries.withSolver (Stepper.decide_names decide)).trans ih).trans
      (.withSolver (Stepper.undo_names undo))
  | branchFails decide undo =>
    exact .withSolver ((Stepper.undo_names undo).trans (Stepper.decide_names decide))
  | elsewhere level => exact .refl _
  | retryFails level learn => exact .withSolver (Stepper.assertLesson_names learn)
  | retry level learn event run ih =>
    exact (Carries.withSolver (Stepper.assertLesson_names learn)).trans ih

/-- Assigned literals stay assigned, and the levels are those of before. -/
theorem Runs.leads (run : Runs watch task c f c') (steady : c.solver.Steady) : c.Leads c' := by
  induction run with
  | leaf enter leaf =>
    have entered := (enter_leads steady).answer _ enter
    have done := entered.trans (.of_solver entered.steady (leaf_finishes.answer _ leaf))
    exact ⟨done.steady, done.grows⟩
  | contradiction enter apart => exact (enter_leads steady).answer _ enter
  | leftFails enter apart first ih =>
    have entered := (enter_leads steady).answer _ enter
    exact entered.trans (ih entered.steady)
  | rightFails enter apart first some second ih₁ ih₂ =>
    have entered := (enter_leads steady).answer _ enter
    have left := ih₁ entered.steady
    exact (entered.trans left).trans (ih₂ left.steady)
  | join enter apart first some second some' event ih₁ ih₂ =>
    have entered := (enter_leads steady).answer _ enter
    have left := ih₁ entered.steady
    have both := (entered.trans left).trans (ih₂ left.steady)
    exact ⟨both.steady, both.grows⟩
  | failPositive enter shared choice positive again ih₁ ih₂ =>
    have entered := (enter_leads steady).answer _ enter
    have yes := ih₁ entered.steady
    have whole := yes.trans (ih₂ yes.steady)
    exact ⟨whole.steady, entered.grows.trans whole.grows⟩
  | failNegative enter shared choice positive some negative again ih₁ ih₂ ih₃ =>
    have entered := (enter_leads steady).answer _ enter
    have yes := ih₁ entered.steady
    have no := ih₂ yes.steady
    have whole := (yes.trans no).trans (ih₃ no.steady)
    exact ⟨whole.steady, entered.grows.trans whole.grows⟩
  | expand enter shared choice positive some negative some' expansion event ih₁ ih₂ =>
    obtain ⟨store, rfl⟩ := expansion_beside expansion
    have entered := (enter_leads steady).answer _ enter
    have yes := ih₁ entered.steady
    have both := yes.trans (ih₂ yes.steady)
    exact ⟨both.steady, entered.grows.trans both.grows⟩
  | partLeaf leaf => exact .of_solver steady (leaf_finishes.answer _ leaf)
  | hit found event => exact .of_core steady rfl
  | @miss _ _ _ c c₁ f missing run ih =>
    have leads := ih steady
    obtain ⟨cache, same⟩ := remember_beside (c.key _) f c₁
    rw [same]
    exact ⟨leads.steady, leads.grows⟩
  | @branch t v phase c c₁ p q f decide event run undo ih =>
    obtain ⟨steady', grows, _⟩ := steady.decide.answer _ decide
    have leads := ih steady'
    have undone := @undo_leads c .cancelled v c₁ steady.core.trail leads.steady
      (grows.trans leads.grows)
    refine undone.answer (.cancelled, { c₁ with solver := q }) ?_
    rw [undo]
    rfl
  | @branchFails t v phase c p q decide undo =>
    obtain ⟨steady', grows, _⟩ := steady.decide.answer _ decide
    have undone := @undo_leads c .cancelled v { c with solver := p } steady.core.trail
      steady' grows
    refine undone.answer (.cancelled, { c with solver := q }) ?_
    simp only [undo]
    rfl
  | elsewhere level => exact .of_core steady rfl
  | retryFails level learn =>
    obtain ⟨steady', grows, _⟩ := steady.assertLesson.answer _ learn
    exact ⟨steady', grows⟩
  | retry level learn event run ih =>
    obtain ⟨steady', grows, _⟩ := steady.assertLesson.answer _ learn
    have leads := ih steady'
    exact ⟨leads.steady, grows.trans leads.grows⟩

theorem Leads.done (leads : c.Leads c') (steady : c.solver.Steady) (done : t.Done c.solver.value) :
    t.Done c'.solver.value :=
  done.mono fun l true_ => (leads.steady.core.trail.true_iff l).mpr
    (leads.grows.mem ((steady.core.trail.true_iff l).mp true_))

/-! Subtrees without clauses. -/

def Blank (c : Compilation) : Prop :=
  ∀ key f, c.cache.find? key = some f → (∀ i, key.contains i = false) → f = .verum

theorem Blank.congr (blank : c.Blank) (same : ∀ key, c'.cache.find? key = c.cache.find? key) :
    c'.Blank := fun key f found => blank key f ((same key).symm.trans found)

theorem key_isEmpty_iff : (∀ i, (c.key t).contains i = false) ↔ t.Done c.solver.value := by
  constructor
  · intro none
    refine List.eq_nil_iff_forall_not_mem.mpr fun x listed => ?_
    have member := (none (c.solver.varCount + x.1 + 1)).symm.trans
      (Dtree.contains_cacheKey.mpr (.inr ⟨x, listed, .inl rfl⟩))
    cases member
  · intro done i
    rw [Bool.eq_false_iff]
    intro member
    obtain member | ⟨x, listed, _⟩ := Dtree.contains_cacheKey.mp member
    · simp at member
    · rw [show t.residual c.solver.value = [] from done] at listed
      cases listed

theorem Blank.remember (blank : c'.Blank) (result : t.Done c.solver.value → f = .verum) :
    (c'.remember (c.key t) f).Blank := by
  intro key g found none
  rw [remember_find] at found
  split at found
  · rename_i here
    obtain rfl := Option.some.inj found
    exact result (key_isEmpty_iff.mp fun i => (IndexSet.contains_of_compare here.2).trans (none i))
  · exact blank key g found none

theorem leafTerms_satisfied {value : Lit → Truth} {name : Lit → Except Fault Lit} {ls : List Lit}
    {negated : List Formula} {s s' : Store} {out : Option (List Formula)}
    (satisfied : ∃ l ∈ ls, value l = .tru)
    (run : leafTerms value name ls negated s = .ok (out, s')) : out = none := by
  induction ls generalizing negated s s' out with
  | nil => simp at satisfied
  | cons l ls ih =>
    unfold leafTerms at run
    split at run
    · cases run
      rfl
    · rename_i false_
      exact ih (by simpa [false_] using satisfied) run
    · rename_i free
      simp only [bind_ok, Prod.exists] at run
      obtain ⟨_, _, out', _, rest, done⟩ := run
      obtain rfl := ih (by simpa [free] using satisfied) rest
      cases done
      rfl

theorem leaf_done {l : PlacedLeaf} (sited : Dtree.Sited n (.leaf l))
    (done : Dtree.Done c.solver.value (.leaf l)) (run : c.leaf l = .ok (f, c')) : f = .verum := by
  obtain ⟨_, _, clauses⟩ := sited
  have satisfied : ∃ m ∈ l.lits, c.solver.value m = .tru := by
    have all := List.filter_eq_nil_iff.mp done (l.source.id, l.lits.map fun m => (m.code : Int))
      (show _ ∈ l.footprint.clauses by simp [clauses])
    simpa [Dtree.satisfied, litOfCode_code] using all
  simp only [leaf, bind_ok, Prod.exists] at run
  obtain ⟨out, s, computed, rest⟩ := run
  obtain rfl := leafTerms_satisfied satisfied computed
  cases rest
  rfl

end Compilation

namespace Task

def subject : Task → PlacedTree
  | .tree t | .part t | .branch t _ _ | .retry t => t

def Plain : Task → Prop
  | .tree _ | .part _ => True
  | .branch .. | .retry _ => False

/-- All is reported where a task starts that compiles a part on its own. -/
def Reported (c : Compilation) : Task → Prop
  | .part _ => c.solver.unreported = false
  | .tree _ | .branch .. | .retry _ => True

/-- The keys under which a task may add results: for a part those of its own clauses, otherwise those
of the clauses of one side. -/
def Touches (n : Nat) : Task → IndexSet → Prop
  | .part t => t.Covers n
  | .tree t | .branch t _ _ | .retry t => match t with
    | .leaf _ => fun _ => False
    | .node _ left right => fun key => left.Covers n key ∨ right.Covers n key

end Task

namespace Compilation

variable {watch : Event → Prop} {task : Task} {c c' c₁ : Compilation} {f g : Formula}
  {t left right : PlacedTree} {d : PlacedInner} {key key' : IndexSet} {n : Nat}

/-- A subtree without clauses is compiled to the verum. -/
theorem Runs.done (run : Runs watch task c f c') (plain : task.Plain)
    (sited : task.subject.Sited n) (done : task.subject.Done c.solver.value) (blank : c.Blank)
    (reported : c.solver.unreported = false) :
    f = .verum ∧ c'.solver = c.solver ∧ c'.Blank := by
  induction run with
  | leaf enter leaf =>
    obtain ⟨rfl, solver, cache⟩ := enter_reported enter reported
    obtain rfl := leaf_done sited (solver ▸ done) leaf
    obtain ⟨store, rfl⟩ := leaf_beside leaf
    exact ⟨Store.conj_verum (by simp), solver, blank.congr fun key => by rw [← cache]; rfl⟩
  | contradiction enter apart =>
    obtain ⟨falsum, _⟩ := enter_reported enter reported
    cases falsum
  | leftFails enter apart first ih =>
    obtain ⟨_, solver, cache⟩ := enter_reported enter reported
    have falsum := ih trivial sited.1.1 (solver ▸ ((Dtree.Done.node sited).mp done).1)
      (blank.congr fun key => by rw [cache]) (solver ▸ reported)
    cases falsum.1
  | rightFails enter apart first some second ih₁ ih₂ =>
    obtain ⟨_, solver, cache⟩ := enter_reported enter reported
    obtain ⟨left, right⟩ := (Dtree.Done.node sited).mp done
    obtain ⟨_, solver', blank'⟩ := ih₁ trivial sited.1.1 (solver ▸ left)
      (blank.congr fun key => by rw [cache]) (solver ▸ reported)
    have falsum := ih₂ trivial sited.1.2 (solver'.trans solver ▸ right) blank'
      (solver'.trans solver ▸ reported)
    cases falsum.1
  | join enter apart first some second some' event ih₁ ih₂ =>
    obtain ⟨rfl, solver, cache⟩ := enter_reported enter reported
    obtain ⟨left, right⟩ := (Dtree.Done.node sited).mp done
    obtain ⟨rfl, solver', blank'⟩ := ih₁ trivial sited.1.1 (solver ▸ left)
      (blank.congr fun key => by rw [cache]) (solver ▸ reported)
    obtain ⟨rfl, solver'', blank''⟩ := ih₂ trivial sited.1.2 (solver'.trans solver ▸ right) blank'
      (solver'.trans solver ▸ reported)
    exact ⟨Store.conj_verum (by simp), solver''.trans (solver'.trans solver), blank''⟩
  | failPositive enter shared choice positive again ih₁ ih₂ =>
    cases shared.symm.trans (enter_done sited done enter)
  | failNegative enter shared choice positive some negative again ih₁ ih₂ ih₃ =>
    cases shared.symm.trans (enter_done sited done enter)
  | expand enter shared choice positive some negative some' expansion event ih₁ ih₂ =>
    cases shared.symm.trans (enter_done sited done enter)
  | partLeaf leaf =>
    obtain rfl := leaf_done sited done leaf
    obtain ⟨store, rfl⟩ := leaf_beside leaf
    exact ⟨rfl, rfl, blank⟩
  | hit found event =>
    exact ⟨blank _ _ found (key_isEmpty_iff.mpr done), rfl, blank.congr fun key => looked_find⟩
  | @miss _ _ _ c c₁ f missing run ih =>
    obtain ⟨rfl, solver, blank'⟩ := ih trivial sited done (blank.congr fun key => looked_find) reported
    refine ⟨rfl, ?_, blank'.remember fun _ => rfl⟩
    obtain ⟨cache, same⟩ := remember_beside (c.key _) .verum c₁
    rw [same]
    exact solver
  | branch decide event run undo ih => cases plain
  | branchFails decide undo => cases plain
  | elsewhere level => cases plain
  | retryFails level learn => cases plain
  | retry level learn event run ih => cases plain

theorem undo_unreported {p q : Stepper} {v : Var} (run : p.undo v = .ok q) : q.unreported = false := by
  unfold Stepper.undo at run
  split at run
  · cases run
  · simp only [bind_ok, pure_ok] at run
    obtain ⟨_, _, rfl⟩ := run
    rfl

/-- Keys without members keep the verum, and after a result all implied literals are reported. -/
theorem Runs.blank (run : Runs watch task c f c') (sited : task.subject.Sited n) (blank : c.Blank)
    (reported : task.Reported c) :
    c'.Blank ∧ (f ≠ .falsum → c'.solver.unreported = false) := by
  induction run with
  | leaf enter leaf =>
    obtain ⟨beside, reported', _⟩ := enter_beside enter
    obtain ⟨store, rfl⟩ := leaf_beside leaf
    exact ⟨blank.congr fun key => by rw [← beside.cache]; rfl, fun _ => reported'⟩
  | contradiction enter apart =>
    obtain ⟨beside, reported', _⟩ := enter_beside enter
    exact ⟨blank.congr fun key => by rw [beside.cache], fun _ => reported'⟩
  | leftFails enter apart first ih =>
    obtain ⟨beside, reported', _⟩ := enter_beside enter
    exact ih sited.1.1 (blank.congr fun key => by rw [beside.cache]) reported'
  | rightFails enter apart first some second ih₁ ih₂ =>
    obtain ⟨beside, reported', _⟩ := enter_beside enter
    obtain ⟨blank₁, reported₁⟩ := ih₁ sited.1.1 (blank.congr fun key => by rw [beside.cache]) reported'
    exact ih₂ sited.1.2 blank₁ (reported₁ some)
  | join enter apart first some second some' event ih₁ ih₂ =>
    obtain ⟨beside, reported', _⟩ := enter_beside enter
    obtain ⟨blank₁, reported₁⟩ := ih₁ sited.1.1 (blank.congr fun key => by rw [beside.cache]) reported'
    obtain ⟨blank₂, reported₂⟩ := ih₂ sited.1.2 blank₁ (reported₁ some)
    exact ⟨blank₂, fun _ => reported₂ some'⟩
  | failPositive enter shared choice positive again ih₁ ih₂ =>
    obtain ⟨beside, _⟩ := enter_beside enter
    obtain ⟨blank₁, _⟩ := ih₁ sited (blank.congr fun key => by rw [← beside.cache]; rfl) trivial
    exact ih₂ sited blank₁ trivial
  | failNegative enter shared choice positive some negative again ih₁ ih₂ ih₃ =>
    obtain ⟨beside, _⟩ := enter_beside enter
    obtain ⟨blank₁, _⟩ := ih₁ sited (blank.congr fun key => by rw [← beside.cache]; rfl) trivial
    obtain ⟨blank₂, _⟩ := ih₂ sited blank₁ trivial
    exact ih₃ sited blank₂ trivial
  | expand enter shared choice positive some negative some' expansion event ih₁ ih₂ =>
    obtain ⟨beside, _⟩ := enter_beside enter
    obtain ⟨store, rfl⟩ := expansion_beside expansion
    obtain ⟨blank₁, _⟩ := ih₁ sited (blank.congr fun key => by rw [← beside.cache]; rfl) trivial
    obtain ⟨blank₂, reported₂⟩ := ih₂ sited blank₁ trivial
    exact ⟨blank₂, fun _ => reported₂ some'⟩
  | partLeaf leaf =>
    obtain ⟨store, rfl⟩ := leaf_beside leaf
    exact ⟨blank, fun _ => reported⟩
  | hit found event => exact ⟨blank.congr fun key => looked_find, fun _ => reported⟩
  | @miss d left right c c₁ f missing run ih =>
    have looked : (c.looked (.node d left right)).Blank := blank.congr fun key => looked_find
    obtain ⟨blank', reported'⟩ := ih sited looked trivial
    refine ⟨blank'.remember fun done => (run.done trivial sited done looked reported).1, fun some => ?_⟩
    obtain ⟨cache, same⟩ := remember_beside (c.key _) f c₁
    rw [same]
    exact reported' some
  | branch decide event run undo ih =>
    exact ⟨(ih sited blank trivial).1, fun _ => undo_unreported undo⟩
  | branchFails decide undo => exact ⟨blank, fun _ => undo_unreported undo⟩
  | elsewhere level => exact ⟨blank, fun some => absurd rfl some⟩
  | retryFails level learn => exact ⟨blank, fun some => absurd rfl some⟩
  | retry level learn event run ih => exact ih sited blank trivial

/-! Keys. -/

theorem key_covers (sited : t.Sited n) (count : c.solver.varCount = n) : t.Covers n (c.key t) := by
  intro i member
  obtain member | ⟨x, listed, same | ⟨code, inside, _, same⟩⟩ := Dtree.contains_cacheKey.mp member
  · simp at member
  · rw [count] at same
    obtain rfl : i = x.1 := by omega
    exact List.mem_map_of_mem (Dtree.residual_mem listed)
  -- Variables have smaller numbers than clauses.
  · have := (sited.code_mem (Dtree.residual_mem listed) inside).2
    omega

def Differs (P : IndexSet → Prop) (c c' : Compilation) : Prop :=
  ∀ key, c'.cache.find? key = c.cache.find? key ∨ P key

theorem Differs.of_cache {P : IndexSet → Prop} (same : c'.cache = c.cache) : Differs P c c' :=
  fun key => .inl (congrArg (·.find? key) same)

theorem Differs.trans {P : IndexSet → Prop} {c'' : Compilation} (first : Differs P c c')
    (second : Differs P c' c'') : Differs P c c'' := fun key =>
  (second key).elim (fun same => (first key).imp_left same.trans) .inr

theorem Differs.mono {P Q : IndexSet → Prop} (differs : Differs P c c')
    (weaker : ∀ key, P key → Q key) : Differs Q c c' := fun key => (differs key).imp_right (weaker key)

theorem Covers.node (sited : (Dtree.node d left right).Sited n)
    (covers : left.Covers n key ∨ right.Covers n key) : (Dtree.node d left right).Covers n key := by
  intro i member
  rw [sited.ids_node, List.mem_append]
  exact covers.imp (· i member) (· i member)

theorem Runs.touches (run : Runs watch task c f c') (sited : task.subject.Sited n)
    (count : c.solver.varCount = n) : Differs (task.Touches n) c c' := by
  induction run with
  | leaf enter leaf =>
    obtain ⟨store, rfl⟩ := leaf_beside leaf
    exact .of_cache (enter_beside enter).1.cache
  | contradiction enter apart => exact .of_cache (enter_beside enter).1.cache
  | leftFails enter apart first ih =>
    obtain ⟨beside, _⟩ := enter_beside enter
    have first := ih sited.1.1 (beside.carries.count.trans count)
    exact .trans (.of_cache beside.cache) (first.mono fun _ => .inl)
  | rightFails enter apart first some second ih₁ ih₂ =>
    obtain ⟨beside, _⟩ := enter_beside enter
    have count₁ := beside.carries.count.trans count
    have left := ih₁ sited.1.1 count₁
    have right := ih₂ sited.1.2 (first.carries.count.trans count₁)
    exact .trans (.of_cache beside.cache) ((left.mono fun _ => .inl).trans (right.mono fun _ => .inr))
  | join enter apart first some second some' event ih₁ ih₂ =>
    obtain ⟨beside, _⟩ := enter_beside enter
    have count₁ := beside.carries.count.trans count
    have left := ih₁ sited.1.1 count₁
    have right := ih₂ sited.1.2 (first.carries.count.trans count₁)
    exact .trans (.of_cache beside.cache) ((left.mono fun _ => .inl).trans (right.mono fun _ => .inr))
  | failPositive enter shared choice positive again ih₁ ih₂ =>
    obtain ⟨beside, _⟩ := enter_beside enter
    have count₁ := beside.carries.count.trans count
    have yes := ih₁ sited count₁
    have rest := ih₂ sited (positive.carries.count.trans count₁)
    exact .trans (.of_cache beside.cache) (.trans yes rest)
  | failNegative enter shared choice positive some negative again ih₁ ih₂ ih₃ =>
    obtain ⟨beside, _⟩ := enter_beside enter
    have count₁ := beside.carries.count.trans count
    have count₂ := positive.carries.count.trans count₁
    have yes := ih₁ sited count₁
    have no := ih₂ sited count₂
    have rest := ih₃ sited (negative.carries.count.trans count₂)
    exact .trans (.of_cache beside.cache) (.trans yes (.trans no rest))
  | expand enter shared choice positive some negative some' expansion event ih₁ ih₂ =>
    obtain ⟨beside, _⟩ := enter_beside enter
    obtain ⟨store, rfl⟩ := expansion_beside expansion
    have count₁ := beside.carries.count.trans count
    have yes := ih₁ sited count₁
    have no := ih₂ sited (positive.carries.count.trans count₁)
    exact .trans (.of_cache beside.cache) (.trans yes no)
  | partLeaf leaf =>
    obtain ⟨store, rfl⟩ := leaf_beside leaf
    exact .of_cache rfl
  | hit found event => exact fun key => .inl looked_find
  | @miss d left right c c₁ f missing run ih =>
    intro key
    rw [remember_find]
    split
    · rename_i here
      exact .inr ((key_covers sited count).congr here.2)
    · exact (ih sited count key).imp (·.trans looked_find) (Covers.node sited)
  | branch decide event run undo ih =>
    exact ih sited ((Carries.withSolver (Stepper.decide_names decide)).count.trans count)
  | branchFails decide undo => exact .of_cache rfl
  | elsewhere level => exact .of_cache rfl
  | retryFails level learn => exact .of_cache rfl
  | retry level learn event run ih =>
    exact ih sited ((Carries.withSolver (Stepper.assertLesson_names learn)).count.trans count)

/-! The key of a task. -/

structure Orderly (scope : Var → Prop) (n : Nat) (c : Compilation) : Prop where
  guarded : c.Guarded scope
  steady : c.solver.Steady
  blank : c.Blank
  count : c.solver.varCount = n

variable {scope : Var → Prop}

theorem Runs.orderly (run : Runs watch task c f c') (sited : task.subject.Sited n)
    (reported : task.Reported c) (orderly : c.Orderly scope n) : c'.Orderly scope n where
  guarded := (run.compiles orderly.guarded).guarded
  steady := (run.leads orderly.steady).steady
  blank := (run.blank sited orderly.blank reported).1
  count := run.carries.count.trans orderly.count

theorem Orderly.enter (orderly : c.Orderly scope n) (run : c.enter t = .ok (f, c')) :
    c'.Orderly scope n where
  guarded := (enter_compiles orderly.guarded run).guarded
  steady := ((enter_leads orderly.steady).answer _ run).steady
  blank := orderly.blank.congr fun key => congrArg (·.find? key) (enter_beside run).1.cache
  count := (enter_beside run).1.carries.count.trans orderly.count

theorem Orderly.looked (orderly : c.Orderly scope n) (t : PlacedTree) :
    (c.looked t).Orderly scope n where
  guarded := orderly.guarded.looked t
  steady := orderly.steady
  blank := orderly.blank.congr fun _ => looked_find
  count := orderly.count

theorem not_covers (sited : (Dtree.node d left right).Sited n)
    (distinct : (Dtree.node d left right).ids.Nodup) (count : c.solver.varCount = n) :
    (¬ left.Done c.solver.value → ¬ right.Covers n (c.key (.node d left right))) ∧
      (¬ right.Done c.solver.value → ¬ left.Covers n (c.key (.node d left right))) := by
  rw [sited.ids_node, List.nodup_append] at distinct
  have named (x : Nat × List Int)
      (listed : x ∈ left.residual c.solver.value ++ right.residual c.solver.value) :
      (c.key (.node d left right)).contains (n + x.1 + 1) = true := by
    rw [← sited.residual_node, ← count] at *
    exact Dtree.contains_cacheKey.mpr (.inr ⟨x, listed, .inl rfl⟩)
  constructor <;> intro some covers <;> obtain ⟨x, listed⟩ := List.exists_mem_of_ne_nil _ some
  · exact distinct.2.2 x.1 (List.mem_map_of_mem (Dtree.residual_mem listed)) x.1
      (covers _ (named x (List.mem_append_left _ listed))) rfl
  · exact distinct.2.2 x.1 (covers _ (named x (List.mem_append_right _ listed))) x.1
      (List.mem_map_of_mem (Dtree.residual_mem listed)) rfl

theorem Runs.part_entry (run : Runs watch (.part t) c f c') (fine : f ≠ .falsum)
    (missing : c.cache.find? (c.key t) = none) :
    c'.cache.find? (c.key t) = some f ∨ c'.cache = c.cache := by
  cases run with
  | partLeaf leaf =>
    obtain ⟨store, rfl⟩ := leaf_beside leaf
    exact .inr rfl
  | hit found event =>
    rw [found] at missing
    cases missing
  | miss missing run =>
    rw [remember_find, if_pos ⟨fine, Std.ReflCmp.compare_self⟩]
    exact .inl rfl

theorem key_eq_left (sited : (Dtree.node d left right).Sited n) (done : right.Done c.solver.value) :
    c.key (.node d left right) = c.key left := by
  unfold key Dtree.cacheKey
  rw [sited.residual_node, show right.residual c.solver.value = [] from done, List.append_nil]

theorem key_eq_right (sited : (Dtree.node d left right).Sited n) (done : left.Done c.solver.value) :
    c.key (.node d left right) = c.key right := by
  unfold key Dtree.cacheKey
  rw [sited.residual_node, show left.residual c.solver.value = [] from done, List.nil_append]

section Parts

variable {c₂ c₃ : Compilation} {l r : Formula}

/-- Where the right side has no clauses left, the key of a node is that of its left side. -/
theorem Runs.left_entry (first : Runs watch (.part left) c l c₂)
    (second : Runs watch (.part right) c₂ r c₃) (sited : (Dtree.node d left right).Sited n)
    (distinct : (Dtree.node d left right).ids.Nodup) (orderly : c.Orderly scope n)
    (reported : c.solver.unreported = false) (fine : l ≠ .falsum)
    (right_done : right.Done c.solver.value)
    (missing : c.cache.find? (c.key (.node d left right)) = none)
    (found : c₃.cache.find? (c.key (.node d left right)) = some g) : r = .verum ∧ g = l := by
  have between := first.orderly sited.1.1 reported orderly
  have reported₂ := (first.blank sited.1.1 orderly.blank reported).2 fine
  have still_done := (first.leads orderly.steady).done orderly.steady right_done
  obtain ⟨rfl, _, blank⟩ := second.done trivial sited.1.2 still_done between.blank reported₂
  have key := key_eq_left sited right_done
  refine ⟨rfl, ?_⟩
  rcases first.part_entry fine (key ▸ missing) with entry | unchanged
  · have kept := second.carries.within _ _ entry
    rw [← key, found] at kept
    exact Option.some.inj kept
  -- The left side is a leaf. An entry of the right side names no clause.
  · have covers := (second.touches sited.1.2 between.count _).resolve_left (by
      rw [found, unchanged, missing]
      nofun)
    have left_done : left.Done c.solver.value :=
      by_contra fun none => (not_covers sited distinct orderly.count).1 none covers
    obtain ⟨rfl, _⟩ := first.done trivial sited.1.1 left_done orderly.blank reported
    exact blank _ _ found (key_isEmpty_iff.mpr ((Dtree.Done.node sited).mpr ⟨left_done, right_done⟩))

theorem Runs.right_entry (first : Runs watch (.part left) c l c₂)
    (second : Runs watch (.part right) c₂ r c₃) (sited : (Dtree.node d left right).Sited n)
    (distinct : (Dtree.node d left right).ids.Nodup) (orderly : c.Orderly scope n)
    (reported : c.solver.unreported = false) (fine : r ≠ .falsum)
    (left_done : left.Done c.solver.value) (right_more : ¬ right.Done c.solver.value)
    (missing : c.cache.find? (c.key (.node d left right)) = none)
    (found : c₃.cache.find? (c.key (.node d left right)) = some g) : l = .verum ∧ g = r := by
  obtain ⟨rfl, solver, _⟩ := first.done trivial sited.1.1 left_done orderly.blank reported
  have key : c.key (.node d left right) = c₂.key right := by
    rw [key_eq_right sited left_done, Compilation.key, Compilation.key, solver]
  have missing₂ : c₂.cache.find? (c₂.key right) = none := by
    have off := (not_covers sited distinct orderly.count).2 right_more
    rw [← key, (first.touches sited.1.1 orderly.count _).resolve_right off, missing]
  refine ⟨rfl, ?_⟩
  rcases second.part_entry fine missing₂ with entry | unchanged
  · rw [← key, found] at entry
    exact Option.some.inj entry
  · rw [unchanged, key, missing₂] at found
    cases found

end Parts

/-- A result added on the way under the key of the node is the result for the node. -/
theorem Runs.own_entry (run : Runs watch (.tree (.node d left right)) c f c')
    (sited : (Dtree.node d left right).Sited n) (distinct : (Dtree.node d left right).ids.Nodup)
    (orderly : c.Orderly scope n) (reported : c.solver.unreported = false) (fine : f ≠ .falsum)
    (missing : c.cache.find? (c.key (.node d left right)) = none)
    (found : c'.cache.find? (c.key (.node d left right)) = some g) : g = f := by
  have changed := (run.touches sited orderly.count _).resolve_left (by rw [missing, found]; nofun)
  -- Only where one side has no clauses left does the key belong to the other.
  have done : left.Done c.solver.value ∨ right.Done c.solver.value := by
    obtain ⟨off_right, off_left⟩ := not_covers sited distinct orderly.count
    by_contra none
    rw [not_or] at none
    exact changed.elim (off_left none.2) (off_right none.1)
  cases run with
  | contradiction enter apart => exact absurd rfl fine
  | leftFails enter apart first => exact absurd rfl fine
  | rightFails enter apart first some second => exact absurd rfl fine
  | failPositive enter shared choice positive again =>
    cases shared.symm.trans (enter_apart enter done)
  | failNegative enter shared choice positive some negative again =>
    cases shared.symm.trans (enter_apart enter done)
  | expand enter shared choice positive some negative some' expansion event =>
    cases shared.symm.trans (enter_apart enter done)
  | @join _ _ _ c c₁ c₂ c₃ implied l r enter apart first some second some' event =>
    obtain ⟨rfl, solver, cache⟩ := enter_reported enter reported
    have entered := orderly.enter enter
    have between := first.compiles entered.guarded
    have after := second.compiles between.guarded
    have wf := after.guarded.wellFormed
    rw [← cache, key, ← solver] at missing
    rw [key, ← solver] at found
    rw [← solver] at reported done
    by_cases right_done : right.Done c₁.solver.value
    · obtain ⟨rfl, rfl⟩ := first.left_entry second sited distinct entered reported some right_done
        missing found
      have here := (after.later between.guarded).mem between.circuit.mem
      exact (wf.conj_single here [.verum] [.verum] (by simp) fine).symm
    · obtain ⟨rfl, rfl⟩ := first.right_entry second sited distinct entered reported some'
        (done.resolve_right right_done) right_done missing found
      exact (wf.conj_single after.circuit.mem [.verum, .verum] [] (by simp) fine).symm

theorem Runs.remember (run : Runs watch (.tree (.node d left right)) c f c')
    (sited : (Dtree.node d left right).Sited n) (distinct : (Dtree.node d left right).ids.Nodup)
    (orderly : c.Orderly scope n) (reported : c.solver.unreported = false)
    (missing : c.cache.find? (c.key (.node d left right)) = none) :
    c'.Carries (c'.remember (c.key (.node d left right)) f) := by
  have within : c'.cache.Within (c'.remember (c.key (.node d left right)) f).cache := by
    intro key g found
    rw [remember_find]
    split
    · rename_i here
      rw [← SubproblemCache.find_congr here.2] at found
      rw [run.own_entry sited distinct orderly reported here.1 missing found]
    · exact found
  obtain ⟨cache, same⟩ := remember_beside (c.key (.node d left right)) f c'
  rw [same] at within ⊢
  exact ⟨within, Nat.le_refl _, id, rfl⟩

end Compilation

end ModelCounting
