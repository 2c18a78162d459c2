import ModelCounting.Proofs.Conversion
import ModelCounting.Proofs.Counting
import ModelCounting.Proofs.Satisfiability
import ModelCounting.Proofs.Sharing

/-!
Checks of a circuit are right. Nodes are checked off a worklist, each once and a node before its
operands; the tests add formulas to the store meanwhile, which leaves the nodes below the circuit as
they are. So the answer is whether every node below the circuit passes, and when it is set each was
visited.
-/

namespace ModelCounting

namespace Store

variable {s t t' : Store} {f g : Formula} {fs gs : List Formula} {hard : Prop}
  {seen seen' : Std.TreeSet Formula} {b : Bool}

/-! Worklists. -/

/-- A worklist is done with its last formula first: one that was visited is dropped, another is
checked and replaced by its operands. The first failure ends the walk. -/
inductive Walks (check : NodeCheck) : List Formula → Std.TreeSet Formula → Store →
    Bool → Std.TreeSet Formula → Store → Prop
  | done {seen : Std.TreeSet Formula} {s : Store} : Walks check [] seen s true seen s
  | drop {f : Formula} {rest : List Formula} {seen seen' : Std.TreeSet Formula} {s s' : Store}
    {b : Bool} (visited : seen.contains f = true) (walks : Walks check rest seen s b seen' s') :
    Walks check (f :: rest) seen s b seen' s'
  | fail {f : Formula} {rest : List Formula} {seen : Std.TreeSet Formula} {s s' : Store}
    (fresh : seen.contains f = false) (checked : check s f = .ok (false, s')) :
    Walks check (f :: rest) seen s false (seen.insert f) s'
  | visit {f : Formula} {rest : List Formula} {seen seen' : Std.TreeSet Formula} {s s₁ s' : Store}
    {b : Bool} (fresh : seen.contains f = false) (checked : check s f = .ok (true, s₁))
    (walks : Walks check ((s₁.node f).children.reverse ++ rest) (seen.insert f) s₁ b seen' s') :
    Walks check (f :: rest) seen s b seen' s'

def checkNext (check : NodeCheck) (r : Bool × Std.TreeSet Formula × Store) (g : Formula) :
    Except Fault (Bool × Std.TreeSet Formula × Store) :=
  if r.1 then r.2.2.checkNodes check g r.2.1 else .ok (false, r.2)

theorem checkNodes_visited {check : NodeCheck} (visited : seen.contains f = true) :
    s.checkNodes check f seen = .ok (true, seen, s) := by
  rw [checkNodes, if_pos visited]

theorem checkNodes_failed {check : NodeCheck} (fresh : seen.contains f = false)
    (checked : check s f = .ok (false, t)) : s.checkNodes check f seen = .ok (false, seen, t) := by
  rw [checkNodes, if_neg (by simp [fresh]), checked]

theorem checkNodes_passed {check : NodeCheck} (fresh : seen.contains f = false)
    (checked : check s f = .ok (true, t)) : s.checkNodes check f seen =
      (t.node f).children.reverse.foldlM (checkNext check) (true, seen.insert f, t) := by
  rw [checkNodes, if_neg (by simp [fresh]), checked]
  simp only
  conv_rhs => rw [← List.attach_map_subtype_val (t.node f).children.reverse, List.foldlM_map]
  rfl

theorem checkNext_failed {check : NodeCheck} (gs : List Formula) :
    gs.foldlM (checkNext check) (false, seen, s) = .ok (false, seen, s) := by
  induction gs with
  | nil => rfl
  | cons g gs ih => exact ih

/-- What is done to some formulas is a walk from any worklist that begins with them: one that goes on
with the rest, or one that a failure ends. -/
structure Traces (check : NodeCheck) (fs : List Formula) (seen : Std.TreeSet Formula) (s : Store)
    (r : Bool × Std.TreeSet Formula × Store) : Prop where
  passed : r.1 = true → ∀ rest b seen' s', Walks check rest r.2.1 r.2.2 b seen' s' →
    Walks check (fs ++ rest) seen s b seen' s'
  failed : r.1 = false → ∀ rest, ∃ seen', Walks check (fs ++ rest) seen s false seen' r.2.2

theorem checkNext_traces {check : NodeCheck} {r : Bool × Std.TreeSet Formula × Store}
    (each : ∀ g ∈ gs, ∀ seen s r, s.checkNodes check g seen = .ok r → Traces check [g] seen s r)
    (run : gs.foldlM (checkNext check) (true, seen, s) = .ok r) : Traces check gs seen s r := by
  induction gs generalizing seen s with
  | nil =>
    cases run
    exact ⟨fun _ _ _ _ _ walks => walks, fun failed => absurd failed.symm Bool.false_ne_true⟩
  | cons g gs ih =>
    rw [List.forall_mem_cons] at each
    obtain ⟨⟨b, seen₁, s₁⟩, checked, run⟩ := bind_ok.mp run
    have first := each.1 seen s _ checked
    cases b with
    | false =>
      rw [checkNext_failed] at run
      cases run
      exact ⟨fun passed => absurd passed Bool.false_ne_true, fun _ rest => first.failed rfl (gs ++ rest)⟩
    | true =>
      have others := ih each.2 run
      constructor
      case passed =>
        intro passed rest b seen' s' walks
        exact first.passed rfl _ _ _ _ (others.passed passed rest b seen' s' walks)
      case failed =>
        intro failed rest
        obtain ⟨seen', walks⟩ := others.failed failed rest
        exact ⟨seen', first.passed rfl _ _ _ _ walks⟩

/-- Checking the nodes of a formula is a walk. -/
theorem checkNodes_traces {check : NodeCheck} {r : Bool × Std.TreeSet Formula × Store}
    (run : s.checkNodes check f seen = .ok r) : Traces check [f] seen s r := by
  -- operands have smaller handles, also in a store that a check has added to
  induction size : f.id using Nat.strongRecOn generalizing f s seen r with
  | ind k ih =>
    cases visited : seen.contains f with
    | true =>
      rw [checkNodes_visited visited] at run
      cases run
      exact ⟨fun _ _ _ _ _ walks => .drop visited walks, fun failed => absurd failed.symm Bool.false_ne_true⟩
    | false =>
      cases checked : check s f with
      | error fault =>
        rw [checkNodes, if_neg (by simp [visited]), checked] at run
        cases run
      | ok x =>
        obtain ⟨good, t⟩ := x
        cases good with
        | false =>
          rw [checkNodes_failed visited checked] at run
          cases run
          exact ⟨fun passed => absurd passed Bool.false_ne_true, fun _ rest => ⟨_, .fail visited checked⟩⟩
        | true =>
          rw [checkNodes_passed visited checked] at run
          have operands := checkNext_traces (fun g member seen s r run =>
            ih g.id (size ▸ t.child_lt (List.mem_reverse.mp member)) run rfl) run
          constructor
          case passed =>
            intro passed rest b seen' s' walks
            exact .visit visited checked (operands.passed passed rest b seen' s' walks)
          case failed =>
            intro failed rest
            obtain ⟨seen', walks⟩ := operands.failed failed rest
            exact ⟨seen', .visit visited checked walks⟩

/-! What a walk finds. -/

/-- The formulas that were visited and those that wait are below a root, the visited ones are good, and
their operands were visited or wait, as does the root. -/
structure Frontier (s : Store) (root : Formula) (Good : Formula → Prop) (waiting : List Formula)
    (seen : Std.TreeSet Formula) : Prop where
  waiting_below : ∀ g ∈ waiting, s.Below root g
  seen_good : ∀ g, seen.contains g = true → s.Below root g ∧ Good g
  covers : ∀ g, seen.contains g = true → ∀ c ∈ (s.node g).children, seen.contains c = true ∨ c ∈ waiting
  root_covered : seen.contains root = true ∨ root ∈ waiting

section Frontier

variable {root : Formula} {Good : Formula → Prop} {rest : List Formula}

theorem Frontier.start : s.Frontier root Good [root] ∅ where
  waiting_below g member := List.mem_singleton.mp member ▸ .refl
  seen_good g visited := by simp at visited
  covers g visited := by simp at visited
  root_covered := .inr (List.mem_singleton_self root)

theorem Frontier.drop (frontier : s.Frontier root Good (f :: rest) seen)
    (visited : seen.contains f = true) : s.Frontier root Good rest seen := by
  have left (g : Formula) (covered : seen.contains g = true ∨ g ∈ f :: rest) :
      seen.contains g = true ∨ g ∈ rest := by
    rcases covered with here | here
    · exact .inl here
    · rcases List.mem_cons.mp here with rfl | here
      · exact .inl visited
      · exact .inr here
  constructor
  case waiting_below => exact fun g member => frontier.waiting_below g (List.mem_cons_of_mem f member)
  case seen_good => exact frontier.seen_good
  case covers => exact fun g visited c child => left c (frontier.covers g visited c child)
  case root_covered => exact left root frontier.root_covered

theorem Frontier.visit (frontier : s.Frontier root Good (f :: rest) seen) (good : Good f) :
    s.Frontier root Good ((s.node f).children.reverse ++ rest) (seen.insert f) := by
  have below := frontier.waiting_below f List.mem_cons_self
  have left (g : Formula) (covered : seen.contains g = true ∨ g ∈ f :: rest) :
      (seen.insert f).contains g = true ∨ g ∈ (s.node f).children.reverse ++ rest := by
    rw [Std.TreeSet.contains_insert, Bool.or_eq_true, beq_iff_eq, Std.compare_eq_iff_eq, List.mem_append]
    rcases covered with here | here
    · exact .inl (.inr here)
    · rcases List.mem_cons.mp here with rfl | here
      · exact .inl (.inl rfl)
      · exact .inr (.inr here)
  constructor
  case waiting_below =>
    intro g member
    rcases List.mem_append.mp member with child | member
    · exact .tail below (List.mem_reverse.mp child)
    · exact frontier.waiting_below g (List.mem_cons_of_mem f member)
  case seen_good =>
    intro g visited
    rw [Std.TreeSet.contains_insert, Bool.or_eq_true, beq_iff_eq, Std.compare_eq_iff_eq] at visited
    rcases visited with rfl | visited
    · exact ⟨below, good⟩
    · exact frontier.seen_good g visited
  case covers =>
    intro g visited c child
    rw [Std.TreeSet.contains_insert, Bool.or_eq_true, beq_iff_eq, Std.compare_eq_iff_eq] at visited
    rcases visited with rfl | visited
    · exact .inr (List.mem_append_left rest (List.mem_reverse.mpr child))
    · exact left c (frontier.covers g visited c child)
  case root_covered => exact left root frontier.root_covered

theorem Frontier.contains_iff (frontier : s.Frontier root Good [] seen) :
    seen.contains g = true ↔ s.Below root g := by
  constructor
  · exact fun visited => (frontier.seen_good g visited).1
  · intro below
    induction below with
    | refl => exact frontier.root_covered.resolve_right List.not_mem_nil
    | tail _ child visited => exact (frontier.covers _ visited _ child).resolve_right List.not_mem_nil

/-- A check that decides a property of the nodes below a root in every store that grows from the first
is carried out on all of them, up to a failure. -/
theorem Walks.decides {check : NodeCheck} (wf : s.WellFormed) (known : root ∈ s)
    (decides : ∀ g, s.Below root g → ∀ t, Grows s t → ∀ b t', check t g = .ok (b, t') →
      Grows s t' ∧ (b = true ↔ Good g))
    {stack : List Formula} (walks : Walks check stack seen t b seen' t') (grows : Grows s t)
    (frontier : s.Frontier root Good stack seen) :
    Grows s t' ∧ (b = true → s.Frontier root Good [] seen') ∧
      (b = false → ∃ g, s.Below root g ∧ ¬Good g) := by
  induction walks with
  | done => exact ⟨grows, fun _ => frontier, nofun⟩
  | drop visited _ ih => exact ih grows (frontier.drop visited)
  | @fail f _ _ t _ _ checked =>
    have below := frontier.waiting_below f List.mem_cons_self
    obtain ⟨grows', good⟩ := decides f below t grows _ _ checked
    refine ⟨grows', nofun, fun _ => ⟨f, below, fun holds => ?_⟩⟩
    cases good.mpr holds
  | @visit f _ _ _ t t₁ _ _ _ checked _ ih =>
    have below := frontier.waiting_below f List.mem_cons_self
    obtain ⟨grows', good⟩ := decides f below t grows _ _ checked
    apply ih grows'
    rw [(grows'.later wf).node_eq (below_mem known below)]
    exact frontier.visit (good.mp rfl)

theorem checkNext_strives {check : NodeCheck} (grows : Grows s t)
    (each : ∀ g ∈ gs, ∀ t seen, Grows s t →
      Strives hard (t.checkNodes check g seen) fun r => Grows s r.2.2) (b : Bool) :
    Strives hard (gs.foldlM (checkNext check) (b, seen, t)) fun r => Grows s r.2.2 := by
  induction gs generalizing b seen t with
  | nil => exact .inl (.pure grows)
  | cons g gs ih =>
    cases b with
    | false =>
      rw [checkNext_failed]
      exact .inl (.ok grows)
    | true =>
      rw [List.forall_mem_cons] at each
      rw [List.foldlM_cons]
      apply (each.1 t seen grows).bind
      rintro ⟨b, seen', t'⟩ - grows'
      exact ih grows' each.2 b

theorem checkNodes_strives {check : NodeCheck} (wf : s.WellFormed) (known : root ∈ s)
    (strives : ∀ g, s.Below root g → ∀ t, Grows s t → Strives hard (check t g) fun x => Grows s x.2)
    (below : s.Below root f) (grows : Grows s t) (seen : Std.TreeSet Formula) :
    Strives hard (t.checkNodes check f seen) fun r => Grows s r.2.2 := by
  induction size : f.id using Nat.strongRecOn generalizing f t seen with
  | ind k ih =>
    cases visited : seen.contains f with
    | true =>
      rw [checkNodes_visited visited]
      exact .inl (.ok grows)
    | false =>
      rcases strives f below t grows with ⟨⟨good, t'⟩, checked, grows'⟩ | ⟨exhausting, failed⟩
      · cases good with
        | false =>
          rw [checkNodes_failed visited checked]
          exact .inl (.ok grows')
        | true =>
          rw [checkNodes_passed visited checked]
          apply checkNext_strives grows'
          intro g member u seen' grown
          have child := List.mem_reverse.mp member
          have before : g ∈ (s.node f).children := by
            rwa [← (grows'.later wf).node_eq (below_mem known below)]
          exact ih g.id (size ▸ t'.child_lt child) (.tail below before) grown seen' rfl
      · rw [checkNodes, if_neg (by simp [visited]), failed]
        exact .inr ⟨exhausting, rfl⟩

/-- The answer comes of a walk that ends. If it is set, the walk has visited just the formulas below
the root. -/
def Visits (check : NodeCheck) (s : Store) (root : Formula) (x : Bool × Store) : Prop :=
  ∃ seen, Walks check [root] ∅ s x.1 seen x.2 ∧
    (x.1 = true → ∀ g, seen.contains g = true ↔ s.Below root g)

theorem checkNodes_decides {check : NodeCheck} (wf : s.WellFormed) (known : root ∈ s)
    (decides : ∀ g, s.Below root g → ∀ t, Grows s t → Strives hard (check t g) fun x =>
      Grows s x.2 ∧ (x.1 = true ↔ Good g)) :
    Strives hard (s.checkNodes check root ∅) fun r =>
      (r.1 = true ↔ ∀ g, s.Below root g → Good g) ∧ Visits check s root (r.1, r.2.2) := by
  have ends := checkNodes_strives wf known
    (fun g below t grows => (decides g below t grows).mono id fun _ => And.left) .refl (Grows.refl s) ∅
  rcases ends with ⟨⟨b, seen, t⟩, run, _⟩ | exhausted
  · have traces := checkNodes_traces run
    have walk : ∃ seen', Walks check [root] ∅ s b seen' t := by
      cases b with
      | false => exact traces.failed rfl []
      | true => exact ⟨seen, traces.passed rfl [] _ _ _ .done⟩
    obtain ⟨seen', walks⟩ := walk
    have start : s.Frontier root Good [root] ∅ := .start
    obtain ⟨_, passed, failed⟩ := walks.decides wf known
      (fun g below t grows b t' checked => (decides g below t grows).answer checked) (Grows.refl s) start
    refine .inl ⟨_, run, ⟨fun all g below => ?_, fun all => ?_⟩, seen', walks, fun all g => ?_⟩
    · exact ((passed all).seen_good g ((passed all).contains_iff.mpr below)).2
    · by_contra unset
      obtain ⟨g, below, bad⟩ := failed (by simpa using unset)
      exact bad (all g below)
    · exact (passed all).contains_iff
  · exact .inr exhausted

end Frontier

/-! Pairs of operands. -/

section Pairs

variable {check : Store → Formula → Formula → Except Fault (Bool × Store)}
  {Good : Formula → Formula → Prop}

theorem checkAgainst_decides (grows : Grows s t)
    (decides : ∀ g ∈ gs, ∀ t, Grows s t → Strives hard (check t f g) fun x =>
      Grows s x.2 ∧ (x.1 = true ↔ Good f g)) :
    Strives hard (checkAgainst check f gs t) fun x =>
      Grows s x.2 ∧ (x.1 = true ↔ ∀ g ∈ gs, Good f g) := by
  induction gs generalizing t with
  | nil => exact .inl (.ok ⟨grows, by simp⟩)
  | cons g gs ih =>
    rw [List.forall_mem_cons] at decides
    rw [checkAgainst]
    apply (decides.1 t grows).bind
    rintro ⟨good, t'⟩ - ⟨grows', here⟩
    rw [List.forall_mem_cons, ← here]
    cases good with
    | false => exact .inl (.pure ⟨grows', by simp⟩)
    | true => exact (ih grows' decides.2).mono id fun x rest => by simpa using rest

theorem checkPairs_decides (grows : Grows s t)
    (decides : fs.Pairwise fun f g => ∀ t, Grows s t → Strives hard (check t f g) fun x =>
      Grows s x.2 ∧ (x.1 = true ↔ Good f g)) :
    Strives hard (checkPairs check fs t) fun x => Grows s x.2 ∧ (x.1 = true ↔ fs.Pairwise Good) := by
  induction fs generalizing t with
  | nil => exact .inl (.ok ⟨grows, by simp⟩)
  | cons f fs ih =>
    rw [List.pairwise_cons] at decides
    rw [checkPairs]
    apply (checkAgainst_decides grows decides.1).bind
    rintro ⟨good, t'⟩ - ⟨grows', here⟩
    rw [List.pairwise_cons, ← here]
    cases good with
    | false => exact .inl (.pure ⟨grows', by simp⟩)
    | true => exact (ih grows' decides.2).mono id fun x rest => by simpa using rest

end Pairs

/-! The two checks. -/

theorem WellFormed.satisfiable_iff (wf : s.WellFormed) (known : f ∈ s) :
    (∃ a : Assignment, s.evaluate f a = true) ↔ ∃ value, s.eval value f = true := by
  constructor
  · rintro ⟨a, true_⟩
    exact ⟨a.holds, true_⟩
  · rintro ⟨value, true_⟩
    obtain ⟨_, agrees⟩ := Assignment.ofList_values (wf.ascending_vars known) value
    exact ⟨_, (wf.eval_congr known agrees).trans true_⟩

theorem contradict_decides (wf : s.WellFormed) (hf : f ∈ s) (hg : g ∈ s) (grows : Grows s t) :
    Strives (Hard (t.conj [f, g])) (t.contradict f g) fun x =>
      Grows s x.2 ∧ (x.1 = true ↔ s.Exclusive f g) := by
  have wf' := grows.wellFormed wf
  have later := grows.later wf
  have known : ∀ h ∈ [f, g], h ∈ t := by simp [later.mem hf, later.mem hg]
  have builds : Builds t (t.conj [f, g]) _ _ := wf'.junction_builds (c := .conj) known
  have both (value : Var → Bool) :
      (t.conj [f, g]).2.eval value (t.conj [f, g]).1 = (s.eval value f && s.eval value g) := by
    rw [← later.eval_eq hf, ← later.eval_eq hg]
    exact (builds.eval_eq value).trans (by simp [Connective.holds])
  unfold contradict
  apply ((builds.wellFormed wf').isSatisfiable_decides builds.mem).bind
  rintro ⟨b, t'⟩ run decides
  have grows' := (builds.wellFormed wf').isSatisfiable_grows builds.mem run
  refine .inl (.pure ⟨(grows.trans builds.grows).trans grows', ?_⟩)
  rw [(builds.wellFormed wf').satisfiable_iff builds.mem] at decides
  simp only [both, Bool.and_eq_true] at decides
  rw [Bool.not_eq_true', ← Bool.not_eq_true, decides, not_exists]
  rfl

theorem decomposableNode_decides (wf : s.WellFormed) (known : g ∈ s) (grows : Grows s t) :
    Strives hard (decomposableNode t g) fun x =>
      Grows s x.2 ∧ (x.1 = true ↔ ∀ fs, s.node g = .and fs → fs.Pairwise s.Apart) := by
  have later := grows.later wf
  unfold decomposableNode
  rw [later.node_eq known]
  split
  · rename_i fs shape
    have member (a : Formula) (operand : a ∈ fs) : a ∈ s := child_mem known (by rwa [shape])
    have each : fs.Pairwise fun a b => ∀ t, Grows s t →
        Strives hard (.ok (disjointVars (t.vars a) (t.vars b), t)) fun x =>
          Grows s x.2 ∧ (x.1 = true ↔ s.Apart a b) := by
      apply List.pairwise_of_forall_mem_list
      intro a ha b hb t grows
      rw [← (grows.later wf).apart_iff (member a ha) (member b hb)]
      exact .inl (.ok ⟨grows, by simp [disjointVars, Apart]⟩)
    apply (checkPairs_decides grows each).mono id
    rintro x ⟨grows', decides⟩
    refine ⟨grows', decides.trans ⟨fun all gs same => ?_, fun all => all fs shape⟩⟩
    cases shape.symm.trans same
    exact all
  · rename_i other
    exact .inl (.ok ⟨grows, fun _ fs shape => absurd shape (other fs), fun _ => rfl⟩)

/-- A conjunction of two operands of a disjunction below a formula, made in a store that grew from the
first, is hard to satisfy. -/
def HardPair (s : Store) (f : Formula) : Prop :=
  ∃ g, s.Below f g ∧ ∃ fs, s.node g = .or fs ∧ ∃ a ∈ fs, ∃ b ∈ fs, a ≠ b ∧
    ∃ t, Grows s t ∧ Hard (t.conj [a, b])

theorem deterministicNode_decides (wf : s.WellFormed) (known : f ∈ s) (below : s.Below f g)
    (grows : Grows s t) : Strives (s.HardPair f) (deterministicNode t g) fun x => Grows s x.2 ∧
      (x.1 = true ↔ ∀ fs, s.node g = .or fs → ∀ a ∈ fs, ∀ b ∈ fs, a ≠ b → s.Exclusive a b) := by
  have later := grows.later wf
  have here := below_mem known below
  unfold deterministicNode
  rw [later.node_eq here]
  split
  · rename_i fs shape
    have member (a : Formula) (operand : a ∈ fs) : a ∈ s := child_mem here (by rwa [shape])
    have distinct := (wf.operands_of_node (c := .disj) here shape).distinct
    have each : fs.Pairwise fun a b => ∀ t, Grows s t → Strives (s.HardPair f) (t.contradict a b)
        fun x => Grows s x.2 ∧ (x.1 = true ↔ s.Exclusive a b) := by
      apply distinct.imp_of_mem
      intro a b ha hb other t grows
      apply (contradict_decides wf (member a ha) (member b hb) grows).mono _ fun _ => id
      exact fun exhausting => ⟨g, below, fs, shape, a, ha, b, hb, other, t, grows, exhausting⟩
    apply (checkPairs_decides grows each).mono id
    rintro x ⟨grows', decides⟩
    refine ⟨grows', decides.trans ⟨fun all gs same a ha b hb other => ?_, fun all => ?_⟩⟩
    · cases shape.symm.trans same
      exact all.forall ha hb other
    · exact distinct.imp_of_mem fun ha hb other => all fs shape _ ha _ hb other
  · rename_i other
    exact .inl (.ok ⟨grows, fun _ fs shape => absurd shape (other fs), fun _ => rfl⟩)

/-! Negation normal form. -/

/-- No negation, implication or equivalence is below the formula. -/
def InNnf (s : Store) (f : Formula) : Prop :=
  ∀ g, s.Below f g → match s.node g with
    | .falsum | .verum | .lit _ | .and _ | .or _ => True
    | .not _ | .implies .. | .equiv .. => False

theorem isNnf_iff : s.isNnf f = true ↔ s.InNnf f := by
  constructor
  · intro normal g below
    have each : s.isNnf g = true := by
      induction below with
      | refl => exact normal
      | tail _ child ih => exact isNnf_child ih child
    rw [isNnf_node] at each
    cases shape : s.node g with
    | falsum | verum | lit | and | or => trivial
    | not | implies | equiv =>
      rw [shape] at each
      cases each
  · intro normal
    induction size : f.id using Nat.strongRecOn generalizing f with
    | ind k ih =>
      have here := normal f .refl
      have operand (c : Formula) (child : c ∈ (s.node f).children) : s.isNnf c = true :=
        ih c.id (size ▸ s.child_lt child) (fun g below => normal g (.head child below)) rfl
      rw [isNnf_node]
      cases shape : s.node f with
      | falsum | verum | lit => rfl
      | and fs | or fs =>
        rw [shape] at operand
        exact List.all_eq_true.mpr operand
      | not | implies | equiv =>
        rw [shape] at here
        exact here.elim

/-! Small circuits. -/

theorem flatten_below {c : Connective} (operand : g ∈ s.flatten c f) : s.Below f g := by
  by_cases neutral : f = c.neutral
  · rw [neutral, flatten_neutral] at operand
    cases operand
  · rcases s.flatten_cases c neutral with ⟨gs, shape, flat⟩ | ⟨_, flat⟩
    · rw [flat] at operand
      exact .single (by rwa [shape, Connective.node_children])
    · rw [flat, List.mem_singleton] at operand
      exact operand ▸ .refl

/-- Below a junction are what is below the operands, and itself. -/
theorem Joined.below {c : Connective} {h : Formula} (joined : Joined s c fs g t)
    (known : ∀ f ∈ fs, f ∈ s) (below : t.Below g h) : h = g ∨ ∃ f ∈ fs, s.Below f h := by
  have constant (constant : g.isConstant = true) : h = g := by
    rcases t.below_iff.mp below with same | ⟨k, child, _⟩
    · exact same
    · rcases joined.wellFormed.node_constant constant with shape | shape <;>
        rw [shape] at child <;> cases child
  by_cases decided : s.Decided c fs
  · exact .inl (constant ((isConstant_iff c).mpr (.inr (joined.decided decided))))
  by_cases neutral : g = c.neutral
  · exact .inl (constant ((isConstant_iff c).mpr (.inl neutral)))
  -- what an operand leads to in the later store, it leads to in the first
  have before {o : Formula} (operand : o ∈ s.operandsOf c fs) (below : t.Below o h) :
      ∃ f ∈ fs, s.Below f h := by
    obtain ⟨f, member, flat⟩ := mem_operandsOf.mp operand
    have onward := flatten_below flat
    rw [joined.later.below_iff (below_mem (known f member) onward)] at below
    exact ⟨f, member, onward.trans below⟩
  rcases t.flatten_cases c neutral with ⟨gs, shape, flat⟩ | ⟨_, flat⟩
  · rcases t.below_iff.mp below with same | ⟨o, child, below⟩
    · exact .inl same
    · rw [shape, Connective.node_children, ← flat, joined.flatten_eq decided] at child
      exact .inr (before child below)
  · rw [joined.flatten_eq decided] at flat
    exact .inr (before (flat ▸ List.mem_singleton_self g) below)

theorem ncard_parts_lit {l : Lit} (shape : s.node f = .lit l) : (s.parts f).ncard ≤ 1 := by
  have alone : s.parts f ⊆ {f} := by
    intro g part
    induction part with
    | refl => rfl
    | tail _ child same =>
      rw [same, shape] at child
      cases child
  have few := Set.ncard_le_ncard alone
  rwa [Set.ncard_singleton] at few

theorem Joined.ncard_parts {c : Connective} {h : Formula} (joined : Joined s c [f, g] h t)
    (hf : f ∈ s) (hg : g ∈ s) :
    (t.parts h).ncard ≤ (s.parts f).ncard + (s.parts g).ncard + 1 := by
  have inside : t.parts h ⊆ insert h (s.parts f ∪ s.parts g) := by
    intro k below
    rcases joined.below (by simp [hf, hg]) below with same | ⟨o, member, below⟩
    · exact .inl same
    · rcases List.mem_pair.mp member with rfl | rfl
      · exact .inr (.inl below)
      · exact .inr (.inr below)
  have finite := ((s.finite_parts f).union (s.finite_parts g)).insert h
  have few := Set.ncard_le_ncard inside finite
  have := Set.ncard_insert_le h (s.parts f ∪ s.parts g)
  have := Set.ncard_union_le (s.parts f) (s.parts g)
  omega

theorem Extends.parts_eq (later : Extends s t) (known : f ∈ s) : t.parts f = s.parts f :=
  Set.ext fun _ => later.below_iff known

/-- A circuit of up to 31 nodes has no pair that is hard. -/
theorem small_easy (wf : s.WellFormed) (known : f ∈ s) (normal : s.isNnf f = true)
    (few : (s.parts f).ncard < 32) : ¬s.HardPair f := by
  rintro ⟨g, below, fs, shape, a, ha, b, hb, _, t, grows, exhausting⟩
  have wf' := grows.wellFormed wf
  have later := grows.later wf
  have operand (a : Formula) (member : a ∈ fs) :
      a ∈ t ∧ t.isNnf a = true ∧ (t.parts a).ncard ≤ (s.parts f).ncard := by
    have reached : s.Below f a := .tail below (by rwa [shape])
    have here := below_mem known reached
    have inside : s.parts a ⊆ s.parts f := fun k part => reached.trans part
    rw [later.parts_eq here, later.isNnf_eq here, isNnf_iff]
    exact ⟨later.mem here, fun k part => isNnf_iff.mp normal k (reached.trans part),
      Set.ncard_le_ncard inside (s.finite_parts f)⟩
  obtain ⟨hereA, normalA, fewA⟩ := operand a ha
  obtain ⟨hereB, normalB, fewB⟩ := operand b hb
  have joined : Joined t .conj [a, b] (t.conj [a, b]).1 (t.conj [a, b]).2 :=
    wf'.junction_joined (by simp [hereA, hereB])
  have normal := joined.isNnf wf' (by simp [hereA, hereB]) (by simp [normalA, normalB])
  have bound := joined.ncard_parts hereA hereB
  unfold Hard at exhausting
  rw [joined.wellFormed.nnf_of_isNnf joined.mem normal] at exhausting
  change 64 ≤ ((t.conj [a, b]).2.parts (t.conj [a, b]).1).ncard at exhausting
  omega

/-- In every store that a history of requests leads to, a circuit is found decomposable just if it is
in negation normal form and the operands of each conjunction below it share no variable, and
deterministic just if no two operands of a disjunction below it have a model in common. The nodes are
walked through to an end, and when the answer is set all of them were visited. -/
theorem checks_decide (leads : Leads initial s) (d : Circuit) (known : d.formula ∈ s) :
    Delivers (d.isDecomposable s) (fun x =>
        (x.1 = true ↔ s.InNnf d.formula ∧ s.Decomposable d.formula) ∧
          (s.InNnf d.formula → Visits decomposableNode s d.formula x)) ∧
      Strives (s.HardPair d.formula) (d.isDeterministic s) fun x =>
        (x.1 = true ↔ s.Deterministic d.formula) ∧ Visits deterministicNode s d.formula x := by
  have wf := leads.wellFormed
  constructor
  · unfold Circuit.isDecomposable
    split
    · rename_i normal
      have walk : Strives False (s.checkNodes decomposableNode d.formula ∅) fun r =>
          (r.1 = true ↔ s.Decomposable d.formula) ∧ Visits decomposableNode s d.formula (r.1, r.2.2) :=
        checkNodes_decides wf known
          fun g below t grows => decomposableNode_decides wf (below_mem known below) grows
      apply (walk.resolve_right And.left).bind
      rintro ⟨b, seen, t⟩ - ⟨decides, visits⟩
      rw [isNnf_iff] at normal
      exact .pure ⟨decides.trans ⟨fun all => ⟨normal, all⟩, And.right⟩, fun _ => visits⟩
    · rename_i other
      rw [isNnf_iff] at other
      exact .ok ⟨⟨nofun, fun both => absurd both.1 other⟩, fun normal => absurd normal other⟩
  · unfold Circuit.isDeterministic
    have walk : Strives (s.HardPair d.formula) (s.checkNodes deterministicNode d.formula ∅) fun r =>
        (r.1 = true ↔ s.Deterministic d.formula) ∧ Visits deterministicNode s d.formula (r.1, r.2.2) :=
      checkNodes_decides wf known fun g below t grows => deterministicNode_decides wf known below grows
    apply walk.bind
    rintro ⟨b, seen, t⟩ - answers
    exact .inl (.pure answers)

/-- A variable, or its complement beside another variable, passes both checks. -/
theorem checks_decide_choice : ∃ (s : Store) (d : Circuit), Leads initial s ∧
    (∀ value, s.eval value d.formula = (value ⟨0⟩ || !value ⟨0⟩ && value ⟨1⟩)) ∧
      Delivers (d.isDecomposable s) (fun x => x.1 = true ∧ Visits decomposableNode s d.formula x) ∧
      Delivers (d.isDeterministic s) fun x => x.1 = true ∧ Visits deterministicNode s d.formula x := by
  have words : ∀ l ∈ [⟨0⟩, ⟨1⟩, (⟨2⟩ : Lit)], l.code < Node.wordLimit := by decide
  obtain ⟨s₁, leads₁, made⟩ := initial_wellFormed.exists_literals words
  obtain ⟨a, knownA, shapeA⟩ := made ⟨0⟩ (by simp)
  obtain ⟨a', knownA', shapeA'⟩ := made ⟨1⟩ (by simp)
  obtain ⟨b, knownB, shapeB⟩ := made ⟨2⟩ (by simp)
  have wf := leads₁.wellFormed
  obtain ⟨valueA, _⟩ := wf.lit_meaning knownA shapeA
  obtain ⟨valueA', onlyA'⟩ := wf.lit_meaning knownA' shapeA'
  obtain ⟨valueB, onlyB⟩ := wf.lit_meaning knownB shapeB
  have exclusive : s₁.Exclusive a a' := by
    intro value
    rw [valueA, valueA']
    simp [Lit.holds, Lit.var, Lit.phase]
  have apart : s₁.Apart a' b := by
    intro v here there
    cases (onlyA' v here).symm.trans (onlyB v there)
  obtain ⟨s₂, s, x, f, ⟨leads₂, both, _⟩, ⟨leads₃, either, whole⟩, choice⟩ :=
    wf.exists_choice_joined (countable_lit knownA shapeA) (countable_lit knownA' shapeA')
      (countable_lit knownB shapeB) exclusive apart
  have value (value : Var → Bool) : s.eval value f = (value ⟨0⟩ || !value ⟨0⟩ && value ⟨1⟩) := by
    rw [choice, valueA, valueA', valueB]
    simp [Lit.holds, Lit.var, Lit.phase]
  have few : (s.parts f).ncard < 32 := by
    have := either.ncard_parts (both.later.mem knownA) both.mem
    have := both.ncard_parts knownA' knownB
    have := ncard_parts_lit ((both.later.node_eq knownA).trans shapeA)
    have := ncard_parts_lit shapeA'
    have := ncard_parts_lit shapeB
    omega
  have leads : Leads initial s := (leads₁.trans leads₂).trans leads₃
  obtain ⟨decomposable, deterministic⟩ := checks_decide leads (.ofVars f [⟨0⟩, ⟨1⟩]) whole.mem
  have normal := isNnf_iff.mp whole.isNnf
  have easy := small_easy leads.wellFormed whole.mem whole.isNnf few
  refine ⟨s, .ofVars f [⟨0⟩, ⟨1⟩], leads, value, ?_, ?_⟩
  · exact decomposable.mono fun x answers =>
      ⟨answers.1.mpr ⟨normal, whole.decomposable⟩, answers.2 normal⟩
  · have ends := deterministic.resolve_right fun exhausted => easy exhausted.1
    exact ends.mono fun x answers => ⟨answers.1.mpr whole.deterministic, answers.2⟩

end Store

end ModelCounting
