import ModelCounting.Circuit.Check
import ModelCounting.Proofs.Recompilation

/-!
Sharing of formulas. Whatever a store is asked for, it grows by its constructors only, so every store
that a history of requests leads to is well formed. There a formula is its tree: formulas with equal
trees are the same node, and a node stays what it is.
-/

namespace ModelCounting

theorem Var.truncated_fits (v : Var) : v.truncated.Fits := by
  simp only [Var.Fits, Var.truncated, Node.wordLimit]
  omega

/-- A formula written out as a tree, without sharing. -/
inductive Expression where
  | falsum
  | verum
  | lit (l : Lit)
  | not (e : Expression)
  | and (es : List Expression)
  | or (es : List Expression)
  | implies (e d : Expression)
  | equiv (e d : Expression)
  deriving Inhabited

/-- The tree of a node, given those of its operands. -/
def Node.unfold (sub : Formula → Expression) : Node → Expression
  | .falsum => .falsum
  | .verum => .verum
  | .lit l => .lit l
  | .not f => .not (sub f)
  | .and fs => .and (fs.map sub)
  | .or fs => .or (fs.map sub)
  | .implies f g => .implies (sub f) (sub g)
  | .equiv f g => .equiv (sub f) (sub g)

namespace Store

variable {s s' : Store} {f g : Formula}

/-- The tree below a formula. -/
def expression (s : Store) (f : Formula) : Expression := s.fold Node.unfold f

theorem unfold_local : Local Node.unfold := by
  intro n sub sub' agree
  cases n with
  | falsum | verum | lit => rfl
  | not f => simp only [Node.unfold, agree f (by simp [Node.children])]
  | and fs | or fs => exact congrArg _ (List.map_congr_left agree)
  | implies f g | equiv f g =>
    simp only [Node.unfold, agree f (by simp [Node.children]), agree g (by simp [Node.children])]

theorem expression_node (s : Store) (f : Formula) :
    s.expression f = (s.node f).unfold s.expression :=
  fold_node unfold_local s f

theorem operands_inj {sub : Formula → Expression} {fs gs : List Formula}
    (apart : ∀ c ∈ fs, ∀ d ∈ gs, sub c = sub d → c = d) (same : fs.map sub = gs.map sub) : fs = gs := by
  induction fs generalizing gs with
  | nil => exact (List.map_eq_nil_iff.mp same.symm).symm
  | cons c fs ih =>
    cases gs with
    | nil => cases same
    | cons d gs =>
      obtain ⟨first, rest⟩ := List.cons.inj same
      have others : fs = gs := ih (fun c hc d hd =>
        apart c (List.mem_cons_of_mem _ hc) d (List.mem_cons_of_mem _ hd)) rest
      rw [apart c List.mem_cons_self d List.mem_cons_self first, others]

/-- Nodes whose operands are told apart by their trees are told apart by theirs. -/
theorem unfold_inj {sub : Formula → Expression} {n m : Node}
    (apart : ∀ c ∈ n.children, ∀ d ∈ m.children, sub c = sub d → c = d)
    (same : n.unfold sub = m.unfold sub) : n = m := by
  have pair {a b c d : Formula} (apart : ∀ x ∈ [a, b], ∀ y ∈ [c, d], sub x = sub y → x = y)
      (first : sub a = sub c) (second : sub b = sub d) : a = c ∧ b = d :=
    ⟨apart a (by simp) c (by simp) first, apart b (by simp) d (by simp) second⟩
  cases n with
  | falsum =>
    cases m with
    | falsum => rfl
    | verum | lit | not | and | or | implies | equiv => cases same
  | verum =>
    cases m with
    | verum => rfl
    | falsum | lit | not | and | or | implies | equiv => cases same
  | lit l =>
    cases m with
    | lit k => exact congrArg Node.lit (Expression.lit.inj same)
    | falsum | verum | not | and | or | implies | equiv => cases same
  | not f =>
    cases m with
    | not g => exact congrArg Node.not (apart f (.head _) g (.head _) (Expression.not.inj same))
    | falsum | verum | lit | and | or | implies | equiv => cases same
  | and fs =>
    cases m with
    | and gs => exact congrArg Node.and (operands_inj apart (Expression.and.inj same))
    | falsum | verum | lit | not | or | implies | equiv => cases same
  | or fs =>
    cases m with
    | or gs => exact congrArg Node.or (operands_inj apart (Expression.or.inj same))
    | falsum | verum | lit | not | and | implies | equiv => cases same
  | implies a b =>
    cases m with
    | implies c d =>
      obtain ⟨first, second⟩ := Expression.implies.inj same
      obtain ⟨rfl, rfl⟩ := pair apart first second
      rfl
    | falsum | verum | lit | not | and | or | equiv => cases same
  | equiv a b =>
    cases m with
    | equiv c d =>
      obtain ⟨first, second⟩ := Expression.equiv.inj same
      obtain ⟨rfl, rfl⟩ := pair apart first second
      rfl
    | falsum | verum | lit | not | and | or | implies => cases same

theorem WellFormed.expression_inj (wf : s.WellFormed) (hf : f ∈ s) (hg : g ∈ s)
    (same : s.expression f = s.expression g) : f = g := by
  induction size : f.id using Nat.strongRecOn generalizing f g with
  | ind k ih =>
    rw [expression_node, s.expression_node g] at same
    refine wf.node_inj hf hg (unfold_inj (fun c left d right equal => ?_) same)
    exact ih c.id (size ▸ s.child_lt left) (child_mem hf left) (child_mem hg right) equal rfl

/-! Requests. -/

theorem oneSat_store {a : Option Assignment} (run : s.oneSat f = .ok (a, s')) : s' = (s.nnf f).2 := by
  unfold oneSat at run
  simp only at run
  split_ifs at run
  · cases run
    rfl
  · obtain ⟨e, _, run⟩ := bind_ok.mp run
    obtain ⟨x, _, rest⟩ := bind_ok.mp run
    split at rest <;> cases rest <;> rfl
  · obtain ⟨y, _, run⟩ := bind_ok.mp run
    obtain ⟨e, _, run⟩ := bind_ok.mp run
    obtain ⟨x, _, rest⟩ := bind_ok.mp run
    split at rest <;> cases rest <;> rfl

theorem WellFormed.isSatisfiable_grows (wf : s.WellFormed) (known : f ∈ s) {b : Bool}
    (run : s.isSatisfiable f = .ok (b, s')) : Grows s s' := by
  simp only [isSatisfiable, bind_ok, pure_ok, Prod.exists, Prod.mk.injEq] at run
  obtain ⟨a, s₁, ran, rfl, rfl⟩ := run
  rw [oneSat_store ran]
  exact (wf.nnf_rebuilds known).grows

theorem WellFormed.isTautology_grows (wf : s.WellFormed) (known : f ∈ s) {b : Bool}
    (run : s.isTautology f = .ok (b, s')) : Grows s s' := by
  simp only [isTautology, bind_ok, pure_ok, Prod.exists, Prod.mk.injEq] at run
  obtain ⟨a, s₁, ran, rfl, rfl⟩ := run
  have negated := wf.neg_rebuilds known
  exact negated.grows.trans ((negated.grows.wellFormed wf).isSatisfiable_grows negated.right ran)

theorem WellFormed.contradict_grows (wf : s.WellFormed) (hf : f ∈ s) (hg : g ∈ s) {b : Bool}
    (run : s.contradict f g = .ok (b, s')) : Grows s s' := by
  simp only [contradict, bind_ok, pure_ok, Prod.exists, Prod.mk.injEq] at run
  obtain ⟨a, s₁, ran, rfl, rfl⟩ := run
  have both := wf.junction_rebuilds (c := .conj) (show ∀ h ∈ [f, g], h ∈ s by simp [hf, hg])
  exact both.grows.trans ((both.grows.wellFormed wf).isSatisfiable_grows both.right ran)

section Checks

variable {check : Store → Formula → Formula → Except Fault (Bool × Store)} {fs : List Formula} {b : Bool}

theorem checkAgainst_grows (wf : s.WellFormed) (hf : f ∈ s) (known : ∀ g ∈ fs, g ∈ s)
    (each : ∀ s g b s', s.WellFormed → f ∈ s → g ∈ s → check s f g = .ok (b, s') → Grows s s')
    (run : checkAgainst check f fs s = .ok (b, s')) : Grows s s' := by
  induction fs generalizing s with
  | nil =>
    cases run
    exact Grows.refl _
  | cons g fs ih =>
    simp only [checkAgainst, bind_ok] at run
    obtain ⟨⟨good, s₁⟩, checked, rest⟩ := run
    have grows := each s g good s₁ wf hf (known g (by simp)) checked
    cases good with
    | false =>
      cases rest
      exact grows
    | true =>
      have later := grows.later wf
      exact grows.trans (ih (grows.wellFormed wf) (later.mem hf)
        (fun h member => later.mem (known h (List.mem_cons_of_mem g member))) rest)

theorem checkPairs_grows (wf : s.WellFormed) (known : ∀ g ∈ fs, g ∈ s)
    (each : ∀ s f g b s', s.WellFormed → f ∈ s → g ∈ s → check s f g = .ok (b, s') → Grows s s')
    (run : checkPairs check fs s = .ok (b, s')) : Grows s s' := by
  induction fs generalizing s with
  | nil =>
    cases run
    exact Grows.refl _
  | cons f fs ih =>
    simp only [checkPairs, bind_ok] at run
    obtain ⟨⟨good, s₁⟩, checked, rest⟩ := run
    have grows := checkAgainst_grows wf (known f (by simp))
      (fun g member => known g (List.mem_cons_of_mem f member)) (fun s => each s f) checked
    cases good with
    | false =>
      cases rest
      exact grows
    | true =>
      have later := grows.later wf
      exact grows.trans (ih (grows.wellFormed wf)
        (fun h member => later.mem (known h (List.mem_cons_of_mem f member))) rest)

theorem checkNodes_grows {check : NodeCheck} (wf : s.WellFormed) (known : f ∈ s)
    (each : ∀ s f b s', s.WellFormed → f ∈ s → check s f = .ok (b, s') → Grows s s')
    {seen seen' : Std.TreeSet Formula} (run : s.checkNodes check f seen = .ok (b, seen', s')) :
    Grows s s' := by
  induction size : f.id using Nat.strongRecOn generalizing f s s' seen seen' b with
  | ind k ih =>
    rw [checkNodes] at run
    split at run
    · cases run
      exact Grows.refl _
    split at run
    · cases run
    · rename_i checked
      cases run
      exact each _ _ _ _ wf known checked
    · rename_i s₁ checked
      have first := each _ _ _ _ wf known checked
      -- every operand is checked in a store that has grown from the first one
      refine foldlM_ok (fun r : Bool × Std.TreeSet Formula × Store => Grows s r.2.2)
        (fun g _ r r' grows step => ?_) first run
      obtain ⟨good, seen₁, s₂⟩ := r
      have child : g.1 ∈ (s₁.node f).children := List.mem_reverse.mp g.2
      cases good with
      | false =>
        cases step
        exact grows
      | true =>
        have operand : g.1 ∈ s := child_mem known (by rwa [← (first.later wf).node_eq known])
        exact grows.trans (ih g.1.id (size ▸ s₁.child_lt child) (grows.wellFormed wf)
          ((grows.later wf).mem operand) step rfl)

theorem deterministicNode_grows (wf : s.WellFormed) (known : f ∈ s)
    (run : deterministicNode s f = .ok (b, s')) : Grows s s' := by
  unfold deterministicNode at run
  split at run
  · rename_i shape
    exact checkPairs_grows wf (fun g member => child_mem known (by rwa [shape]))
      (fun _ _ _ _ _ wf' hf hg ran => wf'.contradict_grows hf hg ran) run
  · cases run
    exact Grows.refl _

theorem decomposableNode_grows (wf : s.WellFormed) (known : f ∈ s)
    (run : decomposableNode s f = .ok (b, s')) : Grows s s' := by
  unfold decomposableNode at run
  split at run
  · rename_i shape
    refine checkPairs_grows wf (fun g member => child_mem known (by rwa [shape]))
      (fun _ _ _ _ _ _ _ _ ran => ?_) run
    cases ran
    exact Grows.refl _
  · cases run
    exact Grows.refl _

end Checks

/-- What a store can be asked for: to name a variable, to build a formula, to convert one, to decide
something about one, or to compile one. A request that is refused is not among them. -/
inductive Request (s : Store) : Store → Prop
  | declare (name : String) : Request s (s.declare name).2
  | var (name : String) (fits : (s.declare name).1.Fits) : Request s (s.var name).2
  | lit {l : Lit} (word : l.code < Node.wordLimit) : Request s (s.lit l).2
  | literal (v : Var) (phase : Bool) : Request s (s.literal v phase).2
  | neg {f : Formula} (known : f ∈ s) : Request s (s.neg f).2
  | conj {fs : List Formula} (known : ∀ f ∈ fs, f ∈ s) : Request s (s.conj fs).2
  | disj {fs : List Formula} (known : ∀ f ∈ fs, f ∈ s) : Request s (s.disj fs).2
  | implies {f g : Formula} (hf : f ∈ s) (hg : g ∈ s) : Request s (s.implies f g).2
  | equiv {f g : Formula} (hf : f ∈ s) (hg : g ∈ s) : Request s (s.equiv f g).2
  | clause {ls : List Lit} (words : ∀ l ∈ ls, l.code < Node.wordLimit) :
    Request s (s.clause ls).2
  | cube {ls : List Lit} (words : ∀ l ∈ ls, l.code < Node.wordLimit) :
    Request s (s.cube ls).2
  | nnf {f : Formula} (known : f ∈ s) : Request s (s.nnf f).2
  | cnf {f : Formula} (known : f ∈ s) : Request s (s.cnf f).2
  | restrict {f : Formula} (known : f ∈ s) (ls : List Lit) : Request s (s.restrict f ls).2
  | subsumption {s' : Store} {f g : Formula} (known : f ∈ s) (run : s.subsumption f = .ok (g, s')) :
    Request s s'
  | fixBackbone {s' : Store} {f g : Formula} (known : f ∈ s) (run : s.fixBackbone f = .ok (g, s')) :
    Request s s'
  | oneSat {s' : Store} {f : Formula} {a : Option Assignment} (known : f ∈ s)
    (run : s.oneSat f = .ok (a, s')) : Request s s'
  | isSatisfiable {s' : Store} {f : Formula} {b : Bool} (known : f ∈ s)
    (run : s.isSatisfiable f = .ok (b, s')) : Request s s'
  | isTautology {s' : Store} {f : Formula} {b : Bool} (known : f ∈ s)
    (run : s.isTautology f = .ok (b, s')) : Request s s'
  | isEquivalent {s' : Store} {f g : Formula} {b : Bool} (hf : f ∈ s) (hg : g ∈ s)
    (run : s.isEquivalent f g = .ok (b, s')) : Request s s'
  | entails {s' : Store} {f g : Formula} {b : Bool} (hf : f ∈ s) (hg : g ∈ s)
    (run : s.entails f g = .ok (b, s')) : Request s s'
  | prepare {s' : Store} {f : Formula} {settings : Settings} {m : Compiler} (known : f ∈ s)
    (run : Compiler.prepare s f settings = .ok (m, s')) : Request s s'
  /-- Clauses that were prepared in an earlier store are compiled. -/
  | compileClauses {s₀ s₁ s' : Store} {f : Formula} {settings : Settings} {m m' : Compiler}
    {handler handler' : Handler} {outcome : Outcome} (reachable : s₀.Reachable) (known : f ∈ s₀)
    (prepared : Compiler.prepare s₀ f settings = .ok (m, s₁)) (since : Grows s₁ s)
    (run : m.compile s handler = .ok (outcome, m', s', handler')) : Request s s'
  | compile {s' : Store} {f : Formula} {settings : Settings} {handler handler' : Handler}
    {d : Option Circuit} (known : f ∈ s)
    (run : s.compile f settings handler = .ok (d, s', handler')) : Request s s'
  | isDecomposable {s' : Store} {d : Circuit} {b : Bool} (known : d.formula ∈ s)
    (run : d.isDecomposable s = .ok (b, s')) : Request s s'
  | isDeterministic {s' : Store} {d : Circuit} {b : Bool} (known : d.formula ∈ s)
    (run : d.isDeterministic s = .ok (b, s')) : Request s s'
  /-- The literals that a solver has found to be implied are put together. -/
  | newlyImplied {s' : Store} {p q : Stepper} {vars : IndexSet} {f : Formula}
    (fit : p.NamesIn Var.Fits) (run : p.newlyImplied vars s = .ok (f, q, s')) : Request s s'

/-- A history of requests. -/
def Leads : Store → Store → Prop := Relation.ReflTransGen Request

theorem Request.grows (request : Request s s') (wf : s.WellFormed) : Grows s s' := by
  cases request with
  | declare name => exact (Step.declare s name).grows
  | var name fits =>
    have word : (Lit.of (s.declare name).1 true).code < Node.wordLimit := Var.Fits.word (by simpa using fits)
    exact (Step.declare s name).grows.trans (Step.lit _ word).grows
  | lit word => exact (Step.lit s word).grows
  | literal v phase =>
    have word : (Lit.packed v phase).code < Node.wordLimit := Var.Fits.word (by simpa [Lit.packed] using v.truncated_fits)
    exact (Step.lit s word).grows
  | neg known => exact (Step.neg s known).grows
  | conj known => exact (Step.junction s .conj known).grows
  | disj known => exact (Step.junction s .disj known).grows
  | implies hf hg => exact (Step.implies s hf hg).grows
  | equiv hf hg => exact (Step.equiv s hf hg).grows
  | clause words => exact (wf.junction_literals_rebuild (c := .disj) words).grows
  | cube words => exact (wf.junction_literals_rebuild (c := .conj) words).grows
  | nnf known => exact (wf.nnf_rebuilds known).grows
  | cnf known => exact (wf.cnf_rebuilds known).grows
  | restrict known ls => exact (wf.restrict_rebuilds known ls).grows
  | subsumption known run => exact (wf.subsumption_builds known run).grows
  | fixBackbone known run => exact (fixBackbone_within wf known run).1
  | oneSat known run =>
    rw [oneSat_store run]
    exact (wf.nnf_rebuilds known).grows
  | isSatisfiable known run => exact wf.isSatisfiable_grows known run
  | isTautology known run => exact wf.isTautology_grows known run
  | isEquivalent hf hg run =>
    have built := wf.equiv_rebuilds hf hg
    exact built.grows.trans ((built.grows.wellFormed wf).isTautology_grows built.right run)
  | entails hf hg run =>
    have built := wf.implies_rebuilds hf hg
    exact built.grows.trans ((built.grows.wellFormed wf).isTautology_grows built.right run)
  | prepare known run => exact (Compiler.prepare_prepared wf known run).1
  | compileClauses reachable known prepared since run =>
    obtain ⟨grows, ready⟩ := Compiler.prepare_prepared reachable.wellFormed known prepared
    have later := since.later (grows.wellFormed reachable.wellFormed)
    exact ((ready.later later).repeats wf run).1
  | compile known run => exact (compile_repeats wf known run).1
  | isDecomposable known run =>
    unfold Circuit.isDecomposable at run
    split at run
    · simp only [bind_ok, pure_ok, Prod.exists, Prod.mk.injEq] at run
      obtain ⟨_, _, _, checked, rfl, rfl⟩ := run
      exact checkNodes_grows wf known (fun _ _ _ _ wf' known' => decomposableNode_grows wf' known') checked
    · cases run
      exact Grows.refl _
  | isDeterministic known run =>
    simp only [Circuit.isDeterministic, bind_ok, pure_ok, Prod.exists, Prod.mk.injEq] at run
    obtain ⟨_, _, _, checked, rfl, rfl⟩ := run
    exact checkNodes_grows wf known (fun _ _ _ _ wf' known' => deterministicNode_grows wf' known') checked
  | newlyImplied fit run =>
    simp only [Stepper.newlyImplied, bind_ok] at run
    obtain ⟨ls, read, rest⟩ := run
    cases rest
    have words : ∀ l ∈ ls, l.code < Node.wordLimit := by
      intro l member
      obtain ⟨m, _, translated⟩ := forall₂_mem_right (mapM_ok read) l member
      exact Var.Fits.word (Stepper.litOf_in fit translated)
    exact (wf.junction_literals_rebuild (c := .conj) words).grows

theorem Leads.grows (leads : Leads s s') (wf : s.WellFormed) : Grows s s' := by
  induction leads with
  | refl => exact Grows.refl s
  | tail _ request ih => exact ih.trans (request.grows (ih.wellFormed wf))

theorem Step.request (step : Step s s') : Request s s' := by
  cases step with
  | declare name => exact .declare name
  | lit word => exact .lit word
  | neg known => exact .neg known
  | junction c known =>
    cases c with
    | conj => exact .conj known
    | disj => exact .disj known
  | implies hf hg => exact .implies hf hg
  | equiv hf hg => exact .equiv hf hg

theorem Grows.leads (grows : Grows s s') : Leads s s' :=
  Relation.ReflTransGen.mono (fun _ _ => Step.request) _ _ grows

theorem Leads.wellFormed (leads : Leads initial s) : s.WellFormed :=
  (leads.grows initial_wellFormed).wellFormed initial_wellFormed

theorem WellFormed.exists_literals (wf : s.WellFormed) {ls : List Lit}
    (words : ∀ l ∈ ls, l.code < Node.wordLimit) :
    ∃ s', Leads s s' ∧ ∀ l ∈ ls, ∃ f ∈ s', s'.node f = .lit l := by
  induction ls generalizing s with
  | nil => exact ⟨s, .refl, by simp⟩
  | cons l ls ih =>
    have interned := wf.lit_interned (words l List.mem_cons_self)
    have wf' := interned.wellFormed
    obtain ⟨s', leads, others⟩ := ih wf' fun m member => words m (List.mem_cons_of_mem l member)
    have later := (leads.grows wf').later wf'
    refine ⟨s', .head (.lit (words l List.mem_cons_self)) leads, fun m member => ?_⟩
    rcases List.mem_cons.mp member with rfl | member
    · exact ⟨_, later.mem interned.mem, (later.node_eq interned.mem).trans interned.node_eq⟩
    · exact others m member

theorem WellFormed.exists_junction {fs : List Formula} (wf : s.WellFormed) (c : Connective)
    (known : ∀ f ∈ fs, f ∈ s) : ∃ s' g, Leads s s' ∧ Joined s c fs g s' := by
  cases c with
  | conj => exact ⟨_, _, .single (.conj known), wf.junction_joined known⟩
  | disj => exact ⟨_, _, .single (.disj known), wf.junction_joined known⟩

/-- Every store that a history of requests leads to is canonical: operands come before their node, no
node is held twice, the table of handles is the inverse of the list of nodes, and every node is one
that no simplification applies to. So formulas are equal just if their trees are, and whatever the
store is asked for afterwards, it holds the same nodes in the same places. -/
theorem leads_canonical (leads : Leads initial s) :
    (∀ f ∈ s, ∀ c ∈ (s.node f).children, c.id < f.id) ∧
      (∀ f ∈ s, ∀ g ∈ s, s.node f = s.node g → f = g) ∧
      (∀ n f, s.handles[n]? = some f ↔ f ∈ s ∧ s.node f = n) ∧
      (∀ f ∈ s, (s.node f).Canonical s.node) ∧
      (∀ f ∈ s, ∀ g ∈ s, f = g ↔ s.expression f = s.expression g) ∧
      ∀ s', Leads s s' → ∀ f ∈ s, f ∈ s' ∧ s'.node f = s.node f := by
  have wf := leads.wellFormed
  refine ⟨fun f _ c child => s.child_lt child, fun f hf g hg => wf.node_inj hf hg, wf.handle_iff,
    wf.canonical, fun f hf g hg => ⟨fun same => by rw [same], wf.expression_inj hf hg⟩, ?_⟩
  intro s' more f known
  have later := (more.grows wf).later wf
  exact ⟨later.mem known, later.node_eq known⟩

/-- An equivalence of a literal and the negation of a conjunction, before its negation normal form is asked
for. -/
theorem leads_canonical_equiv : ∃ s f g h k, Leads initial s ∧ s.node f = .equiv g h ∧ s.node g = .not k ∧
    (∃ a b, s.node k = .and [a, b]) ∧ (g.id < f.id ∧ h.id < f.id ∧ k.id < g.id) ∧
      s.handles[Node.equiv g h]? = some f ∧ (∀ f' ∈ s, s.node f' = .equiv g h → f = f') ∧
        (s.node f).Canonical s.node ∧ (s.node k).Canonical s.node ∧ s.expression g ≠ s.expression k ∧
          ∃ s', Leads s s' ∧ s.size < s'.size ∧ f ∈ s' ∧ s'.node f = .equiv g h := by
  obtain ⟨s, f, g, h, k, leads, hf, hg, hk, shape, shape', both, larger⟩ : ∃ s f g h k, Leads initial s ∧
      f ∈ s ∧ g ∈ s ∧ k ∈ s ∧ s.node f = .equiv g h ∧ s.node g = .not k ∧ (∃ a b, s.node k = .and [a, b]) ∧
        s.size < (s.nnf f).2.size := by
    have first : Builds initial (initial.conjClauses [[⟨0⟩, ⟨4⟩], [⟨2⟩, ⟨4⟩]]) _ _ :=
      initial_wellFormed.conjClauses_builds (by decide)
    have wf := first.wellFormed initial_wellFormed
    have second := wf.neg_builds first.mem
    have wf' := second.wellFormed wf
    have third := wf'.equiv_builds second.mem (g := ⟨2⟩) (mem_iff.mpr (by decide +kernel))
    have later := third.later wf'
    exact ⟨_, _, _, ⟨2⟩, _, ((first.grows.trans second.grows).trans third.grows).leads, third.mem,
      later.mem second.mem, later.mem ((second.later wf).mem first.mem), by decide +kernel,
      by decide +kernel, ⟨⟨4⟩, ⟨6⟩, by decide +kernel⟩, by decide +kernel⟩
  obtain ⟨order, unique, handles, canonical, trees, stable⟩ := leads_canonical leads
  have more : Leads s (s.nnf f).2 := .single (.nnf hf)
  obtain ⟨mem, same⟩ := stable _ more f hf
  have child {o : Formula} (among : o ∈ [g, h]) : o.id < f.id :=
    order f hf o (by rwa [shape, Node.children])
  refine ⟨s, f, g, h, k, leads, shape, shape', both,
    ⟨child (by simp), child (by simp), order g hg k (by simp [shape', Node.children])⟩,
    (handles _ _).mpr ⟨hf, shape⟩, fun f' here same => unique f hf f' here (shape.trans same.symm),
    canonical f hf, canonical k hk, fun same => ?_, _, more, larger, mem, same.trans shape⟩
  obtain ⟨a, b, shape''⟩ := both
  rw [(trees g hg k hk).mpr same, shape''] at shape'
  cases shape'

end Store

end ModelCounting
