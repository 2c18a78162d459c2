import ModelCounting.Proofs.Budget
import ModelCounting.Proofs.Replay

/-!
Compilations that are repeated. A compilation looks at the nodes and variables of its formula, which
do not change while the store grows, and the nodes that it builds are found again. So the solvers and
trees of a second compilation are those of the first, and so are its results.
-/

namespace ModelCounting

theorem mapM_again {ε α β : Type} {f g : α → Except ε β} {xs : List α} {ys : List β}
    (run : xs.mapM f = .ok ys) (same : ∀ x ∈ xs, ∀ y, f x = .ok y → g x = .ok y) :
    xs.mapM g = .ok ys := by
  induction xs generalizing ys with
  | nil => exact run
  | cons x xs ih =>
    simp only [List.mapM_cons, bind_ok] at run ⊢
    obtain ⟨y, first, zs, rest, done⟩ := run
    exact ⟨y, same x (by simp) y first, zs,
      ih rest fun z member => same z (List.mem_cons_of_mem x member), done⟩

namespace Store

variable {s s' t : Store} {f g : Formula}

/-! Reading clauses. -/

theorem Extends.isAtomic_eq (later : Extends s t) (known : f ∈ s) : t.isAtomic f = s.isAtomic f := by
  rw [isAtomic, isAtomic, later.node_eq known]

theorem Extends.clauseLits_again (later : Extends s t) (known : f ∈ s) {ls : List Lit}
    (run : s.clauseLits f = .ok ls) : t.clauseLits f = .ok ls := by
  unfold clauseLits at run ⊢
  rw [later.node_eq known]
  split at run
  · exact run
  · exact run
  · rename_i fs shape
    refine mapM_again run fun g member l found => ?_
    rw [asLit?, later.node_eq (child_mem known (by rwa [shape])), ← asLit?]
    split at found
    · exact found
    · exact absurd found notAClause_error
  · exact absurd run notAClause_error

theorem Extends.clauses_again (later : Extends s t) (known : f ∈ s) {cs : List (List Lit)}
    (run : s.clauses f = .ok cs) : t.clauses f = .ok cs := by
  unfold clauses at run ⊢
  rw [later.node_eq known]
  split at run
  · exact run
  · rename_i fs shape
    exact mapM_again run fun g member _ found =>
      later.clauseLits_again (child_mem known (by rwa [shape])) found
  · simp only [bind_ok] at run ⊢
    obtain ⟨ls, found, rest⟩ := run
    exact ⟨ls, later.clauseLits_again known found, rest⟩

theorem WellFormed.cnf_rebuilds (wf : s.WellFormed) (known : f ∈ s) : Rebuilds (·.cnf f) s := by
  by_cases cnf : s.isCnf f = true
  · refine Replays.congr (.pure known) wf fun t later => ?_
    rw [Store.cnf, later.isCnf_eq known, if_pos cnf]
  · refine ((wf.nnf_rebuilds known).bind wf (k := fun g s => ((cnfFrom g s ∅).1, (cnfFrom g s ∅).2.1))
      fun g s' grows held => ?_).congr wf fun t later => ?_
    · have wf' := grows.wellFormed wf
      exact (cnfFrom_retraces wf' held ∅ (by simp [Remembers])).bind wf' (k := fun r s => (r.1, s))
        fun _ _ _ kept => .pure kept.1
    · rw [Store.cnf, later.isCnf_eq known, if_neg cnf]

/-! Preparation. -/

theorem WellFormed.subsumption_again (wf : s.WellFormed) (known : f ∈ s) {r : Formula × Store}
    (run : s.subsumption f = .ok r) (wf' : t.WellFormed) (later : Extends r.2 t) :
    t.subsumption f = .ok (r.1, t) := by
  have before := ((wf.subsumption_builds known run).later wf).trans later
  unfold subsumption at run ⊢
  rw [before.isCnf_eq known, before.node_eq known]
  split at run
  · cases run
  rename_i cnf
  rw [if_neg cnf]
  split at run
  · rename_i fs shape
    simp only [bind_ok, pure_ok] at run ⊢
    obtain ⟨cs, read, rfl⟩ := run
    refine ⟨cs, mapM_again read fun g member ls found =>
      before.clauseLits_again (child_mem known (by rwa [shape])) found, ?_⟩
    refine (wf.junction_rebuilds (c := .conj) fun g member => ?_).again t wf' later
    have kept := (kept_sublist fs (survivors cs).contains).subset member
    exact child_mem known (by rwa [shape])
  · cases run
    rfl

theorem Extends.backbone_again (later : Extends s t) (known : f ∈ s) {found : Option (List Lit)}
    (run : s.backbone f = .ok found) : t.backbone f = .ok found := by
  simp only [backbone, bind_ok] at run ⊢
  obtain ⟨cs, read, rest⟩ := run
  rw [later.vars_eq known]
  exact ⟨cs, later.clauses_again known read, rest⟩

theorem WellFormed.fixBackbone_again (wf : s.WellFormed) (known : f ∈ s) {r : Formula × Store}
    (run : s.fixBackbone f = .ok r) (wf' : t.WellFormed) (later : Extends r.2 t) :
    t.fixBackbone f = .ok (r.1, t) := by
  have before := ((fixBackbone_within wf known run).1.later wf).trans later
  simp only [fixBackbone, bind_ok] at run ⊢
  obtain ⟨found, backbone, rest⟩ := run
  refine ⟨found, before.backbone_again known backbone, ?_⟩
  cases found with
  | none =>
    cases rest
    rfl
  | some ls =>
    have words := wf.backbone_words known backbone
    have rebuilds : Rebuilds (fun s => ((s.restrict f ls).2.literals ls).2.conj
        (((s.restrict f ls).2.literals ls).1 ++ [(s.restrict f ls).1])) s := by
      refine (wf.restrict_rebuilds known ls).bind wf
        (k := fun g s => (s.literals ls).2.conj ((s.literals ls).1 ++ [g])) fun g s₁ grows held => ?_
      have wf₁ := grows.wellFormed wf
      refine (wf₁.literals_replay words).bind wf₁ (k := fun fs s => s.conj (fs ++ [g]))
        fun fs s₂ grows' each => (grows'.wellFormed wf₁).junction_rebuilds fun h member => ?_
      rcases List.mem_append.mp member with member | member
      · exact each h member
      · rw [List.mem_singleton.mp member]
        exact (grows'.later wf₁).mem held
    cases rest
    exact congrArg Except.ok (rebuilds.again t wf' later)

theorem Extends.split_eq (later : Extends s t) (known : f ∈ s) : t.split f = s.split f := by
  unfold split
  rw [later.node_eq known]
  cases shape : s.node f with
  | and fs =>
    have same : ∀ g ∈ fs, t.isAtomic g = s.isAtomic g := fun g member =>
      later.isAtomic_eq (child_mem known (by rwa [shape]))
    simp only [List.partition_eq_filter_filter]
    congr 1
    · exact List.filter_congr same
    · exact List.filter_congr fun g member => by simp [same g member]
  | falsum | verum | lit | not | or | implies | equiv => rfl

end Store

/-! Solvers and trees. -/

theorem Stepper.add_again {p q : Stepper} {s t : Store} {f : Formula} (later : Store.Extends s t)
    (known : f ∈ s) (run : p.add s f = .ok q) : p.add t f = .ok q := by
  simp only [add, bind_ok] at run ⊢
  obtain ⟨cs, read, rest⟩ := run
  exact ⟨cs, later.clauses_again known read, rest⟩

namespace Dtree

open Store

variable {s t : Store} {f : Formula}

theorem ofClause_again (later : Extends s t) (known : f ∈ s) {id : Nat} {l : ClauseLeaf}
    (run : ClauseLeaf.ofClause s id f = .ok l) : ClauseLeaf.ofClause t id f = .ok l := by
  simp only [ClauseLeaf.ofClause, bind_ok] at run ⊢
  obtain ⟨ls, read, rest⟩ := run
  exact ⟨ls, later.clauseLits_again known read, rest⟩

theorem alongOrder_again (later : Extends s t) (known : f ∈ s) {order : List Var} {d : ClauseTree}
    (run : alongOrder s f order = .ok d) : alongOrder t f order = .ok d := by
  unfold alongOrder at run ⊢
  rw [later.isCnf_eq known, later.isAtomic_eq known, later.node_eq known]
  split at run
  · cases run
  rename_i compound
  rw [if_neg compound]
  split at run
  · rename_i fs shape
    simp only [bind_ok] at run ⊢
    obtain ⟨leaves, read, rest⟩ := run
    refine ⟨leaves, mapM_again read fun x member l found => ?_, rest⟩
    have place := List.mem_zipIdx_iff_getElem?.mp member
    exact ofClause_again later (child_mem known (by rw [shape]; exact List.mem_of_getElem? place)) found
  · simp only [bind_ok] at run ⊢
    obtain ⟨l, read, rest⟩ := run
    exact ⟨l, ofClause_again later known read, rest⟩

theorem minFill_again (later : Extends s t) (known : f ∈ s) {x : ClauseTree × Elimination}
    (run : minFill s f = .ok x) : minFill t f = .ok x := by
  simp only [minFill, InteractionGraph.ofCnf, bind_ok, pure_ok] at run ⊢
  obtain ⟨graph, ⟨cs, read, rfl⟩, d, built, rfl⟩ := run
  rw [later.vars_eq known]
  exact ⟨_, ⟨cs, later.clauses_again known read, rfl⟩, d, alongOrder_again later known built, rfl⟩

end Dtree

namespace Compilation

open Store

variable {scope : Var → Prop} {c c' : Compilation} {f g : Formula} {t left right : PlacedTree}
  {nested : Nat}

def Repeats {α : Type} (step : Compilation → Except Fault (α × Compilation)) (c : Compilation) : Prop :=
  ∀ a c', step c = .ok (a, c') → Grows c.store c'.store ∧
    ∀ s, s.WellFormed → Extends c'.store s →
      step { c with store := s } = .ok (a, { c' with store := s })

namespace Repeats

variable {α β γ : Type} {step : Compilation → Except Fault (α × Compilation)}

theorem pure (a : α) : Repeats (fun c => .ok (a, c)) c := by
  rintro _ _ ⟨⟩
  exact ⟨Grows.refl _, fun _ _ _ => rfl⟩

theorem build {right : Store → α → Prop} {r : Store → α × Store} (h : α → β)
    (replays : Replays right r c.store) :
    Repeats (fun c => .ok (h (r c.store).1, { c with store := (r c.store).2 })) c := by
  intro b c' run
  obtain ⟨rfl, rfl⟩ := Prod.mk.inj (Except.ok.inj run)
  refine ⟨replays.grows, fun s wf later => ?_⟩
  simp only [replays.again s wf later]

theorem bind {k : α × Compilation → Except Fault (β × Compilation)} (wf : c.store.WellFormed)
    (first : Repeats step c)
    (rest : ∀ a c', step c = .ok (a, c') → Repeats (fun c => k (a, c)) c') :
    Repeats (fun c => step c >>= k) c := by
  intro b c'' run
  obtain ⟨⟨a, c'⟩, ran, next⟩ := bind_ok.mp run
  obtain ⟨grows, again⟩ := first a c' ran
  obtain ⟨grows', again'⟩ := rest a c' ran b c'' next
  refine ⟨grows.trans grows', fun s wf' later => bind_ok.mpr ⟨_, again s wf' ?_, again' s wf' later⟩⟩
  exact (grows'.later (grows.wellFormed wf)).trans later

theorem ask {a : Compilation → Except Fault γ} {k : γ → Compilation → Except Fault (α × Compilation)}
    (blind : ∀ s, a { c with store := s } = a c)
    (rest : ∀ x, a c = .ok x → Repeats (k x) c) : Repeats (fun c => a c >>= fun x => k x c) c := by
  intro b c' run
  obtain ⟨x, ran, next⟩ := bind_ok.mp run
  obtain ⟨grows, again⟩ := rest x ran b c' next
  exact ⟨grows, fun s wf later => bind_ok.mpr ⟨x, (blind s).trans ran, again s wf later⟩⟩

theorem read {x : Compilation → γ} {k : γ → Compilation → Except Fault (α × Compilation)}
    (blind : ∀ s, x { c with store := s } = x c) (rest : Repeats (k (x c)) c) :
    Repeats (fun c => k (x c) c) c := by
  intro b c' run
  obtain ⟨grows, again⟩ := rest b c' run
  refine ⟨grows, fun s wf later => ?_⟩
  simp only [blind]
  exact again s wf later

theorem cond {x : Compilation → Bool} {y n : Compilation → Except Fault (α × Compilation)}
    (blind : ∀ s, x { c with store := s } = x c) (yes : x c = true → Repeats y c)
    (no : x c = false → Repeats n c) : Repeats (fun c => if x c then y c else n c) c := by
  refine read (k := fun b c => if b then y c else n c) blind ?_
  cases h : x c with
  | true => exact yes h
  | false => exact no h

theorem after {u : Compilation → Compilation} (blind : ∀ s, u { c with store := s } = { u c with store := s })
    (same : (u c).store = c.store) (repeats : Repeats step (u c)) : Repeats (fun c => step (u c)) c := by
  intro b c' run
  obtain ⟨grows, again⟩ := repeats b c' run
  exact ⟨same ▸ grows, fun s wf later => (congrArg step (blind s)).trans (again s wf later)⟩

end Repeats

/-! Parts of a frame. -/

theorem enter_repeats (guarded : c.Guarded scope) : Repeats (enter t) c := by
  intro f c' run
  have grows := (enter_compiles guarded run).grows
  refine ⟨grows, fun s wf later => ?_⟩
  unfold enter at run
  simp only at run
  split at run
  · rename_i implied solver store reported
    cases run
    simp only [Stepper.newlyImplied, bind_ok] at reported
    obtain ⟨ls, read, rest⟩ := reported
    cases rest
    have words : ∀ l ∈ ls, l.code < Node.wordLimit := by
      intro l member
      obtain ⟨m, _, translated⟩ := forall₂_mem_right (mapM_ok read) l member
      exact (litOf_named guarded m l translated).2.word
    have again := (guarded.wellFormed.junction_literals_rebuild (c := .conj) words).again s wf later
    have reported : c.solver.newlyImplied t.vars s =
        .ok ((c.store.cube ls).1, { c.solver with unreported := false }, s) := by
      have cube : s.cube ls = ((c.store.cube ls).1, s) := again
      simp only [Stepper.newlyImplied, bind_ok]
      exact ⟨ls, read, by rw [cube]; rfl⟩
    simp only [enter, reported]
  · cases run

theorem leafTerms_again {value : Lit → Truth} {name : Lit → Except Fault Lit} {ls : List Lit}
    {negated : List Formula} {out : Option (List Formula)} {s s' : Store} (wf : s.WellFormed)
    (named : ∀ l m, name l = .ok m → m.code < Node.wordLimit) (known : ∀ g ∈ negated, g ∈ s)
    (run : leafTerms value name ls negated s = .ok (out, s')) :
    Grows s s' ∧ ∀ u, u.WellFormed → Extends s' u → leafTerms value name ls negated u = .ok (out, u) := by
  induction ls generalizing s negated out with
  | nil =>
    cases run
    exact ⟨Grows.refl _, fun _ _ _ => rfl⟩
  | cons l ls ih =>
    simp only [leafTerms] at run ⊢
    split at run
    · cases run
      exact ⟨Grows.refl _, fun _ _ _ => rfl⟩
    · exact ih wf known run
    · simp only [bind_ok] at run ⊢
      obtain ⟨m, called, ⟨rest, s₄⟩, below, done⟩ := run
      -- the literal, its term and its complement, and then the other terms
      have literal := wf.lit_rebuilds (named l m called)
      have wf₁ := literal.grows.wellFormed wf
      have term : Rebuilds (·.conj (negated ++ [(s.lit m).1])) (s.lit m).2 :=
        wf₁.junction_rebuilds fun g member => by
          rcases List.mem_append.mp member with member | member
          · exact (literal.grows.later wf).mem (known g member)
          · rw [List.mem_singleton.mp member]
            exact literal.right
      have wf₂ := term.grows.wellFormed wf₁
      have later₁ := term.grows.later wf₁
      have complement := wf₂.neg_rebuilds (later₁.mem literal.right)
      have wf₃ := complement.grows.wellFormed wf₂
      have later₂ := complement.grows.later wf₂
      have ends : s₄ = s' := by
        cases rest <;> cases done <;> rfl
      subst ends
      obtain ⟨grows, again⟩ := ih wf₃ (fun g member => by
        rcases List.mem_append.mp member with member | member
        · exact later₂.mem (later₁.mem ((literal.grows.later wf).mem (known g member)))
        · rw [List.mem_singleton.mp member]
          exact complement.right) below
      refine ⟨((literal.grows.trans term.grows).trans complement.grows).trans grows, fun u wf' later => ?_⟩
      have after := (grows.later wf₃).trans later
      have lit_eq := literal.again u wf' (later₁.trans (later₂.trans after))
      have term_eq := term.again u wf' (later₂.trans after)
      have neg_eq := complement.again u wf' after
      refine ⟨m, called, (rest, u), ?_, ?_⟩
      · rw [lit_eq, term_eq, neg_eq]
        exact again u wf' later
      · rw [lit_eq, term_eq]
        cases rest <;> cases done <;> rfl

theorem leaf_repeats {l : PlacedLeaf} (guarded : c.Guarded scope) : Repeats (leaf · l) c := by
  intro f c' run
  refine ⟨(leaf_compiles guarded run).grows, fun s wf later => ?_⟩
  simp only [leaf, bind_ok] at run ⊢
  obtain ⟨⟨out, s₁⟩, computed, rest⟩ := run
  have named := litOf_named guarded
  obtain ⟨grows, again⟩ := leafTerms_again guarded.wellFormed
    (fun l m called => (named l m called).2.word) (by simp) computed
  cases out with
  | none =>
    cases rest
    exact ⟨(none, s), again s wf later, rfl⟩
  | some terms =>
    have wf₁ := grows.wellFormed guarded.wellFormed
    obtain ⟨_, _, _, _, cubes⟩ := leafTerms_terms guarded.wellFormed
      (fun l m called => (named l m called).2.word) .nil computed
    have rebuilds := wf₁.junction_rebuilds (c := .disj) fun g member => by
      obtain ⟨_, _, cube⟩ := forall₂_mem_right cubes g member
      exact cube.mem
    cases rest
    refine ⟨(some terms, s), again s wf ((rebuilds.grows.later wf₁).trans later), ?_⟩
    exact congrArg (fun x : Formula × Store => (.ok (x.1, { c with store := x.2 }) : Except Fault _))
      (rebuilds.again s wf later)

theorem conj_repeats {fs : List Formula} (wf : c.store.WellFormed) (known : ∀ f ∈ fs, f ∈ c.store) :
    Repeats (fun c => .ok (c.conj fs)) c :=
  Repeats.build Outcome.compiled (wf.junction_rebuilds (c := .conj) known)

theorem guard_rebuilds {s : Store} (wf : s.WellFormed) {v : Var} (fits : v.Fits) (phase : Bool)
    (known : f ∈ s) : Rebuilds (·.guard v phase f) s := by
  have word : (Lit.of v phase).code < Node.wordLimit := Var.Fits.word (by simpa using fits)
  refine (wf.lit_rebuilds word).bind wf (k := fun l s => s.conj [l, f]) fun l s' grows held => ?_
  exact (grows.wellFormed wf).junction_rebuilds (by simp [held, (grows.later wf).mem known])

theorem decision_rebuilds {s : Store} (wf : s.WellFormed) {v : Var} (fits : v.Fits)
    (positive : f ∈ s) (negative : g ∈ s) : Rebuilds (·.decision v f g) s := by
  refine (guard_rebuilds wf fits true positive).bind wf
    (k := fun x s => (s.guard v false g).2.disj [x, (s.guard v false g).1]) fun x s₁ grows₁ held₁ => ?_
  have wf₁ := grows₁.wellFormed wf
  refine (guard_rebuilds wf₁ fits false ((grows₁.later wf).mem negative)).bind wf₁
    (k := fun y s => s.disj [x, y]) fun y s₂ grows₂ held₂ => ?_
  exact (grows₂.wellFormed wf₁).junction_rebuilds (by simp [held₂, (grows₂.later wf₁).mem held₁])

theorem expansion_eq {implied p n : Formula} {v : Var} : expansion implied v p n = fun c => do
    let name ← c.solver.nameOf v
    return { c with store := (c.store.decision name p n).2 }.conj
      [implied, (c.store.decision name p n).1] := by
  funext c
  simp only [expansion, Store.decision, Store.guard]

theorem expansion_repeats {implied p n : Formula} {v : Var} (guarded : c.Guarded scope)
    (first : implied ∈ c.store) (positive : p ∈ c.store) (negative : n ∈ c.store) :
    Repeats (expansion implied v p n) c := by
  have wf := guarded.wellFormed
  rw [expansion_eq]
  refine Repeats.ask (a := fun c => c.solver.nameOf v) (fun _ => rfl) fun name called => ?_
  have fits := (Stepper.nameOf_in guarded.names called).2
  have decision := decision_rebuilds wf fits positive negative
  refine Repeats.bind (k := fun x => .ok (x.2.conj [implied, x.1])) wf (Repeats.build id decision)
    fun f c' run => ?_
  obtain ⟨rfl, rfl⟩ := Prod.mk.inj (Except.ok.inj run)
  exact conj_repeats (decision.grows.wellFormed wf)
    (by simp [decision.right, (decision.grows.later wf).mem first])

/-! The recursion. -/

theorem branch_repeats {compile : CompilationStep} {v : Var} {phase : Bool} (guarded : c.Guarded scope)
    (below : ∀ c, c.Guarded scope → Repeats compile c) : Repeats (branch compile v phase) c := by
  refine Repeats.ask (a := fun c => c.solver.decide v phase) (fun _ => rfl) fun ⟨consistent, p⟩ decided => ?_
  have names := Stepper.decide_names decided
  have close (result : Outcome) (c : Compilation) : Repeats (fun c => do
      let solver ← c.solver.undo v
      return (result, { c with solver })) c :=
    Repeats.ask (a := fun c => c.solver.undo v) (fun _ => rfl) fun q _ =>
      Repeats.after (u := fun c => { c with solver := q }) (fun _ => rfl) rfl (Repeats.pure result)
  cases consistent with
  | true =>
    refine Repeats.bind guarded.wellFormed ?_ fun result c' _ => close result c'
    exact Repeats.after (u := fun c => { c with solver := p }) (fun _ => rfl) rfl
      (below _ (guarded.withSolver names))
  | false =>
    exact Repeats.after (u := fun c => { c with solver := p }) (fun _ => rfl) rfl
      (close (.compiled .falsum) { c with solver := p })

theorem retry_repeats {compile : CompilationStep} (guarded : c.Guarded scope)
    (below : ∀ c, c.Guarded scope → Repeats compile c) : Repeats (retry compile) c := by
  refine Repeats.cond (x := fun c => c.solver.atAssertionLevel) (fun _ => rfl) (fun _ => ?_)
    fun _ => Repeats.pure (Outcome.compiled .falsum)
  refine Repeats.ask (a := fun c => c.solver.assertLesson) (fun _ => rfl) fun ⟨consistent, p⟩ learnt => ?_
  cases consistent with
  | false =>
    exact Repeats.after (u := fun c => { c with solver := p }) (fun _ => rfl) rfl
      (Repeats.pure (Outcome.compiled .falsum))
  | true =>
    exact Repeats.after (u := fun c => { c with solver := p }) (fun _ => rfl) rfl
      (below _ (guarded.withSolver (Stepper.assertLesson_names learnt)))

theorem remember_withStore {key : IndexSet} {s : Store} :
    remember key f { c with store := s } = { remember key f c with store := s } := by
  unfold remember
  split <;> rfl

theorem part_repeats {compile : PlacedTree → CompilationStep} (guarded : c.Guarded scope)
    (below : ∀ c, c.Guarded scope → Repeats (compile t) c) : Repeats (part compile nested t) c := by
  cases t with
  | leaf l =>
    exact Repeats.bind guarded.wellFormed (leaf_repeats guarded) fun f _ _ =>
      Repeats.pure (Outcome.compiled f)
  | node d left right =>
    intro o c' run
    change cached _ _ nested c = _ at run
    simp only [cached_eq, bind_ok] at run
    obtain ⟨_, reserved, rest⟩ := run
    cases entry : (c.cache.query (c.key (.node d left right))).1 with
    | some f =>
      simp only [entry] at rest
      cases rest
      refine ⟨Grows.refl _, fun s _ _ => ?_⟩
      change cached _ _ nested _ = _
      rw [cached_eq]
      refine bind_ok.mpr ⟨_, reserved, ?_⟩
      have entry' : (({ c with store := s } : Compilation).cache.query
        (({ c with store := s } : Compilation).key (.node d left right))).1 = some f := entry
      rw [entry']
      rfl
    | none =>
      simp only [entry, bind_ok] at rest
      obtain ⟨⟨outcome, c₁⟩, ran, rest⟩ := rest
      obtain ⟨grows, again⟩ := below _ (guarded.looked (.node d left right)) outcome c₁ ran
      have stored (f : Formula) : (c₁.remember (c.key (.node d left right)) f).store = c₁.store :=
        remember_store _ f c₁
      have ends : c'.store = c₁.store := by
        cases outcome <;> cases rest
        · exact stored _
        · rfl
      refine ⟨ends ▸ grows, fun s wf later => ?_⟩
      change cached _ _ nested _ = _
      rw [cached_eq]
      refine bind_ok.mpr ⟨_, reserved, ?_⟩
      have entry' : (({ c with store := s } : Compilation).cache.query
        (({ c with store := s } : Compilation).key (.node d left right))).1 = none := entry
      rw [entry']
      refine bind_ok.mpr ⟨_, again s wf (ends ▸ later), ?_⟩
      cases outcome <;> cases rest
      · exact congrArg (fun c => (.ok (.compiled _, c) : Except Fault (Outcome × Compilation)))
          remember_withStore
      · rfl

theorem conjoin_repeats {n : Nat} {implied : Formula} (guarded : c.Guarded scope) (known : implied ∈ c.store)
    (below : ∀ t c, c.Guarded scope → Repeats (tree n t 0) c) :
    Repeats (conjoin (fun t => tree n t 0) nested implied left right) c := by
  unfold conjoin
  by_cases falsum : implied = .falsum
  · simp only [if_pos falsum]
    exact Repeats.pure (Outcome.compiled .falsum)
  simp only [if_neg falsum]
  refine Repeats.bind guarded.wellFormed (part_repeats guarded (below left)) fun outcome c₁ ran => ?_
  cases outcome with
  | cancelled => exact Repeats.pure Outcome.cancelled
  | compiled l =>
    have first := (part_runs (fun _ _ _ => tree_runs) ran).compiles guarded
    by_cases falsum : l = .falsum
    · simp only [if_pos falsum]
      exact Repeats.pure (Outcome.compiled .falsum)
    simp only [if_neg falsum]
    refine Repeats.bind first.guarded.wellFormed (part_repeats first.guarded (below right))
      fun outcome c₂ ran' => ?_
    cases outcome with
    | cancelled => exact Repeats.pure Outcome.cancelled
    | compiled r =>
      have second := (part_runs (fun _ _ _ => tree_runs) ran').compiles first.guarded
      by_cases falsum : r = .falsum
      · simp only [if_pos falsum]
        exact Repeats.pure (Outcome.compiled .falsum)
      simp only [if_neg falsum]
      have later := second.later first.guarded
      refine conj_repeats second.guarded.wellFormed ?_
      simp [second.circuit.mem, later.mem first.circuit.mem, later.mem ((first.later guarded).mem known)]

theorem frame_repeats {n : Nat} {implied : Formula} (guarded : c.Guarded scope) (known : implied ∈ c.store)
    (below : ∀ t nested c, c.Guarded scope → Repeats (tree n t nested) c) :
    Repeats (frame (tree n) t nested implied) c := by
  refine Repeats.cond (x := fun c => c.separator.isEmpty) (fun _ => rfl) (fun _ => ?_) fun _ => ?_
  · cases t with
    | leaf l =>
      refine Repeats.bind guarded.wellFormed (leaf_repeats guarded) fun f c₁ ran => ?_
      have leaf := leaf_compiles guarded ran
      exact conj_repeats leaf.guarded.wellFormed
        (by simp [leaf.circuit.mem, (leaf.later guarded).mem known])
    | node d left right => exact conjoin_repeats guarded known fun t => below t 0
  · refine Repeats.ask (a := fun c => c.chooseVariable t nested) (fun _ => rfl) fun v _ => ?_
    refine Repeats.cond (x := fun c => !c.handler.expand.1) (fun _ => rfl)
      (fun _ => Repeats.after (u := counted) (fun _ => rfl) rfl (Repeats.pure Outcome.cancelled))
      fun _ => ?_
    have guarded : c.counted.Guarded scope := ⟨guarded.wellFormed, guarded.names, guarded.cache⟩
    refine Repeats.after (u := counted) (fun _ => rfl) rfl (Repeats.bind guarded.wellFormed
      (branch_repeats guarded fun c => below t (nested + 1) c) fun outcome c₁ ran => ?_)
    cases outcome with
    | cancelled => exact Repeats.pure Outcome.cancelled
    | compiled p =>
      have positive := (branch_runs (fun _ _ _ => tree_runs) ran).compiles guarded
      by_cases falsum : p = .falsum
      · simp only [if_pos falsum]
        exact retry_repeats positive.guarded fun c => below t 0 c
      simp only [if_neg falsum]
      refine Repeats.bind positive.guarded.wellFormed
        (branch_repeats positive.guarded fun c => below t (nested + 1) c) fun outcome c₂ ran' => ?_
      cases outcome with
      | cancelled => exact Repeats.pure Outcome.cancelled
      | compiled q =>
        have negative := (branch_runs (fun _ _ _ => tree_runs) ran').compiles positive.guarded
        by_cases falsum : q = .falsum
        · simp only [if_pos falsum]
          exact retry_repeats negative.guarded fun c => below t 0 c
        simp only [if_neg falsum]
        have later := negative.later positive.guarded
        exact expansion_repeats negative.guarded (later.mem ((positive.later guarded).mem known))
          (later.mem positive.circuit.mem) negative.circuit.mem

theorem tree_repeats {n : Nat} (guarded : c.Guarded scope) : Repeats (tree n t nested) c := by
  induction n generalizing t nested c with
  | zero =>
    intro o c' run
    cases run
  | succ n ih =>
    rw [funext fun c => tree_succ n t nested c]
    refine Repeats.bind guarded.wellFormed (enter_repeats guarded) fun implied c₁ ran => ?_
    have entered := enter_compiles guarded ran
    exact frame_repeats entered.guarded entered.circuit.mem fun _ _ _ => ih

end Compilation

namespace Compiler

open Store

variable {scope : Var → Prop} {s s' t : Store} {f : Formula} {settings : Settings} {m m' : Compiler}
  {handler handler' : Handler} {outcome : Outcome}

theorem prepare_again (wf : s.WellFormed) (known : f ∈ s) (run : prepare s f settings = .ok (m, s'))
    (wf' : t.WellFormed) (later : Extends s' t) : prepare t f settings = .ok (m, t) := by
  have before := ((prepare_prepared wf known run).1.later wf).trans later
  unfold prepare at run ⊢
  rw [before.isCnf_eq known]
  split at run
  · cases run
  rename_i cnf
  rw [if_neg cnf]
  simp only [bind_ok] at run ⊢
  obtain ⟨⟨g, s₁⟩, fixed, ⟨h, s₂⟩, subsumed, solver, added, rest⟩ := run
  obtain ⟨grows₁, mem₁, _⟩ := fixBackbone_within wf known fixed
  have wf₁ := grows₁.wellFormed wf
  have builds := wf₁.subsumption_builds mem₁ subsumed
  have wf₂ := builds.wellFormed wf₁
  have isCnf := wf₁.subsumption_isCnf mem₁ subsumed
  -- the literals, and then the other clauses
  have units : Rebuilds (·.conj (s₂.split h).1) s₂ := wf₂.junction_rebuilds fun u member =>
    (split_units wf₂ builds.mem isCnf member).2.1
  have wf₃ := units.grows.wellFormed wf₂
  have nonUnits : Rebuilds (·.conj (s₂.split h).2) (s₂.conj (s₂.split h).1).2 :=
    wf₃.junction_rebuilds fun u member =>
      (units.grows.later wf₂).mem (split_nonUnits wf₂ builds.mem isCnf member).2.2.1
  obtain ⟨rfl, rfl⟩ := Prod.mk.inj (Except.ok.inj rest)
  have after₃ := (nonUnits.grows.later wf₃).trans later
  have after₂ := (units.grows.later wf₂).trans after₃
  have after₁ := (builds.later wf₁).trans after₂
  refine ⟨(g, t), wf.fixBackbone_again known fixed wf' after₁, (h, t),
    wf₁.subsumption_again mem₁ subsumed wf' after₂, solver, Stepper.add_again after₂ builds.mem added, ?_⟩
  have units_eq : t.conj (t.split h).1 = ((s₂.conj (s₂.split h).1).1, t) := by
    rw [after₂.split_eq builds.mem]
    exact units.again t wf' after₃
  have nonUnits_eq : t.conj (t.split h).2 = (((s₂.conj (s₂.split h).1).2.conj (s₂.split h).2).1, t) := by
    rw [after₂.split_eq builds.mem]
    exact nonUnits.again t wf' later
  change (.ok (
    { cnf := h
      units := (t.conj (t.split h).1).1
      nonUnits := ((t.conj (t.split h).1).2.conj (t.split h).2).1
      solver }, ((t.conj (t.split h).1).2.conj (t.split h).2).2) : Except Fault (Compiler × Store)) = _
  rw [units_eq, nonUnits_eq]
  rfl

theorem Prepared.later (prepared : m.Prepared scope s) (later : Extends s t) : m.Prepared scope t where
  cnf_mem := later.mem prepared.cnf_mem
  units := prepared.units.later later
  nonUnits_mem := later.mem prepared.nonUnits_mem
  nonUnits_sub := by
    rw [later.vars_eq prepared.nonUnits_mem]
    exact prepared.nonUnits_sub
  names := prepared.names
  atomic atomic := by
    rw [later.isAtomic_eq prepared.nonUnits_mem] at atomic
    exact (prepared.atomic atomic).later later

theorem Prepared.repeats (prepared : m.Prepared scope s) (wf : s.WellFormed)
    (run : m.compile s handler = .ok (outcome, m', s', handler')) :
    Grows s s' ∧ ∀ t, t.WellFormed → Extends s' t →
      m.compile t handler = .ok (outcome, m', t, handler') := by
  unfold compile at run ⊢
  split at run
  · cases run
  rename_i unused
  simp only [if_neg unused]
  simp only at run
  split at run
  · rename_i atomic
    cases run
    refine ⟨Grows.refl s, fun t _ later => ?_⟩
    rw [later.isAtomic_eq prepared.nonUnits_mem, if_pos atomic]
    rfl
  rename_i compound
  simp only [bind_ok] at run ⊢
  obtain ⟨⟨consistent, p⟩, started, rest⟩ := run
  cases consistent with
  | false =>
    cases rest
    refine ⟨Grows.refl s, fun t _ later => ?_⟩
    rw [later.isAtomic_eq prepared.nonUnits_mem, if_neg compound]
    exact bind_ok.mpr ⟨(false, p), started, rfl⟩
  | true =>
    simp only [Bool.not_true, Bool.false_eq_true, if_false, bind_ok] at rest
    obtain ⟨⟨d, e⟩, tree, t, place, ⟨o, c⟩, compiled, rest⟩ := rest
    have guarded : (Compilation.first s p t handler).Guarded scope :=
      ⟨wf, prepared.names.congr (Stepper.start_names started), fun key g found => by
        simp [Compilation.first, SubproblemCache.find?] at found⟩
    obtain ⟨grows, again⟩ := Compilation.tree_repeats guarded o c compiled
    cases o with
    | cancelled =>
      cases rest
      refine ⟨grows, fun u wf' later => ?_⟩
      have before : Extends s u := (grows.later wf).trans later
      rw [before.isAtomic_eq prepared.nonUnits_mem, if_neg compound]
      refine bind_ok.mpr ⟨(true, p), started, bind_ok.mpr ⟨(d, e), ?_, bind_ok.mpr ⟨t, place, ?_⟩⟩⟩
      · exact Dtree.minFill_again before prepared.nonUnits_mem tree
      · exact bind_ok.mpr ⟨_, again u wf' later, rfl⟩
    | compiled g =>
      have result := (Compilation.tree_runs compiled).compiles guarded
      have rebuilds : Rebuilds (·.conj [m.units, g]) c.store := result.guarded.wellFormed.junction_rebuilds
        (by simp [result.circuit.mem, (result.later guarded).mem prepared.units.mem])
      cases rest
      refine ⟨grows.trans rebuilds.grows, fun u wf' later => ?_⟩
      have inner := (rebuilds.grows.later result.guarded.wellFormed).trans later
      have before : Extends s u := (grows.later wf).trans inner
      rw [before.isAtomic_eq prepared.nonUnits_mem, if_neg compound]
      refine bind_ok.mpr ⟨(true, p), started, bind_ok.mpr ⟨(d, e), ?_, bind_ok.mpr ⟨t, place, ?_⟩⟩⟩
      · exact Dtree.minFill_again before prepared.nonUnits_mem tree
      · refine bind_ok.mpr ⟨_, again u wf' inner, ?_⟩
        simp only [rebuilds.again u wf' later]
        rfl

end Compiler

/-! Compilation of a formula. -/

namespace Store

variable {s s' t : Store} {f : Formula} {settings : Settings} {handler handler' : Handler}
  {d : Option Circuit}

theorem compile_repeats (wf : s.WellFormed) (known : f ∈ s)
    (run : s.compile f settings handler = .ok (d, s', handler')) :
    Grows s s' ∧ ∀ t, t.WellFormed → Extends s' t →
      t.compile f settings handler = .ok (d, t, handler') := by
  simp only [compile, bind_ok] at run ⊢
  obtain ⟨⟨m, s₁⟩, prepare, ⟨outcome, m', s₂, h₂⟩, compiled, rest⟩ := run
  have cnf := wf.cnf_rebuilds known
  have wf₀ := cnf.grows.wellFormed wf
  obtain ⟨grows₁, prepared⟩ := Compiler.prepare_prepared wf₀ cnf.right prepare
  have wf₁ := grows₁.wellFormed wf₀
  obtain ⟨grows₂, again⟩ := prepared.repeats wf₁ compiled
  have ends : s₂ = s' := by
    cases outcome <;> cases rest <;> rfl
  subst ends
  refine ⟨(cnf.grows.trans grows₁).trans grows₂, fun t wf' later => ?_⟩
  have after₁ := (grows₂.later wf₁).trans later
  have after₀ := (grows₁.later wf₀).trans after₁
  have cnf_eq : t.cnf f = ((s.cnf f).1, t) := cnf.again t wf' after₀
  rw [cnf_eq]
  refine ⟨(m, t), Compiler.prepare_again wf₀ cnf.right prepare wf' after₁, (outcome, m', t, h₂),
    again t wf' later, ?_⟩
  rw [after₀.vars_eq cnf.right, after₀.vars_eq ((cnf.grows.later wf).mem known)]
  cases outcome <;> cases rest <;> rfl

end Store

end ModelCounting
