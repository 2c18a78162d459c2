import Mathlib.Data.List.Nodup
import ModelCounting.NormalForm.Subsumption
import ModelCounting.Proofs.Answer
import ModelCounting.Proofs.History
import ModelCounting.Proofs.Sorting

/-!
Formulas read as sets of clauses. The clauses of a formula hold exactly where the formula does, and
those that subsumption drops are implied by those that stay.
-/

namespace ModelCounting

/-- Some literal of the clause is true. -/
def Holds (value : Var → Bool) (c : List Lit) : Prop := ∃ l ∈ c, l.holds value = true

/-- Every clause of the list has a true literal. -/
def Models (value : Var → Bool) (cs : List (List Lit)) : Prop := ∀ c ∈ cs, Holds value c

instance {value : Var → Bool} {c : List Lit} : Decidable (Holds value c) :=
  inferInstanceAs (Decidable (∃ l ∈ c, l.holds value = true))

instance {value : Var → Bool} {cs : List (List Lit)} : Decidable (Models value cs) :=
  inferInstanceAs (Decidable (∀ c ∈ cs, Holds value c))

theorem Holds.congr {value value' : Var → Bool} {c : List Lit} (holds : Holds value c)
    (same : ∀ l ∈ c, value' l.var = value l.var) : Holds value' c := by
  obtain ⟨l, member, true_⟩ := holds
  exact ⟨l, member, by rw [Lit.holds, same l member]; exact true_⟩

theorem Holds.mono {value : Var → Bool} {c d : List Lit} (within : ∀ l ∈ c, l ∈ d)
    (holds : Holds value c) : Holds value d := by
  obtain ⟨l, member, true_⟩ := holds
  exact ⟨l, within l member, true_⟩

namespace Store

variable {s : Store} {f : Formula}

theorem asLit_eq {g : Formula} {l : Lit} : s.asLit? g = some l ↔ s.node g = .lit l := by
  unfold asLit?
  cases s.node g <;> simp [Node.asLit?]

theorem notAClause_error {α : Type} {a : α} : s.notAClause f ≠ .ok a := by
  unfold notAClause
  simp

theorem operandLits {fs : List Formula} {c : List Lit}
    (run : fs.mapM (fun g => match s.asLit? g with
      | some l => Except.ok l
      | none => s.notAClause f) = .ok c) :
    List.Forall₂ (fun g l => s.node g = .lit l) fs c := by
  refine (mapM_ok run).imp fun g l found => ?_
  split at found
  · rename_i m literal
    cases found
    exact asLit_eq.mp literal
  · exact absurd found notAClause_error

/-- A clause holds where one of its literals does, and mentions their variables. -/
theorem WellFormed.clauseLits_ok (wf : s.WellFormed) (known : f ∈ s) {c : List Lit}
    (run : s.clauseLits f = .ok c) :
    (∀ value, s.eval value f = true ↔ Holds value c) ∧
      ∀ v, v ∈ s.vars f ↔ ∃ l ∈ c, l.var = v := by
  unfold clauseLits at run
  split at run
  · rename_i shape
    obtain rfl := wf.eq_falsum known shape
    cases run
    simp [wf, Holds, wf.vars_constant (f := .falsum) rfl]
  · rename_i l shape
    cases run
    refine ⟨fun value => ?_, fun v => ?_⟩
    · rw [eval_node, shape]
      simp [Holds, Node.eval]
    · rw [wf.mem_vars known, shape]
      simp [Node.children]
  · rename_i fs shape
    have forward := forall₂_mem_left (operandLits run)
    have backward := forall₂_mem_right (operandLits run)
    have lit_eval {g : Formula} {l : Lit} (h : s.node g = .lit l) (value : Var → Bool) :
        s.eval value g = l.holds value := by
      rw [eval_node, h]
      rfl
    refine ⟨fun value => ?_, fun v => ?_⟩
    · rw [eval_node, shape, Node.eval, List.any_eq_true]
      constructor
      · rintro ⟨g, hg, true_⟩
        obtain ⟨l, hl, same⟩ := forward g hg
        exact ⟨l, hl, by rw [← lit_eval same, true_]⟩
      · rintro ⟨l, hl, true_⟩
        obtain ⟨g, hg, same⟩ := backward l hl
        exact ⟨g, hg, by rw [lit_eval same, true_]⟩
    · have member {g : Formula} (hg : g ∈ fs) : g ∈ s := child_mem known (by rwa [shape])
      rw [wf.mem_vars known, shape]
      constructor
      · rintro (⟨_, impossible, _⟩ | ⟨g, hg, inside⟩)
        · cases impossible
        · obtain ⟨l, hl, same⟩ := forward g hg
          exact ⟨l, hl, ((wf.lit_meaning (member hg) same).2 v inside).symm⟩
      · rintro ⟨l, hl, rfl⟩
        obtain ⟨g, hg, same⟩ := backward l hl
        exact .inr ⟨g, hg, (wf.mem_vars (member hg) _).mpr (.inl ⟨l, same, rfl⟩)⟩
  · exact absurd run notAClause_error

theorem WellFormed.clauses_eq (wf : s.WellFormed) (known : f ∈ s) :
    s.clauses f = (s.flatten .conj f).mapM s.clauseLits := by
  by_cases neutral : f = Connective.conj.neutral
  · rw [neutral, flatten_neutral]
    simp only [clauses, Connective.neutral, wf.node_verum]
    rfl
  · rcases s.flatten_cases .conj neutral with ⟨gs, shape, flat⟩ | ⟨other, flat⟩
    · rw [flat, clauses, shape]
      rfl
    · rw [flat, clauses]
      split
      · rename_i shape
        exact absurd (wf.eq_verum known shape) neutral
      · rename_i gs shape
        exact absurd shape (other gs)
      · simp

theorem WellFormed.mem_clauses (wf : s.WellFormed) (known : f ∈ s) {cs : List (List Lit)}
    (run : s.clauses f = .ok cs) {c : List Lit} :
    c ∈ cs ↔ ∃ o ∈ s.flatten .conj f, s.clauseLits o = .ok c := by
  rw [wf.clauses_eq known] at run
  constructor
  · exact forall₂_mem_right (mapM_ok run) c
  · rintro ⟨o, conjunct, read⟩
    obtain ⟨d, member, read'⟩ := forall₂_mem_left (mapM_ok run) o conjunct
    rwa [← Except.ok.inj (read'.symm.trans read)]

theorem WellFormed.clauseLits_many (wf : s.WellFormed) (known : f ∈ s) {fs : List Formula}
    (shape : s.node f = .or fs) {c : List Lit} (run : s.clauseLits f = .ok c) :
    c.Nodup ∧ 2 ≤ c.length := by
  obtain ⟨many, distinct, _, _⟩ := wf.operands_of_node (c := .disj) known shape
  rw [clauseLits, shape] at run
  have pairs := operandLits run
  have nodes : fs.map s.node = c.map Node.lit := by
    rw [← List.forall₂_eq_eq_eq, List.forall₂_map_left_iff, List.forall₂_map_right_iff]
    exact pairs
  constructor
  · apply List.Nodup.of_map Node.lit
    rw [← nodes]
    apply distinct.map_on
    intro g hg h hh same
    exact wf.node_inj (child_mem known (by rwa [shape])) (child_mem known (by rwa [shape])) same
  · rwa [← pairs.length_eq]

/-- A formula holds where all its clauses do, and mentions their variables. -/
theorem WellFormed.clauses_ok (wf : s.WellFormed) (known : f ∈ s) {cs : List (List Lit)}
    (run : s.clauses f = .ok cs) :
    (∀ value, s.eval value f = true ↔ Models value cs) ∧
      ∀ v, v ∈ s.vars f ↔ ∃ c ∈ cs, ∃ l ∈ c, l.var = v := by
  unfold clauses at run
  split at run
  · rename_i shape
    obtain rfl := wf.eq_verum known shape
    cases run
    simp [wf, Models, wf.vars_constant (f := .verum) rfl]
  · rename_i fs shape
    have forward := forall₂_mem_left (mapM_ok run)
    have backward := forall₂_mem_right (mapM_ok run)
    have part {g : Formula} {c : List Lit} (hg : g ∈ fs) (read : s.clauseLits g = .ok c) :=
      wf.clauseLits_ok (child_mem known (by rwa [shape])) read
    refine ⟨fun value => ?_, fun v => ?_⟩
    · rw [eval_node, shape, Node.eval, List.all_eq_true]
      constructor
      · intro all c hc
        obtain ⟨g, hg, read⟩ := backward c hc
        exact ((part hg read).1 value).mp (all g hg)
      · intro all g hg
        obtain ⟨c, hc, read⟩ := forward g hg
        exact ((part hg read).1 value).mpr (all c hc)
    · rw [wf.mem_vars known, shape]
      constructor
      · rintro (⟨_, impossible, _⟩ | ⟨g, hg, inside⟩)
        · cases impossible
        · obtain ⟨c, hc, read⟩ := forward g hg
          exact ⟨c, hc, ((part hg read).2 v).mp inside⟩
      · rintro ⟨c, hc, inside⟩
        obtain ⟨g, hg, read⟩ := backward c hc
        exact .inr ⟨g, hg, ((part hg read).2 v).mpr inside⟩
  · simp only [bind_ok, pure_ok] at run
    obtain ⟨c, read, rfl⟩ := run
    simpa [Models] using wf.clauseLits_ok known read

end Store

/-! Subsumption. -/

theorem Holds.subsumed {value : Var → Bool} {c d : List Lit} (subsumed : subsumes c d = true)
    (holds : Holds value c) : Holds value d := by
  refine holds.mono fun l member => ?_
  simpa using List.all_eq_true.mp subsumed l member

theorem subsumes_refl (c : List Lit) : subsumes c c = true := by
  simp [subsumes]

/-- Of the clauses looked at, each is subsumed by one that is kept. -/
theorem kept_cover (bySize kept : List (List Lit × Nat)) :
    let out := bySize.foldl (fun kept c =>
      if kept.any fun k => subsumes k.1 c.1 then kept else c :: kept) kept
    (∀ k ∈ out, k ∈ kept ∨ k ∈ bySize) ∧ (∀ k ∈ kept, k ∈ out) ∧
      ∀ c ∈ bySize, ∃ k ∈ out, subsumes k.1 c.1 = true := by
  induction bySize generalizing kept with
  | nil => simp
  | cons c cs ih =>
    intro out
    by_cases covered : (kept.any fun k => subsumes k.1 c.1) = true
    · obtain ⟨within, stay, rest⟩ := ih kept
      have same : out = cs.foldl (fun kept c =>
          if kept.any fun k => subsumes k.1 c.1 then kept else c :: kept) kept := by
        simp [out, covered]
      rw [← same] at within stay rest
      obtain ⟨k, hk, subsumed⟩ := List.any_eq_true.mp covered
      refine ⟨fun k hk => ?_, stay, fun d hd => ?_⟩
      · rcases within k hk with h | h
        · exact .inl h
        · exact .inr (List.mem_cons_of_mem c h)
      · rcases List.mem_cons.mp hd with rfl | hd
        · exact ⟨k, stay k hk, subsumed⟩
        · exact rest d hd
    · obtain ⟨within, stay, rest⟩ := ih (c :: kept)
      have same : out = cs.foldl (fun kept c =>
          if kept.any fun k => subsumes k.1 c.1 then kept else c :: kept) (c :: kept) := by
        simp [out, covered]
      rw [← same] at within stay rest
      refine ⟨fun k hk => ?_, fun k hk => stay k (List.mem_cons_of_mem c hk), fun d hd => ?_⟩
      · rcases within k hk with h | h
        · rcases List.mem_cons.mp h with rfl | h
          · exact .inr (by simp)
          · exact .inl h
        · exact .inr (List.mem_cons_of_mem c h)
      · rcases List.mem_cons.mp hd with rfl | hd
        · exact ⟨d, stay d (by simp), subsumes_refl d.1⟩
        · exact rest d hd

theorem survivors_cover {cs : List (List Lit)} {i : Nat} {c : List Lit} (at_ : cs[i]? = some c) :
    ∃ j ∈ survivors cs, ∃ d, cs[j]? = some d ∧ subsumes d c = true := by
  obtain ⟨within, _, cover⟩ :=
    kept_cover (sortBy (fun c d => c.1.length ≤ d.1.length) cs.zipIdx) []
  obtain ⟨⟨d, j⟩, kept, subsumed⟩ := cover (c, i) (by simpa [(sortBy_perm _ _).mem_iff, List.mem_zipIdx_iff_getElem?] using at_)
  refine ⟨j, List.mem_map.mpr ⟨(d, j), kept, rfl⟩, d, ?_, subsumed⟩
  rcases within (d, j) kept with h | h
  · simp at h
  · simpa [(sortBy_perm _ _).mem_iff, List.mem_zipIdx_iff_getElem?] using h

theorem kept_sublist {α : Type} (xs : List α) (keep : Nat → Bool) :
    ((xs.zipIdx.filter fun x => keep x.2).map (·.1)).Sublist xs := by
  have kept : (xs.zipIdx.filter fun x => keep x.2).Sublist xs.zipIdx := List.filter_sublist
  have firsts := kept.map Prod.fst
  rwa [List.zipIdx_map_fst] at firsts

namespace Store

variable {s : Store} {f : Formula}

theorem subsumption_cases {r : Formula × Store} (run : s.subsumption f = .ok r) :
    s.isCnf f = true ∧
      (r = (f, s) ∨ ∃ fs gs, s.node f = .and fs ∧ gs.Sublist fs ∧ r = s.conj gs) := by
  unfold subsumption at run
  split at run
  · cases run
  rename_i cnf
  refine ⟨by simpa using cnf, ?_⟩
  split at run
  · rename_i fs shape
    simp only [bind_ok, pure_ok] at run
    obtain ⟨cs, _, same⟩ := run
    exact .inr ⟨fs, _, shape, kept_sublist fs (survivors cs).contains, same.symm⟩
  · cases run
    exact .inl rfl

/-- Subsumption rebuilds a formula from some of its clauses, with the same value. -/
theorem WellFormed.subsumption_builds (wf : s.WellFormed) (known : f ∈ s) {r : Formula × Store}
    (run : s.subsumption f = .ok r) :
    Builds s r (fun value => s.eval value f) (· ∈ s.vars f) := by
  unfold subsumption at run
  split at run
  · simp at run
  · split at run
    · rename_i fs shape
      simp only [bind_ok, pure_ok] at run
      obtain ⟨cs, read, rfl⟩ := run
      have pairs := mapM_ok read
      have kept_iff {g : Formula} :
          g ∈ (fs.zipIdx.filter fun c => (survivors cs).contains c.2).map (·.1) ↔
            ∃ j ∈ survivors cs, fs[j]? = some g := by
        simp only [List.mem_map, List.mem_filter, List.contains_iff_mem, Prod.exists,
          List.mem_zipIdx_iff_getElem?]
        constructor
        · rintro ⟨_, j, ⟨at_, kept⟩, rfl⟩
          exact ⟨j, kept, at_⟩
        · rintro ⟨j, kept, at_⟩
          exact ⟨g, j, ⟨at_, kept⟩, rfl⟩
      have child {g : Formula} (hg : g ∈ fs) : g ∈ (s.node f).children := by rwa [shape]
      have inside {g : Formula} {j : Nat} (at_ : fs[j]? = some g) : g ∈ fs :=
        List.mem_of_getElem? at_
      refine (wf.junction_builds fun g hg => ?_).mono (fun value => ?_) fun v => ?_
      · obtain ⟨j, _, at_⟩ := kept_iff.mp hg
        exact child_mem known (child (inside at_))
      · rw [eval_node, shape, Bool.eq_iff_iff]
        simp only [Connective.holds, Node.eval, List.all_eq_true]
        refine ⟨fun all g hg => ?_, fun all g hg => ?_⟩
        · obtain ⟨i, at_⟩ := List.mem_iff_getElem?.mp hg
          obtain ⟨c, place, readC⟩ := forall₂_getElem? pairs at_
          obtain ⟨j, kept, d, place', subsumed⟩ := survivors_cover place
          obtain ⟨h, at', readD⟩ := forall₂_getElem? pairs.flip place'
          have first := (wf.clauseLits_ok (child_mem known (child (inside at'))) readD).1 value
          have second := (wf.clauseLits_ok (child_mem known (child hg)) readC).1 value
          exact second.mpr ((first.mp (all h (kept_iff.mpr ⟨j, kept, at'⟩))).subsumed subsumed)
        · obtain ⟨j, _, at_⟩ := kept_iff.mp hg
          exact all g (inside at_)
      · rintro ⟨g, hg, mentioned⟩
        obtain ⟨j, _, at_⟩ := kept_iff.mp hg
        exact wf.vars_child known (child (inside at_)) mentioned
    · cases run
      exact Builds.known known

/-! Clauses put together. -/

/-- Some clauses, built one after the other. -/
def clauseList (s : Store) : List (List Lit) → List Formula × Store
  | [] => ([], s)
  | c :: cs =>
    let (f, s) := s.clause c
    let (fs, s) := s.clauseList cs
    (f :: fs, s)

/-- The conjunction of some clauses. -/
def conjClauses (s : Store) (cs : List (List Lit)) : Formula × Store :=
  let (fs, s) := s.clauseList cs
  s.conj fs

variable {cs : List (List Lit)}

theorem WellFormed.clauseList_builds (wf : s.WellFormed)
    (words : ∀ c ∈ cs, ∀ l ∈ c, l.code < Node.wordLimit) : Grows s (s.clauseList cs).2 ∧
      List.Forall₂ (fun c f => f ∈ (s.clauseList cs).2 ∧
        (∀ value, (s.clauseList cs).2.eval value f = c.any (·.holds value)) ∧
          ∀ v ∈ (s.clauseList cs).2.vars f, ∃ l ∈ c, l.var = v) cs (s.clauseList cs).1 := by
  induction cs generalizing s with
  | nil => exact ⟨.refl s, .nil⟩
  | cons c cs ih =>
    have first : Builds s (s.clause c) (fun value => c.any (·.holds value)) fun v => ∃ l ∈ c, l.var = v :=
      wf.junction_literals_builds (c := .disj) (words c List.mem_cons_self)
    have wf' := first.wellFormed wf
    obtain ⟨grows, rest⟩ := ih wf' fun d member => words d (List.mem_cons_of_mem c member)
    have later := grows.later wf'
    refine ⟨first.grows.trans grows, .cons ⟨later.mem first.mem, fun value => ?_, fun v mentioned => ?_⟩ rest⟩
    · exact (later.eval_eq first.mem value).trans (first.eval_eq value)
    · exact first.vars_sub v (later.vars_eq first.mem ▸ mentioned)

theorem WellFormed.conjClauses_builds (wf : s.WellFormed)
    (words : ∀ c ∈ cs, ∀ l ∈ c, l.code < Node.wordLimit) :
    Builds s (s.conjClauses cs) (fun value => cs.all fun c => c.any (·.holds value))
      fun v => ∃ c ∈ cs, ∃ l ∈ c, l.var = v := by
  obtain ⟨grows, each⟩ := wf.clauseList_builds words
  have wf' := grows.wellFormed wf
  have made := forall₂_mem_right each
  refine ((wf'.junction_builds (c := .conj) fun f member => ?_).after grows).mono (fun value => ?_) fun v => ?_
  · obtain ⟨_, _, known, _⟩ := made f member
    exact known
  · rw [Bool.eq_iff_iff]
    simp only [Connective.holds, List.all_eq_true]
    refine ⟨fun all c listed => ?_, fun all f member => ?_⟩
    · obtain ⟨f, member, _, means, _⟩ := forall₂_mem_left each c listed
      exact means value ▸ all f member
    · obtain ⟨c, listed, _, means, _⟩ := made f member
      exact means value ▸ all c listed
  · rintro ⟨f, member, mentioned⟩
    obtain ⟨c, listed, _, _, within⟩ := made f member
    exact ⟨c, listed, within v mentioned⟩

/-- Five clauses over five variables that are hard to pull apart. Compiled, they are expanded three
times, two branches fail, the lesson of one of them is asserted, and a subproblem is met again. -/
def knot : Formula × Store :=
  initial.conjClauses [[⟨7⟩, ⟨2⟩, ⟨8⟩], [⟨5⟩, ⟨8⟩, ⟨0⟩], [⟨0⟩, ⟨5⟩, ⟨3⟩], [⟨1⟩, ⟨5⟩, ⟨8⟩], [⟨9⟩, ⟨0⟩]]

theorem knot_builds : Builds initial knot
    (fun value => [[⟨7⟩, ⟨2⟩, ⟨8⟩], [⟨5⟩, ⟨8⟩, ⟨0⟩], [⟨0⟩, ⟨5⟩, ⟨3⟩], [⟨1⟩, ⟨5⟩, ⟨8⟩], [⟨9⟩, ⟨0⟩]].all
      fun c : List Lit => c.any (·.holds value))
    fun v => v.id < 5 := by
  refine (initial_wellFormed.conjClauses_builds (by decide)).mono (fun _ => rfl) ?_
  rintro _ ⟨c, listed, l, member, rfl⟩
  decide +revert

theorem knot_reachable : knot.2.Reachable := knot_builds.grows

theorem knot_mem : knot.1 ∈ knot.2 := knot_builds.mem

end Store

end ModelCounting
