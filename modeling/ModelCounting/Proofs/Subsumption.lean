import ModelCounting.Proofs.Construction
import ModelCounting.Proofs.Repetition

/-!
Subsumption leaves the minimal clauses. Shorter clauses are looked at first and, of equally long ones,
earlier ones. So whatever lies within a clause has been looked at before it, and a clause stays just if
every clause within it has the same literals and comes no earlier.
-/

namespace ModelCounting

/-! Places that are kept. -/

section Picked

variable {α β : Type} {keep : Nat → Bool} {xs : List α} {ys : List β}

/-- The entries at the places that are kept, in their order. -/
def picked (keep : Nat → Bool) (xs : List α) : List α := (xs.zipIdx.filter fun x => keep x.2).map (·.1)

theorem zipIdx_ascending (xs : List α) : xs.zipIdx.Pairwise fun x y => x.2 < y.2 := by
  have places : (xs.zipIdx.map Prod.snd).Pairwise (· < ·) := by
    rw [List.zipIdx_map_snd]
    exact List.pairwise_lt_range'
  exact List.pairwise_map.mp places

theorem pairwise_picked {R : α → α → Prop}
    (each : ∀ i j x y, i < j → xs[i]? = some x → xs[j]? = some y → keep i = true → keep j = true → R x y) :
    (picked keep xs).Pairwise R := by
  apply List.pairwise_map.mpr
  apply List.Pairwise.imp_of_mem _ ((zipIdx_ascending xs).filter _)
  intro x y hx hy before
  obtain ⟨hx, keptX⟩ := List.mem_filter.mp hx
  obtain ⟨hy, keptY⟩ := List.mem_filter.mp hy
  exact each _ _ _ _ before (List.mem_zipIdx_iff_getElem?.mp hx) (List.mem_zipIdx_iff_getElem?.mp hy)
    keptX keptY

theorem picked_forall₂ {R : α → β → Prop} (pairs : List.Forall₂ R xs ys) :
    List.Forall₂ R (picked keep xs) (picked keep ys) := by
  have shifted (start : Nat) : List.Forall₂ R (((xs.zipIdx start).filter fun x => keep x.2).map (·.1))
      (((ys.zipIdx start).filter fun y => keep y.2).map (·.1)) := by
    induction pairs generalizing start with
    | nil => exact .nil
    | @cons x y xs ys head _ ih =>
      rw [List.zipIdx_cons, List.zipIdx_cons, List.filter_cons, List.filter_cons]
      cases here : keep start with
      | true =>
        simp only [if_true, List.map_cons]
        exact .cons head (ih (start + 1))
      | false =>
        simp only [Bool.false_eq_true, if_false]
        exact ih (start + 1)
  exact shifted 0

theorem pair_sublist_or {x y : α} (hx : x ∈ xs) (hy : y ∈ xs) (apart : x ≠ y) :
    [x, y].Sublist xs ∨ [y, x].Sublist xs := by
  induction xs with
  | nil => cases hx
  | cons z xs ih => grind

theorem pair_sublist_asymm {x y : α} (distinct : xs.Nodup) (first : [x, y].Sublist xs) :
    ¬ [y, x].Sublist xs := by
  induction xs with
  | nil => cases first
  | cons z xs ih => grind

end Picked

/-! The order in which clauses are looked at. -/

theorem subsumes_iff {c d : List Lit} : subsumes c d = true ↔ c ⊆ d := by
  simp [subsumes, List.subset_def]

def Precedes (x y : List Lit × Nat) : Prop :=
  x.1.length < y.1.length ∨ x.1.length = y.1.length ∧ x.2 < y.2

theorem Precedes.asymm {x y : List Lit × Nat} (precedes : Precedes x y) : ¬ Precedes y x := by
  simp only [Precedes] at *
  omega

def bySize (cs : List (List Lit)) : List (List Lit × Nat) :=
  sortBy (fun c d => c.1.length ≤ d.1.length) cs.zipIdx

theorem mem_bySize {cs : List (List Lit)} {c : List Lit} {i : Nat} :
    (c, i) ∈ bySize cs ↔ cs[i]? = some c := by
  rw [bySize, (sortBy_perm _ _).mem_iff, List.mem_zipIdx_iff_getElem?]

theorem bySize_precedes (cs : List (List Lit)) : (bySize cs).Pairwise Precedes := by
  have distinct : cs.zipIdx.Nodup := (zipIdx_ascending cs).imp fun before same => by
    rw [same] at before
    exact Nat.lt_irrefl _ before
  have sorted : (bySize cs).Nodup := (sortBy_perm _ _).nodup_iff.mpr distinct
  rw [List.pairwise_iff_forall_sublist]
  intro x y inOrder
  have apart : x ≠ y := by
    rintro rfl
    exact pair_sublist_asymm sorted inOrder inOrder
  have hx : x ∈ cs.zipIdx := (sortBy_perm _ _).mem_iff.mp (inOrder.subset (by simp))
  have hy : y ∈ cs.zipIdx := (sortBy_perm _ _).mem_iff.mp (inOrder.subset (by simp))
  have rises : (bySize cs).Pairwise fun c d => decide (c.1.length ≤ d.1.length) = true :=
    pairwise_sortBy (fun c d => by simpa using Nat.le_total _ _)
      (fun c d e => by simpa using Nat.le_trans) _
  have lengths : x.1.length ≤ y.1.length := by
    simpa using List.pairwise_iff_forall_sublist.mp rises inOrder
  rcases pair_sublist_or hx hy apart with here | there
  · have := List.pairwise_iff_forall_sublist.mp (zipIdx_ascending cs) here
    simp only [Precedes]
    omega
  · -- the sort is stable, so the one that comes later in the list is longer
    have longer : ¬ y.1.length ≤ x.1.length := fun le =>
      pair_sublist_asymm sorted inOrder (pair_sublist_sortBy (by simpa using le) there)
    simp only [Precedes]
    omega

/-! The clauses that stay. -/

def kept (cs : List (List Lit × Nat)) : List (List Lit × Nat) :=
  cs.foldl (fun kept c => if kept.any fun k => subsumes k.1 c.1 then kept else c :: kept) []

theorem kept_any (cs : List (List Lit × Nat)) (c : List Lit) :
    ((kept cs).any fun k => subsumes k.1 c) = true ↔ ∃ d ∈ cs, d.1 ⊆ c := by
  obtain ⟨within, _, cover⟩ := kept_cover cs []
  simp only [List.any_eq_true, subsumes_iff]
  constructor
  · rintro ⟨k, member, inside⟩
    exact ⟨k, (within k member).resolve_left (by simp), inside⟩
  · rintro ⟨d, member, inside⟩
    obtain ⟨k, stays, covers⟩ := cover d member
    exact ⟨k, stays, List.Subset.trans (subsumes_iff.mp covers) inside⟩

/-- A clause stays just if it contains none of those that were looked at before it. -/
theorem mem_kept {cs : List (List Lit × Nat)} (ordered : cs.Pairwise Precedes)
    (c : List Lit × Nat) : c ∈ kept cs ↔ c ∈ cs ∧ ∀ d ∈ cs, Precedes d c → ¬ d.1 ⊆ c.1 := by
  induction cs using List.reverseRecOn with
  | nil => simp [kept]
  | append_singleton cs z ih =>
    obtain ⟨before, _, last⟩ := List.pairwise_append.mp ordered
    replace last : ∀ d ∈ cs, Precedes d z := fun d member => last d member z List.mem_cons_self
    have step : kept (cs ++ [z]) =
        if (kept cs).any fun k => subsumes k.1 z.1 then kept cs else z :: kept cs := by
      rw [kept, List.foldl_append]
      rfl
    have stays : c ∈ kept (cs ++ [z]) ↔ c ∈ kept cs ∨ c = z ∧ ¬ ∃ d ∈ cs, d.1 ⊆ z.1 := by
      rw [step, ← kept_any]
      split
      · rename_i subsumed
        simp only [subsumed, not_true_eq_false, and_false, or_false]
      · rename_i subsumed
        rw [List.mem_cons, or_comm]
        simp only [subsumed, Bool.false_eq_true, not_false_eq_true, and_true]
    have self : ¬ Precedes z z := fun precedes => precedes.asymm precedes
    rw [stays, ih before]
    constructor
    · rintro (⟨member, alone⟩ | ⟨rfl, alone⟩)
      · refine ⟨List.mem_append_left _ member, fun d inside precedes => ?_⟩
        rcases List.mem_append.mp inside with inside | inside
        · exact alone d inside precedes
        · rw [List.mem_singleton.mp inside] at precedes
          exact absurd precedes (last c member).asymm
      · refine ⟨by simp, fun d inside precedes within => ?_⟩
        rcases List.mem_append.mp inside with inside | inside
        · exact alone ⟨d, inside, within⟩
        · rw [List.mem_singleton.mp inside] at precedes
          exact self precedes
    · rintro ⟨member, alone⟩
      rcases List.mem_append.mp member with member | member
      · exact .inl ⟨member, fun d inside => alone d (List.mem_append_left _ inside)⟩
      · obtain rfl := List.mem_singleton.mp member
        exact .inr ⟨rfl, fun ⟨d, inside, within⟩ =>
          alone d (List.mem_append_left _ inside) (last d inside) within⟩

section Survivors

variable {cs : List (List Lit)} (distinct : ∀ c ∈ cs, c.Nodup)

include distinct

/-- A clause stays just if every clause within it has the same literals and comes no earlier. -/
theorem mem_survivors {i : Nat} {c : List Lit} (place : cs[i]? = some c) :
    i ∈ survivors cs ↔ ∀ j d, cs[j]? = some d → d ⊆ c → c ⊆ d ∧ i ≤ j := by
  have within {d e : List Lit} {j : Nat} (place : cs[j]? = some d) (inside : d ⊆ e) : d.Subperm e :=
    List.subperm_of_subset (distinct d (List.mem_of_getElem? place)) inside
  have listed : i ∈ survivors cs ↔ (c, i) ∈ kept (bySize cs) := by
    constructor
    · intro member
      obtain ⟨⟨d, j⟩, stays, rfl⟩ := List.mem_map.mp member
      have place' := mem_bySize.mp ((mem_kept (bySize_precedes cs) (d, j)).mp stays).1
      cases place.symm.trans place'
      exact stays
    · intro stays
      exact List.mem_map.mpr ⟨(c, i), stays, rfl⟩
  rw [listed, mem_kept (bySize_precedes cs), mem_bySize]
  constructor
  · rintro ⟨_, alone⟩ j d place' inside
    have shorter := (within place' inside).length_le
    have not_before : ¬ (d.length < c.length ∨ d.length = c.length ∧ j < i) := fun precedes =>
      alone (d, j) (mem_bySize.mpr place') precedes inside
    have long : c.length ≤ d.length := by omega
    exact ⟨((within place' inside).perm_of_length_le long).symm.subset, by omega⟩
  · refine fun only => ⟨place, fun ⟨d, j⟩ member precedes inside => ?_⟩
    have place' := mem_bySize.mp member
    obtain ⟨outside, first⟩ := only j d place' inside
    have longer := (within place outside).length_le
    simp only [Precedes] at precedes
    omega

end Survivors

/-- What is left of clauses, at the places that are kept: some of them, in their order, none of which
contains another one. Whatever is gone contains one that is left, and of clauses with the same literals
only the first can be left. It is left unless it contains a clause with fewer literals. -/
structure Minimizes (keep : Nat → Bool) (cs ds : List (List Lit)) : Prop where
  picked_eq : ds = picked keep cs
  sublist : ds.Sublist cs
  apart : ds.Pairwise fun c d => ¬ c ⊆ d ∧ ¬ d ⊆ c
  covered : ∀ i c, cs[i]? = some c → keep i = false →
    ∃ j d, cs[j]? = some d ∧ keep j = true ∧ d ⊆ c
  first : ∀ i j c d, cs[i]? = some c → cs[j]? = some d → c ⊆ d → d ⊆ c → i < j → keep j = false
  keep_iff : ∀ i c, cs[i]? = some c →
    (keep i = true ↔ ∀ j d, cs[j]? = some d → d ⊆ c → c ⊆ d ∧ i ≤ j)

namespace Minimizes

/-- The places that the survivors have are those of the minimal clauses. -/
theorem of_survivors {cs : List (List Lit)} (distinct : ∀ c ∈ cs, c.Nodup) :
    Minimizes (survivors cs).contains cs (picked (survivors cs).contains cs) := by
  have keep_iff (i : Nat) (c : List Lit) (place : cs[i]? = some c) :
      (survivors cs).contains i = true ↔
        ∀ j d, cs[j]? = some d → d ⊆ c → c ⊆ d ∧ i ≤ j := by
    rw [List.contains_iff_mem]
    exact mem_survivors distinct place
  have no_later {i j : Nat} {c d : List Lit} (placeC : cs[i]? = some c) (placeD : cs[j]? = some d)
      (within : c ⊆ d) (before : i < j) : (survivors cs).contains j = false := by
    by_contra kept
    have first := ((keep_iff j d placeD).mp (by simpa using kept) i c placeC within).2
    exact absurd before (Nat.not_lt_of_le first)
  constructor
  case picked_eq => rfl
  case sublist => exact kept_sublist cs _
  case keep_iff => exact keep_iff
  case first => exact fun i j c d placeC placeD within _ before => no_later placeC placeD within before
  case apart =>
    apply pairwise_picked
    intro i j c d before placeC placeD keptC keptD
    have outside : ¬ c ⊆ d := by
      intro within
      cases (no_later placeC placeD within before).symm.trans keptD
    constructor
    · exact outside
    · intro within
      exact outside ((keep_iff i c placeC).mp keptC j d placeD within).1
  case covered =>
    intro i c place _
    obtain ⟨j, kept, d, place', subsumed⟩ := survivors_cover place
    exact ⟨j, d, place', List.contains_iff_mem.mpr kept, subsumes_iff.mp subsumed⟩

/-- A single clause stays. -/
theorem single {cs : List (List Lit)} (short : cs.length ≤ 1) : Minimizes (fun _ => true) cs cs := by
  have place_eq {i : Nat} {c : List Lit} (place : cs[i]? = some c) : i = 0 := by
    have := (List.getElem?_eq_some_iff.mp place).1
    omega
  constructor
  case picked_eq =>
    rw [picked, List.filter_true, List.zipIdx_map_fst]
  case sublist => exact List.Sublist.refl cs
  case apart =>
    match cs, short with
    | [], _ => exact .nil
    | [c], _ => exact List.pairwise_singleton _ c
  case covered => exact fun _ _ _ gone => nomatch gone
  case first =>
    intro i j c d placeC placeD _ _ before
    rw [place_eq placeC, place_eq placeD] at before
    cases before
  case keep_iff =>
    intro i c placeC
    obtain rfl := place_eq placeC
    refine ⟨fun _ j d placeD _ => ?_, fun _ => rfl⟩
    obtain rfl := place_eq placeD
    cases placeC.symm.trans placeD
    exact ⟨List.Subset.refl c, Nat.le_refl 0⟩

end Minimizes

/-! Subsumption of the clauses of a formula. -/

namespace Store

variable {s s' : Store} {f g : Formula} {fs : List Formula} {cs : List (List Lit)}

theorem WellFormed.clauseLits_nodup (wf : s.WellFormed) (known : f ∈ s) {c : List Lit}
    (run : s.clauseLits f = .ok c) : c.Nodup := by
  by_cases many : ∃ fs, s.node f = .or fs
  · obtain ⟨fs, shape⟩ := many
    exact (wf.clauseLits_many known shape run).1
  · unfold clauseLits at run
    split at run
    · cases run
      exact .nil
    · cases run
      exact List.nodup_singleton _
    · rename_i fs shape
      exact absurd ⟨fs, shape⟩ many
    · exact absurd run notAClause_error

theorem WellFormed.clauses_nodup (wf : s.WellFormed) (known : f ∈ s) (run : s.clauses f = .ok cs) :
    ∀ c ∈ cs, c.Nodup := by
  intro c member
  obtain ⟨o, conjunct, read⟩ := (wf.mem_clauses known run).mp member
  exact wf.clauseLits_nodup (wf.flatten_proper known conjunct).1 read

theorem WellFormed.clauses_picked (wf : s.WellFormed) (known : f ∈ s) (shape : s.node f = .and fs)
    (read : fs.mapM s.clauseLits = .ok cs) (keep : Nat → Bool) :
    (s.conj (picked keep fs)).2.clauses (s.conj (picked keep fs)).1 = .ok (picked keep cs) := by
  have operands := wf.operands_of_node (c := .conj) known shape
  have part : (picked keep fs).Sublist fs := kept_sublist fs keep
  have present (g : Formula) (member : g ∈ picked keep fs) : g ∈ s :=
    child_mem known (by rw [shape]; exact part.subset member)
  obtain ⟨same, undecided⟩ := operandsOf_part operands part
  have joined : Joined s .conj (picked keep fs) (s.conj (picked keep fs)).1
      (s.conj (picked keep fs)).2 := wf.junction_joined present
  rw [joined.wellFormed.clauses_eq joined.mem, joined.flatten_eq undecided, same]
  have kept : (picked keep fs).mapM s.clauseLits = .ok (picked keep cs) :=
    mapM_of_forall₂ (picked_forall₂ (mapM_ok read))
  exact mapM_again kept fun g member _ found => joined.later.clauseLits_again (present g member) found

theorem clauses_single (other : ∀ fs, s.node f ≠ .and fs) (run : s.clauses f = .ok cs) :
    cs.length ≤ 1 := by
  unfold clauses at run
  split at run
  · cases run
    exact Nat.zero_le 1
  · rename_i fs shape
    exact absurd shape (other fs)
  · obtain ⟨c, _, rest⟩ := bind_ok.mp run
    cases rest
    exact Nat.le_refl 1

theorem WellFormed.subsumption_clauses (wf : s.WellFormed) (known : f ∈ s) {r : Formula × Store}
    (run : s.subsumption f = .ok r) (read : s.clauses f = .ok cs) :
    ∃ keep ds, r.2.clauses r.1 = .ok ds ∧ Minimizes keep cs ds := by
  unfold subsumption at run
  split at run
  · cases run
  · split at run
    · rename_i fs shape
      have read' : fs.mapM s.clauseLits = .ok cs := by
        rwa [clauses, shape] at read
      obtain ⟨cs', again, rest⟩ := bind_ok.mp run
      cases read'.symm.trans again
      cases rest
      exact ⟨_, _, wf.clauses_picked known shape read' _, .of_survivors (wf.clauses_nodup known read)⟩
    · rename_i other
      cases run
      exact ⟨_, cs, read, .single (clauses_single other read)⟩

/-- Subsumption of a conjunction of clauses answers an equivalent one. Its clauses are those of the
formula at some places, in their order: none contains another one, each one that is gone contains one
that is left, and of clauses with the same literals only the first can be left. -/
theorem subsumption_minimizes (leads : Leads initial s) (known : f ∈ s) (cnf : s.isCnf f = true) :
    ∃ g s' cs ds keep, s.subsumption f = .ok (g, s') ∧ g ∈ s' ∧ s'.isCnf g = true ∧
      (∀ value, s'.eval value g = s.eval value f) ∧ s.clauses f = .ok cs ∧
        s'.clauses g = .ok ds ∧ Minimizes keep cs ds := by
  have wf := leads.wellFormed
  obtain ⟨⟨g, s'⟩, run, _⟩ := subsumption_delivers cnf
  obtain ⟨cs, read, _⟩ := clauses_delivers cnf
  have builds := wf.subsumption_builds known run
  obtain ⟨keep, ds, read', minimizes⟩ := wf.subsumption_clauses known run read
  exact ⟨g, s', cs, ds, keep, run, builds.mem, wf.subsumption_isCnf known run, builds.eval_eq, read,
    read', minimizes⟩

/-- Of three clauses, the first contains the others, and those have the same literals. -/
theorem subsumption_minimizes_tie : ∃ s f g s', Leads initial s ∧ f ∈ s ∧ s.isCnf f = true ∧
    s.clauses f = .ok [[⟨0⟩, ⟨2⟩, ⟨4⟩], [⟨2⟩, ⟨0⟩], [⟨0⟩, ⟨2⟩]] ∧ s.subsumption f = .ok (g, s') ∧
      s'.clauses g = .ok [[⟨2⟩, ⟨0⟩]] := by
  have proper : ∀ c ∈ [[⟨0⟩, ⟨2⟩, ⟨4⟩], [⟨2⟩, ⟨0⟩], [⟨0⟩, (⟨2⟩ : Lit)]], Proper c := by
    simp only [List.mem_cons, List.not_mem_nil, or_false, forall_eq_or_imp, forall_eq]
    exact ⟨⟨by decide, by decide, by decide, by decide⟩, ⟨by decide, by decide, by decide, by decide⟩,
      ⟨by decide, by decide, by decide, by decide⟩⟩
  obtain ⟨s, f, leads, known, cnf, clauses⟩ :=
    initial_wellFormed.exists_cnf (by decide) (by decide) proper
  obtain ⟨g, s', cs, ds, keep, run, _, _, _, read, read', minimizes⟩ :=
    subsumption_minimizes leads known cnf
  cases clauses.symm.trans read
  refine ⟨s, f, g, s', leads, known, cnf, clauses, run, ?_⟩
  have longer : keep 0 = false := by
    by_contra kept
    have same := ((minimizes.keep_iff 0 _ rfl).mp (by simpa using kept) 1 _ rfl (by decide)).1
    exact absurd same (by decide)
  have again : keep 2 = false := minimizes.first 1 2 _ _ rfl rfl (by decide) (by decide) (by decide)
  have minimal : keep 1 = true := by
    rw [minimizes.keep_iff 1 _ rfl]
    intro j d place within
    match j, place with
    | 0, rfl => exact absurd within (by decide)
    | 1, rfl => exact ⟨within, Nat.le_refl 1⟩
    | 2, rfl => exact ⟨by decide, by decide⟩
  rw [read', minimizes.picked_eq]
  simp [picked, longer, again, minimal]

end Store

end ModelCounting
