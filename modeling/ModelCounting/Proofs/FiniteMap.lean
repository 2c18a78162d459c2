import ModelCounting.Proofs.FiniteSet

/-!
The cache as a finite map whose keys are sets. Comparing index sets orders them totally, and equals
only those with the same members, whatever room they have. So after any history of requests a cache
answers with what was inserted last under a key with the same members.
-/

namespace ModelCounting

namespace IndexSet

variable {s s' t t' u : IndexSet}

/-- Two sets have the same members. -/
def Alike (s t : IndexSet) : Prop := ∀ i, s.contains i = t.contains i

theorem Alike.significant (alike : s.Alike t) : s.significant = t.significant :=
  significant_inj.mpr alike

theorem same_iff : s.same t = true ↔ s.Alike t := by
  rw [same, beq_iff_eq, significant_inj]
  rfl

/-- A comparison that orders the sets totally, each standing for its members. -/
structure Orders (cmp : IndexSet → IndexSet → Ordering) : Prop where
  swap : ∀ s t, cmp t s = (cmp s t).swap
  total : ∀ s t, (cmp s t).isLE ∨ (cmp t s).isLE
  antisymm : ∀ s t, (cmp s t).isLE → (cmp t s).isLE → s.Alike t
  trans : ∀ s t u, (cmp s t).isLE → (cmp t u).isLE → (cmp s u).isLE
  eq_iff : ∀ s t, cmp s t = .eq ↔ s.Alike t
  congr : ∀ s s' t t', s.Alike s' → t.Alike t' → cmp s t = cmp s' t'

theorem compare_congr (left : s.Alike s') (right : t.Alike t') : s.compare t = s'.compare t' := by
  unfold compare
  rw [left.significant, right.significant]

theorem compare_eq_iff : s.compare t = .eq ↔ s.Alike t := by
  constructor
  · intro same i
    exact contains_of_compare same
  · intro alike
    rw [compare_congr alike fun _ => rfl]
    exact Std.ReflCmp.compare_self

theorem compare_orders : Orders compare where
  swap s t := Std.OrientedCmp.eq_swap
  total s t := by
    have swapped : t.compare s = (s.compare t).swap := Std.OrientedCmp.eq_swap
    rw [swapped]
    cases s.compare t <;> simp
  antisymm s t first second := compare_eq_iff.mp (Std.OrientedCmp.isLE_antisymm first second)
  trans s t u first second := Std.TransCmp.isLE_trans first second
  eq_iff s t := compare_eq_iff
  congr s s' t t' left right := compare_congr left right

end IndexSet

namespace SubproblemCache

/-- What a cache may be asked. -/
inductive Request where
  | insert (key : IndexSet) (f : Formula)
  | query (key : IndexSet)
  | clear

def serve (c : SubproblemCache) : Request → SubproblemCache
  | .insert key f => c.insert key f
  | .query key => (c.query key).2
  | .clear => c.clear

/-- The cache after a history of requests. -/
def after (history : List Request) : SubproblemCache := history.foldl serve {}

/-- The request decides what there is under a key. -/
def Request.Touches (key : IndexSet) : Request → Prop
  | .insert key' _ => key'.Alike key
  | .query _ => False
  | .clear => True

/-- The formula is what was inserted last under a key with the same members, and the cache was not
cleared since. -/
def Latest (history : List Request) (key : IndexSet) (f : Formula) : Prop :=
  ∃ before key' later, history = before ++ .insert key' f :: later ∧ key'.Alike key ∧
    ∀ r ∈ later, ¬ r.Touches key

variable {c : SubproblemCache} {history : List Request} {r : Request} {key : IndexSet} {f : Formula}

theorem not_latest_nil : ¬ Latest [] key f := by
  rintro ⟨before, key', later, whole, _⟩
  simp at whole

theorem latest_append : Latest (history ++ [r]) key f ↔
    (∃ key', r = .insert key' f ∧ key'.Alike key) ∨ (¬ r.Touches key ∧ Latest history key f) := by
  constructor
  · rintro ⟨before, key', later, whole, alike, untouched⟩
    rcases List.eq_nil_or_concat later with rfl | ⟨later, last, rfl⟩
    · obtain ⟨rfl, same⟩ := List.append_inj' whole rfl
      exact .inl ⟨key', List.singleton_inj.mp same, alike⟩
    · rw [List.concat_eq_append, ← List.cons_append, ← List.append_assoc] at whole
      obtain ⟨rfl, same⟩ := List.append_inj' whole rfl
      obtain rfl := List.singleton_inj.mp same
      rw [List.concat_eq_append, List.forall_mem_append] at untouched
      exact .inr ⟨untouched.2 r (List.mem_singleton_self r), before, key', later, rfl, alike, untouched.1⟩
  · rintro (⟨key', rfl, alike⟩ | ⟨last, before, key', later, rfl, alike, untouched⟩)
    · exact ⟨history, key', [], rfl, alike, nofun⟩
    · refine ⟨before, key', later ++ [r], by simp, alike, List.forall_mem_append.mpr ⟨untouched, ?_⟩⟩
      exact List.forall_mem_singleton.mpr last

/-- One request: an insertion is found under the keys with the same members, and clearing leaves
nothing. -/
theorem find_serve : (c.serve r).find? key = some f ↔
    (∃ key', r = .insert key' f ∧ key'.Alike key) ∨ (¬ r.Touches key ∧ c.find? key = some f) := by
  cases r with
  | insert key' g =>
    change (c.insert key' g).find? key = some f ↔ _
    rw [find_insert_eq]
    by_cases alike : key'.Alike key
    · rw [if_pos (IndexSet.compare_eq_iff.mpr alike)]
      simp [Request.Touches, alike, eq_comm]
    · rw [if_neg fun same => alike (IndexSet.compare_eq_iff.mp same)]
      simp [Request.Touches, alike]
  | query key' =>
    change (c.query key').2.find? key = some f ↔ _
    rw [(find_query c key' key).2]
    simp [Request.Touches]
  | clear =>
    have empty : c.clear.find? key = none := Std.TreeMap.getElem?_emptyc
    change c.clear.find? key = some f ↔ _
    rw [empty]
    simp [Request.Touches]

theorem find_after (history : List Request) :
    (after history).find? key = some f ↔ Latest history key f := by
  induction history using List.reverseRecOn with
  | nil =>
    have empty : (after []).find? key = none := Std.TreeMap.getElem?_emptyc
    rw [empty]
    exact iff_of_false nofun not_latest_nil
  | append_singleton history r ih =>
    have last : after (history ++ [r]) = (after history).serve r := List.foldl_concat ..
    rw [last, find_serve, latest_append, ih]

/-- Index sets are ordered totally by their members, so a cache is a finite map on sets: whatever was
asked of it before, a query answers what was inserted last under a key with the same members since
the cache was cleared, and nothing if nothing was. -/
theorem query_latest : IndexSet.Orders IndexSet.compare ∧ ∀ history key,
    (∀ f, ((after history).query key).1 = some f ↔ Latest history key f) ∧
      (((after history).query key).1 = none ↔ ∀ f, ¬ Latest history key f) := by
  refine ⟨IndexSet.compare_orders, fun history key => ?_⟩
  have answer : ((after history).query key).1 = (after history).find? key := (find_query _ key key).1
  rw [answer]
  refine ⟨fun f => find_after history, ?_⟩
  simp only [← find_after, Option.eq_none_iff_forall_ne_some, ne_eq]

end SubproblemCache

end ModelCounting
