import Mathlib.Data.Finset.Powerset
import Mathlib.Data.Finset.Prod
import ModelCounting.Proofs.Shapes
import ModelCounting.Proofs.Sharing

/-!
Counting is exact. A model over a scope of variables is the set of those that it makes true. Meanings
without a common variable have their models independently of each other, those that exclude each other
have none in common, and a variable that a meaning does not depend on doubles their number. So one pass
over a decomposable and deterministic formula finds the number of its models, and a table that earlier
passes have filled stays right for every such formula, whatever else was counted.
-/

namespace ModelCounting

/-! Sets of models. -/

/-- The sets of variables of a scope whose truth, all others being false, makes a meaning true. -/
def satisfying (scope : Finset Var) (meaning : (Var → Bool) → Bool) : Finset (Finset Var) :=
  scope.powerset.filter fun trues => meaning (fun v => decide (v ∈ trues)) = true

def Reads (scope : Finset Var) (meaning : (Var → Bool) → Bool) : Prop :=
  ∀ value value', (∀ v ∈ scope, value v = value' v) → meaning value = meaning value'

section Satisfying

variable {scope left right trues trues' : Finset Var} {p q : (Var → Bool) → Bool}

theorem mem_satisfying :
    trues ∈ satisfying scope p ↔ trues ⊆ scope ∧ p (fun v => decide (v ∈ trues)) = true := by
  simp [satisfying]

theorem Reads.inter_mem (reads : Reads scope p) :
    trues ∩ scope ∈ satisfying scope p ↔ p (fun v => decide (v ∈ trues)) = true := by
  have same : p (fun v => decide (v ∈ trues ∩ scope)) = p (fun v => decide (v ∈ trues)) := by
    apply reads
    intro v member
    simp [member]
  rw [mem_satisfying, same]
  exact and_iff_right Finset.inter_subset_right

theorem mem_satisfying_and (readsLeft : Reads left p) (readsRight : Reads right q) :
    (trues ∈ satisfying (left ∪ right) fun value => p value && q value) ↔
      trues ⊆ left ∪ right ∧ trues ∩ left ∈ satisfying left p ∧
        trues ∩ right ∈ satisfying right q := by
  rw [mem_satisfying, readsLeft.inter_mem, readsRight.inter_mem, Bool.and_eq_true]

theorem union_inter_left (apart : Disjoint left right) (inLeft : trues ⊆ left)
    (inRight : trues' ⊆ right) : (trues ∪ trues') ∩ left = trues := by
  have outside : trues' ∩ left = ∅ :=
    Finset.disjoint_iff_inter_eq_empty.mp (apart.symm.mono_left inRight)
  rw [Finset.union_inter_distrib_right, outside, Finset.union_empty]
  exact Finset.inter_eq_left.mpr inLeft

/-- Models of meanings that share no variable are put together freely. -/
theorem card_satisfying_and (apart : Disjoint left right) (readsLeft : Reads left p)
    (readsRight : Reads right q) :
    (satisfying (left ∪ right) fun value => p value && q value).card =
      (satisfying left p).card * (satisfying right q).card := by
  have parts {trues trues' : Finset Var} (inLeft : trues ⊆ left) (inRight : trues' ⊆ right) :
      (trues ∪ trues') ∩ left = trues ∧ (trues ∪ trues') ∩ right = trues' := by
    constructor
    · exact union_inter_left apart inLeft inRight
    · rw [Finset.union_comm]
      exact union_inter_left apart.symm inRight inLeft
  rw [← Finset.card_product]
  apply Finset.card_nbij' (fun trues => (trues ∩ left, trues ∩ right)) fun pair => pair.1 ∪ pair.2
  · intro trues member
    exact Finset.mem_product.mpr ((mem_satisfying_and readsLeft readsRight).mp member).2
  · rintro ⟨trues, trues'⟩ member
    obtain ⟨first, second⟩ := Finset.mem_product.mp member
    have inLeft := (mem_satisfying.mp first).1
    have inRight := (mem_satisfying.mp second).1
    apply (mem_satisfying_and readsLeft readsRight).mpr
    rw [(parts inLeft inRight).1, (parts inLeft inRight).2]
    exact ⟨Finset.union_subset_union inLeft inRight, first, second⟩
  · intro trues member
    change trues ∩ left ∪ trues ∩ right = trues
    rw [← Finset.inter_union_distrib_left]
    exact Finset.inter_eq_left.mpr (mem_satisfying.mp member).1
  · rintro ⟨trues, trues'⟩ member
    obtain ⟨first, second⟩ := Finset.mem_product.mp member
    obtain ⟨here, there⟩ := parts (mem_satisfying.mp first).1 (mem_satisfying.mp second).1
    exact Prod.ext here there

theorem card_satisfying_wider (within : left ⊆ scope) (reads : Reads left p) :
    (satisfying scope p).card = (satisfying left p).card * 2 ^ (scope.card - left.card) := by
  have free : (satisfying (scope \ left) fun _ => true).card = 2 ^ (scope.card - left.card) := by
    rw [← Finset.card_sdiff_of_subset within, ← Finset.card_powerset]
    congr 1
    ext trues
    simp [mem_satisfying]
  have split := card_satisfying_and (q := fun _ => true) Finset.disjoint_sdiff reads
    (fun _ _ _ => rfl : Reads (scope \ left) _)
  rw [Finset.union_sdiff_of_subset within, free] at split
  simpa only [Bool.and_true] using split

theorem card_satisfying_or (scope : Finset Var)
    (exclusive : ∀ value, ¬ (p value = true ∧ q value = true)) :
    (satisfying scope fun value => p value || q value).card =
      (satisfying scope p).card + (satisfying scope q).card := by
  have apart : Disjoint (satisfying scope p) (satisfying scope q) := by
    apply Finset.disjoint_left.mpr
    intro trues first second
    exact exclusive _ ⟨(mem_satisfying.mp first).2, (mem_satisfying.mp second).2⟩
  rw [← Finset.card_union_of_disjoint apart]
  congr 1
  ext trues
  simp only [Finset.mem_union, mem_satisfying, Bool.or_eq_true]
  exact and_or_left

end Satisfying

namespace Store

variable {s s' : Store} {f g d : Formula} {fs : List Formula} {scope : Finset Var}

/-! Circuits that can be counted. -/

/-- The models of a formula over a scope of variables, each given by the variables it makes true. -/
def models (s : Store) (f : Formula) (scope : Finset Var) : Finset (Finset Var) :=
  satisfying scope fun value => s.eval value f

def ownModels (s : Store) (f : Formula) : Nat := (s.models f (s.vars f).toFinset).card

/-- A decomposable, deterministic formula in negation normal form. -/
structure Countable (s : Store) (f : Formula) : Prop where
  mem : f ∈ s
  isNnf : s.isNnf f = true
  decomposable : s.Decomposable f
  deterministic : s.Deterministic f

theorem Countable.child (countable : s.Countable f) (child : g ∈ (s.node f).children) :
    s.Countable g where
  mem := child_mem countable.mem child
  isNnf := isNnf_child countable.isNnf child
  decomposable := (s.decomposable_iff.mp countable.decomposable).2 g child
  deterministic := (s.deterministic_iff.mp countable.deterministic).2 g child

theorem countable_lit (known : f ∈ s) {l : Lit} (shape : s.node f = .lit l) : s.Countable f where
  mem := known
  isNnf := isNnf_atomic (by rw [shape]; rfl)
  decomposable := decomposable_lit shape
  deterministic := deterministic_lit shape

theorem Joined.countable_conj (joined : Joined s .conj fs g s') (wf : s.WellFormed)
    (each : ∀ f ∈ fs, s.Countable f) (apart : ∀ f ∈ fs, ∀ f' ∈ fs, f ≠ f' → s.Apart f f') :
    s'.Countable g where
  mem := joined.mem
  isNnf := joined.isNnf wf (fun f hf => (each f hf).mem) fun f hf => (each f hf).isNnf
  decomposable := joined.decomposable_conj wf (fun f hf => (each f hf).mem)
    (fun f hf => (each f hf).decomposable) apart
  deterministic := joined.deterministic_conj wf (fun f hf => (each f hf).mem)
    fun f hf => (each f hf).deterministic

theorem Joined.countable_disj (joined : Joined s .disj fs g s') (wf : s.WellFormed)
    (each : ∀ f ∈ fs, s.Countable f)
    (exclusive : ∀ f ∈ fs, ∀ f' ∈ fs, f ≠ f' → s.Exclusive f f') : s'.Countable g where
  mem := joined.mem
  isNnf := joined.isNnf wf (fun f hf => (each f hf).mem) fun f hf => (each f hf).isNnf
  decomposable := joined.decomposable_disj wf (fun f hf => (each f hf).mem)
    fun f hf => (each f hf).decomposable
  deterministic := joined.deterministic_disj wf (fun f hf => (each f hf).mem)
    (fun f hf => (each f hf).deterministic) exclusive

/-! The number of models. -/

theorem WellFormed.reads_vars (wf : s.WellFormed) (known : f ∈ s) :
    Reads (s.vars f).toFinset fun value => s.eval value f := by
  intro value value' agree
  apply wf.eval_congr known
  intro v mentioned
  exact agree v (List.mem_toFinset.mpr mentioned)

theorem WellFormed.reads_all (wf : s.WellFormed) (known : ∀ f ∈ fs, f ∈ s) :
    Reads (fs.flatMap s.vars).toFinset fun value => fs.all (s.eval value) := by
  intro value value' agree
  apply Connective.holds_congr (c := .conj)
  intro g member
  apply wf.reads_vars (known g member)
  intro v mentioned
  apply agree
  simp only [List.mem_toFinset, List.mem_flatMap] at mentioned ⊢
  exact ⟨g, member, mentioned⟩

theorem WellFormed.card_models (wf : s.WellFormed) (known : f ∈ s)
    (within : (s.vars f).toFinset ⊆ scope) :
    (s.models f scope).card = s.ownModels f * 2 ^ (scope.card - (s.vars f).length) := by
  rw [models, card_satisfying_wider within (wf.reads_vars known),
    List.toFinset_card_of_nodup (wf.nodup_vars known)]
  rfl

theorem WellFormed.foldl_and (wf : s.WellFormed) (known : ∀ g ∈ fs, g ∈ s)
    (apart : fs.Pairwise s.Apart) (product : Nat) :
    fs.foldl (fun product g => product * s.ownModels g) product =
      product * (satisfying (fs.flatMap s.vars).toFinset fun value => fs.all (s.eval value)).card := by
  induction fs generalizing product with
  | nil => simp [satisfying]
  | cons g gs ih =>
    obtain ⟨first, others⟩ := List.pairwise_cons.mp apart
    have here : g ∈ s := known g List.mem_cons_self
    have there : ∀ h ∈ gs, h ∈ s := fun h member => known h (List.mem_cons_of_mem g member)
    have disjoint : Disjoint (s.vars g).toFinset (gs.flatMap s.vars).toFinset := by
      apply Finset.disjoint_left.mpr
      intro v mentioned again
      obtain ⟨h, member, inside⟩ := List.mem_flatMap.mp (List.mem_toFinset.mp again)
      exact first h member v (List.mem_toFinset.mp mentioned) inside
    have split := card_satisfying_and disjoint (wf.reads_vars here) (wf.reads_all there)
    simp only [List.foldl_cons, List.flatMap_cons, List.toFinset_append, List.all_cons]
    rw [ih there others, split, Nat.mul_assoc]
    rfl

/-- The operands of a deterministic disjunction share no model. -/
theorem WellFormed.foldl_or (wf : s.WellFormed)
    (inside : ∀ g ∈ fs, g ∈ s ∧ (s.vars g).toFinset ⊆ scope)
    (exclusive : fs.Pairwise s.Exclusive) (sum : Nat) :
    fs.foldl (fun sum g => sum + s.ownModels g <<< (scope.card - (s.vars g).length)) sum =
      sum + (satisfying scope fun value => fs.any (s.eval value)).card := by
  induction fs generalizing sum with
  | nil => simp [satisfying]
  | cons g gs ih =>
    obtain ⟨first, others⟩ := List.pairwise_cons.mp exclusive
    obtain ⟨here, within⟩ := inside g List.mem_cons_self
    have apart : ∀ value, ¬ (s.eval value g = true ∧ gs.any (s.eval value) = true) := by
      rintro value ⟨true_, some⟩
      obtain ⟨h, member, true_'⟩ := List.any_eq_true.mp some
      exact first h member value ⟨true_, true_'⟩
    have split := card_satisfying_or scope apart
    have wider := wf.card_models here within
    rw [models] at wider
    simp only [List.foldl_cons, List.any_cons]
    rw [ih (fun h member => inside h (List.mem_cons_of_mem g member)) others, split, wider,
      Nat.shiftLeft_eq, Nat.add_assoc]

theorem WellFormed.toFinset_vars (wf : s.WellFormed) (known : f ∈ s) {c : Connective}
    (shape : s.node f = c.node fs) : (s.vars f).toFinset = (fs.flatMap s.vars).toFinset := by
  ext v
  rw [List.mem_toFinset, List.mem_toFinset, List.mem_flatMap, wf.mem_vars known, shape,
    c.node_children]
  simp [c.node_ne_lit]

theorem Countable.ownModels_and (countable : s.Countable f) (wf : s.WellFormed)
    (shape : s.node f = .and fs) :
    s.ownModels f = fs.foldl (fun product g => product * s.ownModels g) 1 := by
  have known : ∀ g ∈ fs, g ∈ s := fun g member => child_mem countable.mem (by rwa [shape])
  have meaning (value : Var → Bool) : s.eval value f = fs.all (s.eval value) := by
    rw [eval_node, shape]
    rfl
  have apart := countable.decomposable f .refl fs shape
  rw [wf.foldl_and known apart, Nat.one_mul, ownModels, models,
    wf.toFinset_vars (c := .conj) countable.mem shape]
  simp only [meaning]

theorem Countable.ownModels_or (countable : s.Countable f) (wf : s.WellFormed)
    (shape : s.node f = .or fs) :
    s.ownModels f = fs.foldl (fun sum g =>
      sum + s.ownModels g <<< ((s.vars f).length - (s.vars g).length)) 0 := by
  have meaning (value : Var → Bool) : s.eval value f = fs.any (s.eval value) := by
    rw [eval_node, shape]
    rfl
  have inside : ∀ g ∈ fs, g ∈ s ∧ (s.vars g).toFinset ⊆ (s.vars f).toFinset := by
    intro g member
    have child : g ∈ (s.node f).children := by rwa [shape]
    constructor
    · exact child_mem countable.mem child
    · intro v mentioned
      exact List.mem_toFinset.mpr
        (wf.vars_child countable.mem child (List.mem_toFinset.mp mentioned))
  have distinct := (wf.operands_of_node (c := .disj) countable.mem shape).distinct
  have exclusive : fs.Pairwise s.Exclusive :=
    distinct.imp_of_mem fun here there ne =>
      countable.deterministic f .refl fs shape _ here _ there ne
  have size := List.toFinset_card_of_nodup (wf.nodup_vars countable.mem)
  have sum := wf.foldl_or inside exclusive 0
  rw [size, Nat.zero_add] at sum
  rw [sum, ownModels, models]
  simp only [meaning]

theorem WellFormed.ownModels_constant (wf : s.WellFormed) :
    s.ownModels .falsum = 0 ∧ s.ownModels .verum = 1 := by
  constructor
  · simp [ownModels, models, satisfying, wf]
  · simp [ownModels, models, satisfying, wf, wf.vars_constant (f := .verum) rfl]

theorem WellFormed.ownModels_lit (wf : s.WellFormed) (known : f ∈ s) {l : Lit}
    (shape : s.node f = .lit l) : s.ownModels f = 1 := by
  have vars : s.vars f = [l.var] := by
    rw [wf.vars_eq f known, shape]
    rfl
  have only : s.models f (s.vars f).toFinset = {if l.phase then {l.var} else ∅} := by
    ext trues
    rw [models, mem_satisfying, (wf.lit_meaning known shape).1, vars, Lit.holds]
    cases phase : l.phase <;> simp [Finset.subset_singleton_iff] <;> grind
  rw [ownModels, only, Finset.card_singleton]

/-! The table of counts. -/

def countOperands (s : Store) (step : Nat → Formula → Nat → Nat) (fs : List Formula)
    (start : Nat × CountMemo) : Except Fault (Nat × CountMemo) :=
  fs.foldlM (fun r g => do
    let (n, memo) ← s.countFrom g r.2
    return (step r.1 g n, memo)) start

/-- The count of a node, given those of its operands. -/
def countNode (s : Store) (f : Formula) (memo : CountMemo) : Node → Except Fault (Nat × CountMemo)
  | .falsum => .ok (0, memo)
  | .verum | .lit _ => .ok (1, memo)
  | .and fs => s.countOperands (fun product _ n => product * n) fs (1, memo)
  | .or fs => s.countOperands (fun sum g n =>
      sum + n <<< ((s.vars f).length - (s.vars g).length)) fs (0, memo)
  | n => .error (.notCountable n)

theorem countOperands_attach (s : Store) (step : Nat → Formula → Nat → Nat) (fs : List Formula)
    (start : Nat × CountMemo) :
    fs.attach.foldlM (fun r g => do
      let (n, memo) ← s.countFrom g.1 r.2
      return (step r.1 g.1 n, memo)) start = s.countOperands step fs start := by
  conv => rhs; rw [countOperands, ← List.attach_map_subtype_val fs, List.foldlM_map]

theorem countFrom_fresh {memo : CountMemo} (fresh : memo[f]? = none) :
    s.countFrom f memo = (do
      let (n, memo) ← s.countNode f memo (s.node f)
      return (n, memo.insert f n)) := by
  rw [countFrom]
  simp only [fresh]
  split <;> rename_i shape <;> simp only [shape, countNode, ← countOperands_attach]

def Tallied (s : Store) (memo : CountMemo) : Prop :=
  ∀ f n, memo[f]? = some n → f ∈ s ∧ (s.Countable f → n = s.ownModels f)

structure Counts (s : Store) (f : Formula) (r : Nat × CountMemo) : Prop where
  tallied : s.Tallied r.2
  right : s.Countable f → r.1 = s.ownModels f

variable {memo : CountMemo} {n : Nat}

theorem Tallied.empty (s : Store) : s.Tallied ∅ := by
  intro f n found
  simp at found

theorem Counts.insert (counts : s.Counts f (n, memo)) (known : f ∈ s) :
    s.Counts f (n, memo.insert f n) := by
  constructor
  · intro g k found
    simp only [Std.TreeMap.getElem?_insert] at found
    split at found
    · rename_i same
      cases Std.LawfulEqOrd.eq_of_compare same
      cases Option.some.inj found
      exact ⟨known, counts.right⟩
    · exact counts.tallied g k found
  · exact counts.right

theorem Extends.countable_iff (later : Extends s s') (known : f ∈ s) :
    s'.Countable f ↔ s.Countable f := by
  constructor
  · rintro ⟨_, nnf, decomposable, deterministic⟩
    rw [later.isNnf_eq known] at nnf
    rw [later.decomposable_iff known] at decomposable
    rw [later.deterministic_iff known] at deterministic
    exact ⟨known, nnf, decomposable, deterministic⟩
  · rintro ⟨_, nnf, decomposable, deterministic⟩
    rw [← later.isNnf_eq known] at nnf
    rw [← later.decomposable_iff known] at decomposable
    rw [← later.deterministic_iff known] at deterministic
    exact ⟨later.mem known, nnf, decomposable, deterministic⟩

theorem Extends.models_eq (later : Extends s s') (known : f ∈ s) :
    s'.models f scope = s.models f scope := by
  simp only [models, later.eval_eq known]

theorem Extends.ownModels_eq (later : Extends s s') (known : f ∈ s) :
    s'.ownModels f = s.ownModels f := by
  rw [ownModels, ownModels, later.vars_eq known, later.models_eq known]

theorem Tallied.later (tallied : s.Tallied memo) (later : Extends s s') : s'.Tallied memo := by
  intro f n found
  obtain ⟨known, right⟩ := tallied f n found
  constructor
  · exact later.mem known
  · rw [later.countable_iff known, later.ownModels_eq known]
    exact right

/-- Counting the operands one after the other keeps the table right. -/
theorem countOperands_counts {step : Nat → Formula → Nat → Nat} {acc : Nat} {r : Nat × CountMemo}
    (each : ∀ g ∈ fs, ∀ memo r, s.Tallied memo → s.countFrom g memo = .ok r → s.Counts g r)
    (tallied : s.Tallied memo) (run : s.countOperands step fs (acc, memo) = .ok r) :
    s.Tallied r.2 ∧ ((∀ g ∈ fs, s.Countable g) →
      r.1 = fs.foldl (fun acc g => step acc g (s.ownModels g)) acc) := by
  induction fs generalizing acc memo with
  | nil =>
    obtain rfl := pure_ok.mp run
    exact ⟨tallied, fun _ => rfl⟩
  | cons g gs ih =>
    simp only [countOperands, List.foldlM_cons, bind_ok, pure_ok, Prod.exists] at run
    obtain ⟨_, memo₁, ⟨n, _, counted, same⟩, rest⟩ := run
    cases same
    have first := each g List.mem_cons_self memo _ tallied counted
    obtain ⟨tallied', right⟩ :=
      ih (fun h member => each h (List.mem_cons_of_mem g member)) first.tallied rest
    constructor
    · exact tallied'
    · intro countable
      have value : n = s.ownModels g := first.right (countable g List.mem_cons_self)
      rw [List.foldl_cons, ← value]
      exact right fun h member => countable h (List.mem_cons_of_mem g member)

theorem countNode_counts (wf : s.WellFormed) (known : f ∈ s) {r : Nat × CountMemo}
    (each : ∀ g ∈ (s.node f).children, ∀ memo r, s.Tallied memo → s.countFrom g memo = .ok r →
      s.Counts g r)
    (tallied : s.Tallied memo) (run : s.countNode f memo (s.node f) = .ok r) : s.Counts f r := by
  cases shape : s.node f with
  | falsum =>
    rw [shape] at run
    cases run
    obtain rfl := wf.eq_falsum known shape
    exact ⟨tallied, fun _ => wf.ownModels_constant.1.symm⟩
  | verum =>
    rw [shape] at run
    cases run
    obtain rfl := wf.eq_verum known shape
    exact ⟨tallied, fun _ => wf.ownModels_constant.2.symm⟩
  | lit l =>
    rw [shape] at run
    cases run
    exact ⟨tallied, fun _ => (wf.ownModels_lit known shape).symm⟩
  | and fs =>
    rw [shape, countNode] at run
    rw [shape, Node.children] at each
    obtain ⟨tallied', right⟩ := countOperands_counts each tallied run
    constructor
    · exact tallied'
    · intro countable
      rw [countable.ownModels_and wf shape]
      exact right fun g member => countable.child (by rwa [shape])
  | or fs =>
    rw [shape, countNode] at run
    rw [shape, Node.children] at each
    obtain ⟨tallied', right⟩ := countOperands_counts each tallied run
    constructor
    · exact tallied'
    · intro countable
      rw [countable.ownModels_or wf shape]
      exact right fun g member => countable.child (by rwa [shape])
  | not | implies | equiv =>
    rw [shape] at run
    cases run

theorem countFrom_counts (wf : s.WellFormed) (known : f ∈ s) {r : Nat × CountMemo}
    (tallied : s.Tallied memo) (run : s.countFrom f memo = .ok r) : s.Counts f r := by
  induction size : f.id using Nat.strongRecOn generalizing f memo r with
  | ind k ih =>
    cases fresh : memo[f]? with
    | some n =>
      rw [countFrom] at run
      simp only [fresh] at run
      cases run
      exact ⟨tallied, (tallied f n fresh).2⟩
    | none =>
      rw [countFrom_fresh fresh] at run
      simp only [bind_ok, pure_ok, Prod.exists] at run
      obtain ⟨n, memo₁, counted, rfl⟩ := run
      apply Counts.insert _ known
      apply countNode_counts wf known _ tallied counted
      intro g child memo r tallied' run'
      exact ih g.id (size ▸ s.child_lt child) (child_mem known child) tallied' run' rfl

theorem countOperands_delivers (step : Nat → Formula → Nat → Nat) (start : Nat × CountMemo)
    (each : ∀ g ∈ fs, ∀ memo, Delivers (s.countFrom g memo) fun _ => True) :
    Delivers (s.countOperands step fs start) fun _ => True := by
  apply Delivers.foldlM _ trivial
  intro r _ g member
  exact (each g member r.2).bind fun _ _ _ => .pure trivial

theorem countNode_delivers (normal : s.isNnf f = true) (memo : CountMemo)
    (each : ∀ g ∈ (s.node f).children, ∀ memo, Delivers (s.countFrom g memo) fun _ => True) :
    Delivers (s.countNode f memo (s.node f)) fun _ => True := by
  cases shape : s.node f with
  | falsum | verum | lit => exact .ok trivial
  | and fs | or fs =>
    rw [shape, Node.children] at each
    rw [countNode]
    exact countOperands_delivers _ _ each
  | not | implies | equiv =>
    rw [isNnf_node, shape] at normal
    cases normal

theorem countFrom_delivers (normal : s.isNnf f = true) (memo : CountMemo) :
    Delivers (s.countFrom f memo) fun _ => True := by
  induction size : f.id using Nat.strongRecOn generalizing f memo with
  | ind k ih =>
    cases fresh : memo[f]? with
    | some n =>
      rw [countFrom]
      simp only [fresh]
      exact .ok trivial
    | none =>
      rw [countFrom_fresh fresh]
      have node := countNode_delivers normal memo fun g child memo' =>
        ih g.id (size ▸ s.child_lt child) (isNnf_child normal child) memo' rfl
      exact node.bind fun _ _ _ => .pure trivial

/-- The tables of one counter: empty at first, and then whatever formulas it has counted, while the
store went on growing. -/
inductive Counter : Store → CountMemo → Prop
  | new {s : Store} (leads : Leads initial s) : Counter s ∅
  | grown {s s' : Store} {memo : CountMemo} (counter : Counter s memo) (leads : Leads s s') :
    Counter s' memo
  | counted {s : Store} {f : Formula} {memo : CountMemo} {r : Nat × CountMemo}
    (counter : Counter s memo) (known : f ∈ s) (run : s.countFrom f memo = .ok r) : Counter s r.2

theorem Counter.wellFormed (counter : Counter s memo) : s.WellFormed := by
  induction counter with
  | new leads => exact leads.wellFormed
  | grown _ leads ih => exact (leads.grows ih).wellFormed ih
  | counted _ _ _ ih => exact ih

/-- Whatever was counted before, what the table has for countable formulas is right. -/
theorem Counter.tallied (counter : Counter s memo) : s.Tallied memo := by
  induction counter with
  | new leads => exact Tallied.empty _
  | grown before leads ih =>
    have wf := before.wellFormed
    exact ih.later ((leads.grows wf).later wf)
  | counted before known run ih => exact (countFrom_counts before.wellFormed known ih run).tallied

theorem mem_ofVars (f : Formula) (vars : List Var) {v : Var} :
    v ∈ (Circuit.ofVars f vars).vars ↔ v ∈ vars := by
  have union (acc : List Var) :
      v ∈ vars.foldl (fun vs w => mergeVars vs [w]) acc ↔ v ∈ acc ∨ v ∈ vars := by
    induction vars generalizing acc with
    | nil => simp
    | cons w ws ih =>
      rw [List.foldl_cons, ih, mem_mergeVars, List.mem_singleton, List.mem_cons, or_assoc]
  simpa [Circuit.ofVars] using union []

theorem ascending_ofVars (f : Formula) (vars : List Var) :
    Ascending (Circuit.ofVars f vars).vars := by
  have union (acc : List Var) (start : Ascending acc) :
      Ascending (vars.foldl (fun vs w => mergeVars vs [w]) acc) := by
    induction vars generalizing acc with
    | nil => exact start
    | cons w ws ih => exact ih _ (ascending_mergeVars start (List.pairwise_singleton _ w))
  exact union [] List.Pairwise.nil

theorem length_ofVars (f : Formula) (vars : List Var) :
    (Circuit.ofVars f vars).vars.length = vars.toFinset.card := by
  have distinct : (Circuit.ofVars f vars).vars.Nodup :=
    (ascending_ofVars f vars).imp fun below same => by simp [same] at below
  rw [← List.toFinset_card_of_nodup distinct]
  congr 1
  ext v
  rw [List.mem_toFinset, List.mem_toFinset, mem_ofVars]

/-- A choice: a formula, or one that excludes it beside a third that is apart from the second. -/
theorem WellFormed.exists_choice_joined {a a' b : Formula} (wf : s.WellFormed) (yes : s.Countable a)
    (no : s.Countable a') (then_ : s.Countable b) (exclusive : s.Exclusive a a')
    (apart : s.Apart a' b) :
    ∃ s₁ s₂ x d, (Leads s s₁ ∧ Joined s .conj [a', b] x s₁ ∧ s₁.Countable x) ∧
      (Leads s₁ s₂ ∧ Joined s₁ .disj [a, x] d s₂ ∧ s₂.Countable d) ∧
        ∀ value, s₂.eval value d = (s.eval value a || s.eval value a' && s.eval value b) := by
  have conjuncts : ∀ g ∈ [a', b], s.Countable g := by simp [no, then_]
  have inside : ∀ g ∈ [a', b], g ∈ s := fun g member => (conjuncts g member).mem
  obtain ⟨s₁, x, leads₁, both⟩ := wf.exists_junction .conj inside
  have countableX : s₁.Countable x := by
    apply both.countable_conj wf conjuncts
    simp [apart, Std.Symm.symm _ _ apart]
  have valueX (value : Var → Bool) : s₁.eval value x = (s.eval value a' && s.eval value b) := by
    rw [both.eval_eq wf inside]
    simp [Connective.holds]
  have disjuncts : ∀ g ∈ [a, x], s₁.Countable g := by
    simp [countableX, (both.later.countable_iff yes.mem).mpr yes]
  have inside' : ∀ g ∈ [a, x], g ∈ s₁ := fun g member => (disjuncts g member).mem
  obtain ⟨s₂, d, leads₂, either⟩ := both.wellFormed.exists_junction .disj inside'
  have exclusive' : s₁.Exclusive a x := by
    rintro value ⟨first, second⟩
    rw [both.later.eval_eq yes.mem] at first
    rw [valueX, Bool.and_eq_true] at second
    exact exclusive value ⟨first, second.1⟩
  refine ⟨s₁, s₂, x, d, ⟨leads₁, both, countableX⟩, ⟨leads₂, either, ?_⟩, ?_⟩
  · apply either.countable_disj both.wellFormed disjuncts
    simp [exclusive', Std.Symm.symm _ _ exclusive']
  · intro value
    rw [either.eval_eq both.wellFormed inside']
    simp [Connective.holds, valueX, both.later.eval_eq yes.mem]

theorem WellFormed.exists_choice {a a' b : Formula} (wf : s.WellFormed) (yes : s.Countable a)
    (no : s.Countable a') (then_ : s.Countable b) (exclusive : s.Exclusive a a')
    (apart : s.Apart a' b) :
    ∃ s₁ s₂ x d, Leads s s₁ ∧ Leads s₁ s₂ ∧ s₁.Countable x ∧ s₂.Countable d ∧
      (∀ value, s₂.eval value d = (s.eval value a || s.eval value a' && s.eval value b)) ∧
        ∀ v ∈ s₂.vars d, v ∈ s.vars a ∨ v ∈ s.vars a' ∨ v ∈ s.vars b := by
  obtain ⟨s₁, s₂, x, d, ⟨leads₁, both, countableX⟩, ⟨leads₂, either, countable⟩, meaning⟩ :=
    wf.exists_choice_joined yes no then_ exclusive apart
  have inside : ∀ g ∈ [a', b], g ∈ s := by simp [no.mem, then_.mem]
  have inside' : ∀ g ∈ [a, x], g ∈ s₁ := by simp [both.later.mem yes.mem, countableX.mem]
  refine ⟨s₁, s₂, x, d, leads₁, leads₂, countableX, countable, meaning, fun v mentioned => ?_⟩
  obtain ⟨g, part, here⟩ := either.vars_subset both.wellFormed inside' mentioned
  rcases List.mem_pair.mp part with rfl | rfl
  · exact .inl (both.later.vars_eq yes.mem ▸ here)
  · obtain ⟨h, part, here⟩ := both.vars_subset wf inside here
    rcases List.mem_pair.mp part with rfl | rfl
    · exact .inr (.inl here)
    · exact .inr (.inr here)

theorem WellFormed.toFinset_vars_choice (wf : s.WellFormed) (known : f ∈ s)
    (meaning : ∀ value, s.eval value f = (value ⟨0⟩ || !value ⟨0⟩ && value ⟨1⟩))
    (only : ∀ v ∈ s.vars f, v = ⟨0⟩ ∨ v = ⟨1⟩) : (s.vars f).toFinset = {⟨0⟩, ⟨1⟩} := by
  have depends (v : Var) (differ : s.eval (· == v) f ≠ s.eval (fun _ => false) f) : v ∈ s.vars f :=
    wf.mem_vars_of_depends known (fun w other => by simpa using other) differ
  have here := depends ⟨0⟩ (by simp [meaning])
  have there := depends ⟨1⟩ (by simp [meaning])
  ext v
  simp only [List.mem_toFinset, Finset.mem_insert, Finset.mem_singleton]
  constructor
  · exact only v
  · rintro (rfl | rfl)
    · exact here
    · exact there

/-- The count of a decomposable and deterministic formula in negation normal form is the number of its
models over its own variables, whatever the counter has counted before; and over any variables that
include these, the count of the circuit is the number of models over them. -/
theorem Counter.count_exact (counter : Counter s memo) (countable : s.Countable d) :
    Delivers (s.countFrom d memo) (fun r => r.1 = (s.models d (s.vars d).toFinset).card) ∧
      ∀ vars : List Var, (∀ v ∈ s.vars d, v ∈ vars) →
        (Circuit.ofVars d vars).modelCount s = .ok (s.models d vars.toFinset).card := by
  have wf := counter.wellFormed
  have counted {memo : CountMemo} (tallied : s.Tallied memo) :
      Delivers (s.countFrom d memo) fun r => r.1 = s.ownModels d :=
    ((countFrom_delivers countable.isNnf memo).and fun r run =>
      countFrom_counts wf countable.mem tallied run).mono fun r both => both.2.right countable
  constructor
  · exact counted counter.tallied
  · intro vars within
    have inside : (s.vars d).toFinset ⊆ vars.toFinset := by
      intro v mentioned
      exact List.mem_toFinset.mpr (within v (List.mem_toFinset.mp mentioned))
    obtain ⟨⟨n, memo'⟩, run, value⟩ := counted (Tallied.empty s)
    simp only at value
    rw [Circuit.modelCount, length_ofVars]
    simp only [Circuit.ofVars, run]
    rw [wf.card_models countable.mem inside, ← value, ← Nat.shiftLeft_eq]
    rfl

/-- One variable, or not that one but another: three models over the two variables, also if one part
was counted before, and six over three variables. -/
theorem count_exact_choice : ∃ (s : Store) (d : Formula) (memo : CountMemo), s.Counter memo ∧
    s.Countable d ∧ (∀ value, s.eval value d = (value ⟨0⟩ || !value ⟨0⟩ && value ⟨1⟩)) ∧
      Delivers (s.countFrom d memo) (fun r => r.1 = 3) ∧
        (Circuit.ofVars d [⟨0⟩, ⟨1⟩, ⟨2⟩]).modelCount s = .ok 6 := by
  have words : ∀ l ∈ [⟨0⟩, ⟨1⟩, (⟨2⟩ : Lit)], l.code < Node.wordLimit := by decide
  obtain ⟨s₁, leads₁, made⟩ := initial_wellFormed.exists_literals words
  obtain ⟨a, knownA, shapeA⟩ := made ⟨0⟩ (by simp)
  obtain ⟨a', knownA', shapeA'⟩ := made ⟨1⟩ (by simp)
  obtain ⟨b, knownB, shapeB⟩ := made ⟨2⟩ (by simp)
  have wf := leads₁.wellFormed
  have yes := countable_lit knownA shapeA
  have no := countable_lit knownA' shapeA'
  have other := countable_lit knownB shapeB
  obtain ⟨valueA, onlyA⟩ := wf.lit_meaning knownA shapeA
  obtain ⟨valueA', onlyA'⟩ := wf.lit_meaning knownA' shapeA'
  obtain ⟨valueB, onlyB⟩ := wf.lit_meaning knownB shapeB
  have exclusive : s₁.Exclusive a a' := by
    intro value
    rw [valueA, valueA']
    simp [Lit.holds, Lit.var, Lit.phase]
  have apart : s₁.Apart a' b := by
    intro v here there
    cases (onlyA' v here).symm.trans (onlyB v there)
  obtain ⟨s₂, s₃, x, d, leads₂, leads₃, part, countable, choice, inside⟩ :=
    wf.exists_choice yes no other exclusive apart
  have meaning (value : Var → Bool) :
      s₃.eval value d = (value ⟨0⟩ || !value ⟨0⟩ && value ⟨1⟩) := by
    rw [choice, valueA, valueA', valueB]
    simp [Lit.holds, Lit.var, Lit.phase]
  -- the conjunction is counted first
  obtain ⟨r, counted, _⟩ := countFrom_delivers part.isNnf ∅
  have before : s₂.Counter ∅ := .new (leads₁.trans leads₂)
  have counter : s₃.Counter r.2 := (before.counted part.mem counted).grown leads₃
  obtain ⟨own, wider⟩ := counter.count_exact countable
  have only : ∀ v ∈ s₃.vars d, v = ⟨0⟩ ∨ v = ⟨1⟩ := by
    intro v mentioned
    rcases inside v mentioned with here | here | here
    · exact .inl (onlyA v here)
    · exact .inl (onlyA' v here)
    · exact .inr (onlyB v here)
  have vars := counter.wellFormed.toFinset_vars_choice countable.mem meaning only
  refine ⟨s₃, d, r.2, counter, countable, meaning, ?_, ?_⟩
  · rw [vars, models] at own
    simp only [meaning] at own
    exact own
  · have within : ∀ v ∈ s₃.vars d, v ∈ [⟨0⟩, ⟨1⟩, (⟨2⟩ : Var)] := by
      intro v mentioned
      rcases only v mentioned with rfl | rfl <;> simp
    rw [wider _ within, models]
    simp only [meaning]
    rfl

end Store

end ModelCounting
