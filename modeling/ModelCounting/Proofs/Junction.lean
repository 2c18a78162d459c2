import Mathlib.Data.List.Basic
import ModelCounting.Proofs.Store

/-!
Junctions. A junction is looked at through its operands: flattening the result of a junction gives
the operands it was built from, so its value, variables and shape follow from theirs.
-/

namespace ModelCounting

namespace Connective

def deciding : Connective → Bool
  | .conj => false
  | .disj => true

/-- The value of a junction whose operands have the given values. -/
def holds (c : Connective) (p : Formula → Bool) (fs : List Formula) : Bool :=
  match c with
  | .conj => fs.all p
  | .disj => fs.any p

theorem holds_eq_deciding {c : Connective} {p : Formula → Bool} {fs : List Formula} :
    c.holds p fs = c.deciding ↔ ∃ f ∈ fs, p f = c.deciding := by
  cases c <;> simp [holds, deciding]

theorem eq_of_deciding_iff (c : Connective) {a b : Bool} (same : a = c.deciding ↔ b = c.deciding) :
    a = b := by
  cases c <;> cases a <;> cases b <;> simp_all [deciding]

theorem holds_congr {c : Connective} {p q : Formula → Bool} {fs : List Formula}
    (agree : ∀ f ∈ fs, p f = q f) : c.holds p fs = c.holds q fs := by
  apply c.eq_of_deciding_iff
  rw [holds_eq_deciding, holds_eq_deciding]
  exact exists_congr fun f => and_congr_right fun member => by rw [agree f member]

theorem node_ne_lit (c : Connective) (fs : List Formula) (l : Lit) : c.node fs ≠ .lit l := by
  cases c <;> simp [node]

theorem node_children (c : Connective) (fs : List Formula) : (c.node fs).children = fs := by
  cases c <;> rfl

theorem node_eval (c : Connective) (value : Var → Bool) (sub : Formula → Bool)
    (fs : List Formula) : (c.node fs).eval value sub = c.holds sub fs := by
  cases c <;> rfl

theorem node_inj (c : Connective) {fs gs : List Formula} (same : c.node fs = c.node gs) :
    fs = gs := by
  have := congrArg Node.children same
  rwa [node_children, node_children] at this

end Connective

namespace Store

variable {s s' : Store} {c : Connective} {f g : Formula} {fs gs : List Formula}

theorem WellFormed.neutral_mem (wf : s.WellFormed) (c : Connective) : c.neutral ∈ s := by
  cases c
  · exact wf.verum_mem
  · exact wf.falsum_mem

theorem WellFormed.absorbing_mem (wf : s.WellFormed) (c : Connective) : c.absorbing ∈ s := by
  cases c
  · exact wf.falsum_mem
  · exact wf.verum_mem

theorem WellFormed.eval_neutral (wf : s.WellFormed) (c : Connective) (value : Var → Bool) :
    s.eval value c.neutral = !c.deciding := by
  cases c
  · exact wf.eval_verum value
  · exact wf.eval_falsum value

theorem WellFormed.eval_absorbing (wf : s.WellFormed) (c : Connective) (value : Var → Bool) :
    s.eval value c.absorbing = c.deciding := by
  cases c
  · exact wf.eval_falsum value
  · exact wf.eval_verum value

theorem WellFormed.node_constant (wf : s.WellFormed) (constant : f.isConstant = true) :
    s.node f = .falsum ∨ s.node f = .verum := by
  simp only [Formula.isConstant, Bool.or_eq_true, beq_iff_eq] at constant
  rcases constant with rfl | rfl
  · exact .inl wf.node_falsum
  · exact .inr wf.node_verum

theorem WellFormed.not_constant (wf : s.WellFormed) (falsum : s.node f ≠ .falsum)
    (verum : s.node f ≠ .verum) : f.isConstant = false := by
  by_contra constant
  rcases wf.node_constant (by simpa using constant) with shape | shape
  · exact falsum shape
  · exact verum shape

theorem WellFormed.vars_constant (wf : s.WellFormed) (constant : f.isConstant = true) :
    s.vars f = [] := by
  have known : f ∈ s := by
    simp only [Formula.isConstant, Bool.or_eq_true, beq_iff_eq] at constant
    rcases constant with rfl | rfl
    · exact wf.falsum_mem
    · exact wf.verum_mem
  rw [wf.vars_eq f known]
  rcases wf.node_constant constant with shape | shape <;> rw [shape] <;> rfl

/-! Operands. -/

theorem isConstant_iff (c : Connective) :
    f.isConstant = true ↔ f = c.neutral ∨ f = c.absorbing := by
  cases c <;> simp [Formula.isConstant, Connective.neutral, Connective.absorbing, or_comm]

theorem flatten_neutral (s : Store) (c : Connective) : s.flatten c c.neutral = [] := by
  simp [flatten]

theorem flatten_cases (s : Store) (c : Connective) (proper : f ≠ c.neutral) :
    (∃ fs, s.node f = c.node fs ∧ s.flatten c f = fs) ∨
      (∀ fs, s.node f ≠ c.node fs) ∧ s.flatten c f = [f] := by
  unfold flatten
  rw [if_neg proper]
  cases c <;> cases shape : s.node f <;> simp [Connective.node]

theorem WellFormed.flatten_node (wf : s.WellFormed) (shape : s.node f = c.node fs) :
    s.flatten c f = fs := by
  have proper : f ≠ c.neutral := by
    rintro rfl
    rcases wf.node_constant ((isConstant_iff c).mpr (.inl rfl)) with h | h <;>
      rw [h] at shape <;> cases c <;> simp [Connective.node] at shape
  rcases s.flatten_cases c proper with ⟨gs, same, flat⟩ | ⟨other, _⟩
  · rw [flat]
    exact c.node_inj (same.symm.trans shape)
  · exact absurd shape (other fs)

theorem flatten_self (proper : f ≠ c.neutral)
    (other : ∀ fs, s.node f ≠ c.node fs) : s.flatten c f = [f] := by
  rcases s.flatten_cases c proper with ⟨gs, same, _⟩ | ⟨_, flat⟩
  · exact absurd same (other gs)
  · exact flat

theorem WellFormed.operands_of_node (wf : s.WellFormed) (known : f ∈ s)
    (shape : s.node f = c.node fs) : Operands s.node c fs := by
  have canonical := wf.canonical f known
  rw [shape] at canonical
  cases c <;> exact canonical

theorem WellFormed.flatten_proper (wf : s.WellFormed) (known : f ∈ s)
    {o : Formula} (operand : o ∈ s.flatten c f) :
    o ∈ s ∧ o ≠ c.neutral ∧ (∀ gs, s.node o ≠ c.node gs) ∧ (o = c.absorbing → f = c.absorbing) := by
  by_cases neutral : f = c.neutral
  · simp [neutral, flatten_neutral] at operand
  · rcases s.flatten_cases c neutral with ⟨gs, shape, flat⟩ | ⟨other, flat⟩
    · rw [flat] at operand
      have canonical := wf.operands_of_node known shape
      have proper := canonical.proper o operand
      have constant : ¬ (o = c.neutral ∨ o = c.absorbing) := by
        rw [← isConstant_iff, proper.1]
        simp
      refine ⟨child_mem known ?_, fun h => constant (.inl h), proper.2,
        fun h => absurd (.inr h) constant⟩
      rwa [shape, Connective.node_children]
    · rw [flat] at operand
      obtain rfl := List.mem_singleton.mp operand
      exact ⟨known, neutral, other, id⟩

theorem WellFormed.flatten_operand (wf : s.WellFormed) (known : f ∈ s) {o : Formula}
    (operand : o ∈ s.flatten c f) : s.flatten c o = [o] := by
  obtain ⟨_, neutral, other, _⟩ := wf.flatten_proper known operand
  exact flatten_self neutral other

theorem WellFormed.mem_vars_flatten (wf : s.WellFormed) (known : f ∈ s) (c : Connective) (v : Var) :
    v ∈ s.vars f ↔ ∃ o ∈ s.flatten c f, v ∈ s.vars o := by
  by_cases neutral : f = c.neutral
  · simp [neutral, flatten_neutral, wf.vars_constant ((isConstant_iff c).mpr (.inl rfl))]
  · rcases s.flatten_cases c neutral with ⟨gs, shape, flat⟩ | ⟨_, flat⟩
    · rw [flat, wf.mem_vars known, shape, Connective.node_children]
      simp [Connective.node_ne_lit]
    · simp [flat]

theorem WellFormed.holds_flatten (wf : s.WellFormed) (c : Connective) (value : Var → Bool)
    (f : Formula) : c.holds (s.eval value) (s.flatten c f) = s.eval value f := by
  by_cases neutral : f = c.neutral
  · rw [neutral, flatten_neutral, wf.eval_neutral]
    cases c <;> rfl
  · rcases s.flatten_cases c neutral with ⟨gs, shape, flat⟩ | ⟨_, flat⟩
    · rw [flat, s.eval_node value f, shape, Connective.node_eval]
    · rw [flat]
      cases c <;> simp [Connective.holds]

theorem Extends.flatten_eq (later : Extends s s') (known : f ∈ s) :
    s'.flatten c f = s.flatten c f := by
  unfold flatten
  rw [later.node_eq known]

/-! First occurrences and clashes. -/

theorem mem_firstOccurrences {seen : Std.TreeSet Formula} :
    f ∈ firstOccurrences seen fs ↔ f ∈ fs ∧ f ∉ seen := by
  induction fs generalizing seen with
  | nil => simp [firstOccurrences]
  | cons g fs ih =>
    rw [firstOccurrences]
    split
    · rename_i old
      rw [ih]
      grind
    · rename_i new
      rw [List.mem_cons, ih, List.mem_cons, Std.TreeSet.mem_insert, Std.compare_eq_iff_eq]
      grind

theorem nodup_firstOccurrences (seen : Std.TreeSet Formula) (fs : List Formula) :
    (firstOccurrences seen fs).Nodup := by
  induction fs generalizing seen with
  | nil => simp [firstOccurrences]
  | cons g fs ih =>
    rw [firstOccurrences]
    split
    · exact ih seen
    · refine List.nodup_cons.mpr ⟨fun again => ?_, ih _⟩
      have := (mem_firstOccurrences.mp again).2
      simp at this

theorem firstOccurrences_of_nodup {seen : Std.TreeSet Formula} (distinct : fs.Nodup)
    (new : ∀ f ∈ fs, f ∉ seen) : firstOccurrences seen fs = fs := by
  induction fs generalizing seen with
  | nil => rfl
  | cons f fs ih =>
    obtain ⟨apart, distinct⟩ := List.nodup_cons.mp distinct
    rw [firstOccurrences, if_neg (by simpa using new f List.mem_cons_self), ih distinct]
    intro g member
    rw [Std.TreeSet.mem_insert, not_or, Std.compare_eq_iff_eq]
    exact ⟨fun same => apart (same ▸ member), new g (List.mem_cons_of_mem f member)⟩

theorem clashing_iff (s : Store) (fs : List Formula) :
    s.clashing fs = true ↔ ∃ f ∈ fs, ∃ g ∈ fs, ∃ l, s.node f = .lit l ∧ s.node g = .lit (-l) := by
  have asLit (n : Node) (l : Lit) : n.asLit? = some l ↔ n = .lit l := by
    cases n <;> simp [Node.asLit?]
  simp only [clashing, List.any_eq_true, List.mem_filterMap, Std.TreeSet.contains_ofList,
    List.contains_iff_mem, asLit]
  constructor
  · rintro ⟨l, ⟨f, hf, left⟩, ⟨g, hg, right⟩⟩
    exact ⟨f, hf, g, hg, l, left, right⟩
  · rintro ⟨f, hf, g, hg, l, left, right⟩
    exact ⟨l, ⟨f, hf, left⟩, ⟨g, hg, right⟩⟩

/-! The junction of a list. -/

def operandsOf (s : Store) (c : Connective) (fs : List Formula) : List Formula :=
  firstOccurrences ∅ (fs.flatMap (s.flatten c))

theorem junction_eq (s : Store) (c : Connective) (fs : List Formula) :
    s.junction c fs =
      if fs.contains c.absorbing then (c.absorbing, s)
      else if s.clashing (s.operandsOf c fs) then (c.absorbing, s)
      else match s.operandsOf c fs with
        | [] => (c.neutral, s)
        | [f] => (f, s)
        | _ => s.intern (c.node (s.operandsOf c fs)) := rfl

theorem mem_operandsOf {o : Formula} :
    o ∈ s.operandsOf c fs ↔ ∃ f ∈ fs, o ∈ s.flatten c f := by
  simp [operandsOf, mem_firstOccurrences]

theorem WellFormed.holds_operandsOf (wf : s.WellFormed) (value : Var → Bool) :
    c.holds (s.eval value) (s.operandsOf c fs) = c.holds (s.eval value) fs := by
  apply c.eq_of_deciding_iff
  have flat (f : Formula) :
      s.eval value f = c.deciding ↔ ∃ o ∈ s.flatten c f, s.eval value o = c.deciding := by
    rw [← wf.holds_flatten c value f, Connective.holds_eq_deciding]
  rw [Connective.holds_eq_deciding, Connective.holds_eq_deciding]
  constructor
  · rintro ⟨o, operand, decides⟩
    obtain ⟨f, hf, ho⟩ := mem_operandsOf.mp operand
    exact ⟨f, hf, (flat f).mpr ⟨o, ho, decides⟩⟩
  · rintro ⟨f, hf, decides⟩
    obtain ⟨o, ho, decides⟩ := (flat f).mp decides
    exact ⟨o, mem_operandsOf.mpr ⟨f, hf, ho⟩, decides⟩

def Decided (s : Store) (c : Connective) (fs : List Formula) : Prop :=
  c.absorbing ∈ fs ∨ s.clashing (s.operandsOf c fs) = true

theorem WellFormed.holds_of_decided (wf : s.WellFormed) (decided : s.Decided c fs)
    (value : Var → Bool) : c.holds (s.eval value) fs = c.deciding := by
  rcases decided with absorbing | clash
  · exact Connective.holds_eq_deciding.mpr ⟨_, absorbing, wf.eval_absorbing c value⟩
  · rw [← wf.holds_operandsOf, Connective.holds_eq_deciding]
    obtain ⟨f, hf, g, hg, l, left, right⟩ := (s.clashing_iff _).mp clash
    have opposite : s.eval value g = !s.eval value f := by
      rw [eval_node, eval_node, left, right]
      simp only [Node.eval, Lit.holds, Lit.var_neg, Lit.phase_neg]
      cases value l.var <;> cases l.phase <;> rfl
    by_cases first : s.eval value f = c.deciding
    · exact ⟨f, hf, first⟩
    · refine ⟨g, hg, ?_⟩
      rw [opposite]
      cases h : s.eval value f <;> cases k : c.deciding <;> simp_all

theorem operandsOf_part (operands : Operands s.node c fs) (part : gs.Sublist fs) :
    s.operandsOf c gs = gs ∧ ¬ s.Decided c gs := by
  have constant (g : Formula) (member : g ∈ gs) : g ≠ c.neutral ∧ g ≠ c.absorbing := by
    have proper := (operands.proper g (part.subset member)).1
    rwa [Bool.eq_false_iff, Ne, isConstant_iff c, not_or] at proper
  have flat (g : Formula) (member : g ∈ gs) : s.flatten c g = [g] :=
    flatten_self (constant g member).1 (operands.proper g (part.subset member)).2
  have same : s.operandsOf c gs = gs := by
    rw [operandsOf, List.flatMap_congr flat, List.flatMap_singleton']
    exact firstOccurrences_of_nodup (part.nodup operands.distinct) (by simp)
  constructor
  · exact same
  · rintro (absorbing | clash)
    · exact (constant _ absorbing).2 rfl
    · rw [same, clashing_iff] at clash
      obtain ⟨f, hf, g, hg, l, left, right⟩ := clash
      exact operands.compatible f (part.subset hf) g (part.subset hg) l left right

theorem junction_operands (operands : Operands s.node c fs) :
    s.junction c fs = s.intern (c.node fs) := by
  obtain ⟨same, undecided⟩ := operandsOf_part operands (List.Sublist.refl fs)
  obtain ⟨absorbing, clash⟩ := not_or.mp undecided
  rw [same] at clash
  rw [junction_eq, same, if_neg (by simpa using absorbing), if_neg clash]
  have many := operands.many
  rcases fs with _ | ⟨f, _ | ⟨g, fs⟩⟩
  · simp at many
  · simp at many
  · rfl

/-- The result of a junction: the absorbing constant if it is decided, and otherwise a formula
with exactly the operands. -/
structure Joined (s : Store) (c : Connective) (fs : List Formula) (g : Formula) (s' : Store) :
    Prop where
  later : Extends s s'
  wellFormed : s'.WellFormed
  mem : g ∈ s'
  decided : s.Decided c fs → g = c.absorbing
  flatten_eq : ¬ s.Decided c fs → s'.flatten c g = s.operandsOf c fs

theorem WellFormed.junction_joined (wf : s.WellFormed) (known : ∀ f ∈ fs, f ∈ s) :
    Joined s c fs (s.junction c fs).1 (s.junction c fs).2 := by
  have proper {o : Formula} (operand : o ∈ s.operandsOf c fs) :
      o ∈ s ∧ o ≠ c.neutral ∧ (∀ gs, s.node o ≠ c.node gs) ∧ (o = c.absorbing → o ∈ fs) := by
    obtain ⟨f, hf, ho⟩ := mem_operandsOf.mp operand
    obtain ⟨member, neutral, other, absorbing⟩ := wf.flatten_proper (known f hf) ho
    exact ⟨member, neutral, other, fun h => by rw [h, ← absorbing h]; exact hf⟩
  rw [junction_eq]
  split
  · rename_i absorbing
    have decided : s.Decided c fs := .inl (List.contains_iff_mem.mp absorbing)
    exact ⟨Extends.refl s, wf, wf.absorbing_mem c, fun _ => rfl, absurd decided⟩
  rename_i noAbsorbing
  split
  · rename_i clash
    have decided : s.Decided c fs := .inr clash
    exact ⟨Extends.refl s, wf, wf.absorbing_mem c, fun _ => rfl, absurd decided⟩
  rename_i noClash
  have undecided : ¬ s.Decided c fs := by
    rintro (h | h)
    · exact noAbsorbing (List.contains_iff_mem.mpr h)
    · exact noClash h
  split
  · rename_i none
    exact ⟨Extends.refl s, wf, wf.neutral_mem c, fun h => absurd h undecided, fun _ => by
      rw [none, flatten_neutral]⟩
  · rename_i f one
    obtain ⟨member, neutral, other, _⟩ := proper (o := f) (by simp [one])
    exact ⟨Extends.refl s, wf, member, fun h => absurd h undecided, fun _ => by
      rw [one, flatten_self neutral other]⟩
  · rename_i several single
    have canonical : (c.node (s.operandsOf c fs)).Canonical s.node := by
      have operands : Operands s.node c (s.operandsOf c fs) := by
        refine ⟨?_, nodup_firstOccurrences _ _, fun o ho => ?_, fun f hf g hg l left right => ?_⟩
        · match h : s.operandsOf c fs with
          | [] => exact absurd h several
          | [f] => exact absurd h (single f)
          | _ :: _ :: _ => simp
        · obtain ⟨_, neutral, other, absorbing⟩ := proper ho
          refine ⟨Bool.eq_false_iff.mpr fun h => ?_, other⟩
          rcases (isConstant_iff c).mp h with h | h
          · exact neutral h
          · exact undecided (.inl (h ▸ absorbing h))
        · exact undecided (.inr ((s.clashing_iff _).mpr ⟨f, hf, g, hg, l, left, right⟩))
      cases c <;> exact operands
    have interned := intern_interned wf (n := c.node (s.operandsOf c fs))
      (fun o ho => (proper (by rwa [Connective.node_children] at ho)).1) canonical
    exact ⟨interned.later, interned.wellFormed, interned.mem, fun h => absurd h undecided,
      fun _ => interned.wellFormed.flatten_node interned.node_eq⟩

theorem Joined.eval_eq (joined : Joined s c fs g s') (wf : s.WellFormed)
    (known : ∀ f ∈ fs, f ∈ s) (value : Var → Bool) :
    s'.eval value g = c.holds (s.eval value) fs := by
  by_cases decided : s.Decided c fs
  · rw [joined.decided decided, joined.wellFormed.eval_absorbing, wf.holds_of_decided decided]
  · rw [← joined.wellFormed.holds_flatten c value g, joined.flatten_eq decided,
      ← wf.holds_operandsOf]
    apply Connective.holds_congr
    intro o ho
    obtain ⟨f, hf, flat⟩ := mem_operandsOf.mp ho
    exact joined.later.eval_eq (wf.flatten_proper (known f hf) flat).1 value

theorem WellFormed.not_decided (wf : s.WellFormed) {value : Var → Bool}
    (true_ : ∀ f ∈ fs, s.eval value f = true) : ¬ s.Decided .conj fs := by
  intro decided
  obtain ⟨f, hf, false_⟩ := Connective.holds_eq_deciding.mp (wf.holds_of_decided decided value)
  cases (true_ f hf).symm.trans false_

theorem Joined.mem_conjuncts (joined : Joined s .conj fs g s') (wf : s.WellFormed)
    {value : Var → Bool} (true_ : ∀ f ∈ fs, s.eval value f = true) {o : Formula} :
    o ∈ s'.flatten .conj g ↔ ∃ f ∈ fs, o ∈ s.flatten .conj f := by
  rw [joined.flatten_eq (wf.not_decided true_)]
  exact mem_operandsOf

theorem Joined.vars_subset (joined : Joined s c fs g s') (wf : s.WellFormed)
    (known : ∀ f ∈ fs, f ∈ s) {v : Var} (mentioned : v ∈ s'.vars g) :
    ∃ f ∈ fs, v ∈ s.vars f := by
  by_cases decided : s.Decided c fs
  · rw [joined.decided decided,
      joined.wellFormed.vars_constant ((isConstant_iff c).mpr (.inr rfl))] at mentioned
    simp at mentioned
  · obtain ⟨o, ho, inside⟩ := (joined.wellFormed.mem_vars_flatten joined.mem c v).mp mentioned
    rw [joined.flatten_eq decided] at ho
    obtain ⟨f, hf, flat⟩ := mem_operandsOf.mp ho
    rw [joined.later.vars_eq (wf.flatten_proper (known f hf) flat).1] at inside
    exact ⟨f, hf, (wf.mem_vars_flatten (known f hf) c v).mpr ⟨o, flat, inside⟩⟩

end Store

end ModelCounting
