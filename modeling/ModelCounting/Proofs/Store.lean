import Mathlib.Logic.Relation
import ModelCounting.Formula.Query

/-!
Histories of a store. A store only grows: a formula keeps its node, so its value and variables
are the same in every later store. Every store that a history reaches is well formed: equal nodes
have equal handles, and every node is in the form that the constructors give it.
-/

namespace ModelCounting

instance : Membership Formula Store := ⟨fun s f => f.id < s.size⟩

/-- Operands of a junction as the constructors leave them. -/
structure Operands (node : Formula → Node) (c : Connective) (fs : List Formula) : Prop where
  many : 2 ≤ fs.length
  distinct : fs.Nodup
  proper : ∀ f ∈ fs, f.isConstant = false ∧ ∀ gs, node f ≠ c.node gs
  compatible : ∀ f ∈ fs, ∀ g ∈ fs, ∀ l, node f = .lit l → node g ≠ .lit (-l)

namespace Node

/-- The codes that fit a literal word. -/
def wordLimit : Nat := 0x100000000

def isCompound : Node → Bool
  | .and _ | .or _ | .implies .. | .equiv .. => true
  | _ => false

/-- A node that none of the simplifications applies to, given the nodes of its operands. -/
def Canonical (node : Formula → Node) : Node → Prop
  | .falsum | .verum => True
  | .lit l => l.code < wordLimit
  | .not f => (node f).isCompound = true
  | .and fs => Operands node .conj fs
  | .or fs => Operands node .disj fs
  | .implies f g => f ≠ g ∧ f.isConstant = false ∧ g.isConstant = false
  | .equiv f g => f ≠ g ∧ f.isConstant = false ∧ g.isConstant = false ∧
      ∀ l, node f = .lit l → node g ≠ .lit (-l)

theorem eval_congr {value : Var → Bool} {sub sub' : Formula → Bool} (n : Node)
    (agree : ∀ c ∈ n.children, sub c = sub' c) : n.eval value sub = n.eval value sub' := by
  cases n with
  | falsum | verum | lit => rfl
  | not f => simp only [eval, agree f (by simp [children])]
  | and fs =>
    rw [eval, eval, Bool.eq_iff_iff, List.all_eq_true, List.all_eq_true]
    exact forall₂_congr fun c child => by rw [agree c child]
  | or fs =>
    rw [eval, eval, Bool.eq_iff_iff, List.any_eq_true, List.any_eq_true]
    exact exists_congr fun c => and_congr_right fun child => by rw [agree c child]
  | implies f g | equiv f g =>
    simp only [eval, agree f (by simp [children]), agree g (by simp [children])]

theorem isNnf_congr {sub sub' : Formula → Bool} (n : Node)
    (agree : ∀ c ∈ n.children, sub c = sub' c) : n.isNnf sub = n.isNnf sub' := by
  cases n with
  | falsum | verum | lit | not | implies | equiv => rfl
  | and fs | or fs =>
    rw [isNnf, isNnf, Bool.eq_iff_iff, List.all_eq_true, List.all_eq_true]
    exact forall₂_congr fun c child => by rw [agree c child]

theorem canonical_congr {node node' : Formula → Node} (n : Node)
    (agree : ∀ c ∈ n.children, node c = node' c) (canonical : n.Canonical node) :
    n.Canonical node' := by
  have operands {c : Connective} {fs : List Formula} (same : ∀ f ∈ fs, node f = node' f)
      (h : Operands node c fs) : Operands node' c fs := by
    refine ⟨h.many, h.distinct, fun f hf => ?_, fun f hf g hg l => ?_⟩
    · rw [← same f hf]
      exact h.proper f hf
    · rw [← same f hf, ← same g hg]
      exact h.compatible f hf g hg l
  cases n with
  | falsum | verum | lit | implies => exact canonical
  | not f => simpa only [Canonical, agree f (by simp [children])] using canonical
  | and fs => exact operands agree canonical
  | or fs => exact operands agree canonical
  | equiv f g =>
    simpa only [Canonical, agree f (by simp [children]), agree g (by simp [children])]
      using canonical

end Node

/-! Ascending lists of variables. -/

theorem mem_mergeVars {v : Var} (vs ws : List Var) :
    v ∈ mergeVars vs ws ↔ v ∈ vs ∨ v ∈ ws := by
  fun_induction mergeVars vs ws with
  | case1 ws => simp
  | case2 v vs => simp
  | case3 u vs w ws _ ih =>
    simp only [List.mem_cons, ih]
    grind
  | case4 u vs w ws _ _ ih =>
    simp only [List.mem_cons, ih]
    grind
  | case5 u vs w ws below above ih =>
    have same : u = w := by
      cases u
      cases w
      simp only [Var.mk.injEq] at *
      omega
    simp only [List.mem_cons, ih, same]
    grind

def Ascending (vs : List Var) : Prop := vs.Pairwise fun v w => v.id < w.id

theorem ascending_mergeVars {vs ws : List Var} (hv : Ascending vs) (hw : Ascending ws) :
    Ascending (mergeVars vs ws) := by
  fun_induction mergeVars vs ws with
  | case1 ws => exact hw
  | case2 v vs => exact hv
  | case3 u vs w ws below ih =>
    have hu := List.pairwise_cons.mp hv
    refine List.pairwise_cons.mpr ⟨fun x hx => ?_, ih hu.2 hw⟩
    rcases (mem_mergeVars vs (w :: ws)).mp hx with hx | hx
    · exact hu.1 x hx
    · rcases List.mem_cons.mp hx with rfl | hx
      · exact below
      · exact Nat.lt_trans below ((List.pairwise_cons.mp hw).1 x hx)
  | case4 u vs w ws _ below ih =>
    have hw' := List.pairwise_cons.mp hw
    refine List.pairwise_cons.mpr ⟨fun x hx => ?_, ih hv hw'.2⟩
    rcases (mem_mergeVars (u :: vs) ws).mp hx with hx | hx
    · rcases List.mem_cons.mp hx with rfl | hx
      · exact below
      · exact Nat.lt_trans below ((List.pairwise_cons.mp hv).1 x hx)
    · exact hw'.1 x hx
  | case5 u vs w ws notBelow notAbove ih =>
    have hu := List.pairwise_cons.mp hv
    have hw' := List.pairwise_cons.mp hw
    refine List.pairwise_cons.mpr ⟨fun x hx => ?_, ih hu.2 hw'.2⟩
    rcases (mem_mergeVars vs ws).mp hx with hx | hx
    · exact hu.1 x hx
    · have := hw'.1 x hx
      omega

namespace Store

variable {s s' s'' : Store} {f g : Formula}

theorem mem_iff : f ∈ s ↔ f.id < s.size := Iff.rfl

theorem child_mem (known : f ∈ s) {c : Formula} (child : c ∈ (s.node f).children) : c ∈ s :=
  Nat.lt_trans (s.child_lt child) known

/-! Folds over a formula. -/

def Local {α : Type} (rule : (Formula → α) → Node → α) : Prop :=
  ∀ n sub sub', (∀ c ∈ n.children, sub c = sub' c) → rule sub n = rule sub' n

theorem fold_node {α : Type} [Inhabited α] {rule : (Formula → α) → Node → α}
    (nearby : Local rule) (s : Store) (f : Formula) :
    s.fold rule f = rule (s.fold rule) (s.node f) := by
  rw [fold]
  apply nearby
  intro c child
  rw [dif_pos (s.child_lt child)]

theorem eval_node (s : Store) (value : Var → Bool) (f : Formula) :
    s.eval value f = (s.node f).eval value (s.eval value) :=
  fold_node (fun n _ _ agree => n.eval_congr agree) s f

theorem isNnf_node (s : Store) (f : Formula) : s.isNnf f = (s.node f).isNnf s.isNnf :=
  fold_node (fun n _ _ agree => n.isNnf_congr agree) s f

/-! Growth. -/

structure Extends (s s' : Store) : Prop where
  size_le : s.size ≤ s'.size
  entry_eq : ∀ f ∈ s, s'.entry f = s.entry f

theorem Extends.refl (s : Store) : Extends s s := ⟨Nat.le_refl _, fun _ _ => rfl⟩

theorem Extends.mem (later : Extends s s') (known : f ∈ s) : f ∈ s' :=
  Nat.lt_of_lt_of_le known later.size_le

theorem Extends.trans (first : Extends s s') (second : Extends s' s'') : Extends s s'' :=
  ⟨Nat.le_trans first.size_le second.size_le, fun f known =>
    (second.entry_eq f (first.mem known)).trans (first.entry_eq f known)⟩

theorem Extends.node_eq (later : Extends s s') (known : f ∈ s) : s'.node f = s.node f :=
  congrArg Entry.node (later.entry_eq f known)

theorem Extends.vars_eq (later : Extends s s') (known : f ∈ s) : s'.vars f = s.vars f :=
  congrArg Entry.vars (later.entry_eq f known)

theorem Extends.fold_eq {α : Type} [Inhabited α] {rule : (Formula → α) → Node → α}
    (nearby : Local rule) (later : Extends s s') (known : f ∈ s) :
    s'.fold rule f = s.fold rule f := by
  induction h : f.id using Nat.strongRecOn generalizing f with
  | ind k ih =>
    rw [fold_node nearby, fold_node nearby, later.node_eq known]
    apply nearby
    intro c child
    exact ih c.id (h ▸ s.child_lt child) (child_mem known child) rfl

theorem Extends.eval_eq (later : Extends s s') (known : f ∈ s) (value : Var → Bool) :
    s'.eval value f = s.eval value f :=
  later.fold_eq (fun n _ _ agree => n.eval_congr agree) known

theorem Extends.isNnf_eq (later : Extends s s') (known : f ∈ s) : s'.isNnf f = s.isNnf f :=
  later.fold_eq (fun n _ _ agree => n.isNnf_congr agree) known

/-! Well-formed stores. -/

structure WellFormed (s : Store) : Prop where
  size_two : 2 ≤ s.size
  node_falsum : s.node .falsum = .falsum
  node_verum : s.node .verum = .verum
  /-- The table of handles is the inverse of the list of nodes. -/
  handle_iff : ∀ n f, s.handles[n]? = some f ↔ f ∈ s ∧ s.node f = n
  canonical : ∀ f ∈ s, (s.node f).Canonical s.node
  vars_eq : ∀ f ∈ s, s.vars f = s.varsOf (s.node f)

namespace WellFormed

theorem falsum_mem (wf : s.WellFormed) : Formula.falsum ∈ s := Nat.lt_of_lt_of_le (by decide) wf.size_two

theorem verum_mem (wf : s.WellFormed) : Formula.verum ∈ s := Nat.lt_of_lt_of_le (by decide) wf.size_two

theorem node_inj (wf : s.WellFormed) (hf : f ∈ s) (hg : g ∈ s) (same : s.node f = s.node g) :
    f = g := by
  have one := (wf.handle_iff (s.node g) f).mpr ⟨hf, same⟩
  have two := (wf.handle_iff (s.node g) g).mpr ⟨hg, rfl⟩
  exact Option.some.inj (one.symm.trans two)

theorem eq_falsum (wf : s.WellFormed) (known : f ∈ s) (shape : s.node f = .falsum) : f = .falsum :=
  wf.node_inj known wf.falsum_mem (shape.trans wf.node_falsum.symm)

theorem eq_verum (wf : s.WellFormed) (known : f ∈ s) (shape : s.node f = .verum) : f = .verum :=
  wf.node_inj known wf.verum_mem (shape.trans wf.node_verum.symm)

@[simp] theorem eval_falsum (wf : s.WellFormed) (value : Var → Bool) :
    s.eval value .falsum = false := by
  rw [eval_node, wf.node_falsum]
  rfl

@[simp] theorem eval_verum (wf : s.WellFormed) (value : Var → Bool) :
    s.eval value .verum = true := by
  rw [eval_node, wf.node_verum]
  rfl

end WellFormed

/-! Variables. -/

theorem varsOf_congr (n : Node) (agree : ∀ c ∈ n.children, s'.vars c = s.vars c) :
    s'.varsOf n = s.varsOf n := by
  have union (fs : List Formula) (same : ∀ c ∈ fs, s'.vars c = s.vars c) (vs : List Var) :
      fs.foldl (fun vs c => mergeVars vs (s'.vars c)) vs =
        fs.foldl (fun vs c => mergeVars vs (s.vars c)) vs := by
    induction fs generalizing vs with
    | nil => rfl
    | cons c fs ih =>
      simp only [List.foldl_cons, same c (by simp)]
      exact ih (fun d hd => same d (List.mem_cons_of_mem c hd)) _
  cases n with
  | lit l => rfl
  | falsum | verum | not | and | or | implies | equiv => exact union _ agree []

theorem mem_foldl_mergeVars (s : Store) (fs : List Formula) (vs : List Var) {v : Var} :
    v ∈ fs.foldl (fun vs c => mergeVars vs (s.vars c)) vs ↔ v ∈ vs ∨ ∃ c ∈ fs, v ∈ s.vars c := by
  induction fs generalizing vs with
  | nil => simp
  | cons c fs ih =>
    simp only [List.foldl_cons, ih, mem_mergeVars, List.mem_cons, or_assoc, or_and_right, exists_or,
      exists_eq_left]

theorem mem_varsOf (s : Store) {n : Node} (v : Var) :
    v ∈ s.varsOf n ↔ (∃ l, n = .lit l ∧ l.var = v) ∨ ∃ c ∈ n.children, v ∈ s.vars c := by
  cases n with
  | lit l => simp [varsOf, Node.children, eq_comm]
  | falsum | verum | not | and | or | implies | equiv =>
    simp only [varsOf, mem_foldl_mergeVars]
    simp

theorem WellFormed.mem_vars (wf : s.WellFormed) (known : f ∈ s) (v : Var) :
    v ∈ s.vars f ↔ (∃ l, s.node f = .lit l ∧ l.var = v) ∨ ∃ c ∈ (s.node f).children, v ∈ s.vars c := by
  rw [wf.vars_eq f known, mem_varsOf]

theorem WellFormed.vars_child (wf : s.WellFormed) (known : f ∈ s) {c : Formula}
    (child : c ∈ (s.node f).children) {v : Var} (mentioned : v ∈ s.vars c) : v ∈ s.vars f :=
  (wf.mem_vars known v).mpr (.inr ⟨c, child, mentioned⟩)

theorem WellFormed.ascending_vars (wf : s.WellFormed) (known : f ∈ s) : Ascending (s.vars f) := by
  induction h : f.id using Nat.strongRecOn generalizing f with
  | ind k ih =>
    have union (fs : List Formula) (below : ∀ c ∈ fs, Ascending (s.vars c)) (vs : List Var)
        (start : Ascending vs) :
        Ascending (fs.foldl (fun vs c => mergeVars vs (s.vars c)) vs) := by
      induction fs generalizing vs with
      | nil => exact start
      | cons c fs step =>
        exact step (fun d hd => below d (List.mem_cons_of_mem c hd)) _
          (ascending_mergeVars start (below c (by simp)))
    have below : ∀ c ∈ (s.node f).children, Ascending (s.vars c) := fun c child =>
      ih c.id (h ▸ s.child_lt child) (child_mem known child) rfl
    rw [wf.vars_eq f known]
    cases shape : s.node f with
    | lit l => simp [varsOf, Ascending]
    | falsum | verum | not | and | or | implies | equiv =>
      rw [shape] at below
      exact union _ below [] List.Pairwise.nil

theorem WellFormed.nodup_vars (wf : s.WellFormed) (known : f ∈ s) : (s.vars f).Nodup :=
  (wf.ascending_vars known).imp fun below same => by simp [same] at below

theorem WellFormed.eval_congr (wf : s.WellFormed) (known : f ∈ s) {value value' : Var → Bool}
    (agree : ∀ v ∈ s.vars f, value v = value' v) : s.eval value f = s.eval value' f := by
  induction h : f.id using Nat.strongRecOn generalizing f with
  | ind k ih =>
    have below : ∀ c ∈ (s.node f).children, s.eval value c = s.eval value' c := fun c child =>
      ih c.id (h ▸ s.child_lt child) (child_mem known child)
        (fun v mentioned => agree v (wf.vars_child known child mentioned)) rfl
    rw [eval_node, eval_node, Node.eval_congr _ below]
    cases shape : s.node f with
    | lit l =>
      have := agree l.var ((wf.mem_vars known l.var).mpr (.inl ⟨l, shape, rfl⟩))
      simp only [Node.eval, Lit.holds, this]
    | falsum | verum | not | and | or | implies | equiv => rfl

theorem WellFormed.mem_vars_of_depends (wf : s.WellFormed) (known : f ∈ s) {v : Var}
    {value value' : Var → Bool} (same : ∀ w, w ≠ v → value w = value' w)
    (differ : s.eval value f ≠ s.eval value' f) : v ∈ s.vars f := by
  by_cases mentioned : v ∈ s.vars f
  · exact mentioned
  · refine absurd (wf.eval_congr known fun w member => same w fun here => ?_) differ
    exact mentioned (here ▸ member)

theorem WellFormed.var_lt (wf : s.WellFormed) (known : f ∈ s) {v : Var} (mentioned : v ∈ s.vars f) :
    2 * v.id + 1 < Node.wordLimit := by
  induction h : f.id using Nat.strongRecOn generalizing f with
  | ind k ih =>
    rcases (wf.mem_vars known v).mp mentioned with ⟨l, shape, rfl⟩ | ⟨c, child, below⟩
    · have word := wf.canonical f known
      rw [shape] at word
      simp only [Node.Canonical, Node.wordLimit] at word
      simp only [Lit.var, Node.wordLimit]
      omega
    · exact ih c.id (h ▸ s.child_lt child) (child_mem known child) below rfl

/-! Interning. -/

structure Interned (s : Store) (n : Node) (f : Formula) (s' : Store) : Prop where
  later : Extends s s'
  wellFormed : s'.WellFormed
  mem : f ∈ s'
  node_eq : s'.node f = n

theorem entry_push (s : Store) (e : Entry) (f : Formula) :
    (s.entries.push e).getD f.id ⟨.falsum, []⟩ = if f.id = s.size then e else s.entry f := by
  simp only [Array.getD_eq_getD_getElem?, Array.getElem?_push, entry, size]
  split <;> rfl

theorem intern_interned (wf : s.WellFormed) {n : Node} (known : ∀ c ∈ n.children, c ∈ s)
    (canonical : n.Canonical s.node) : Interned s n (s.intern n).1 (s.intern n).2 := by
  unfold intern
  split
  · rename_i f found
    obtain ⟨present, shape⟩ := (wf.handle_iff n f).mp found
    exact ⟨Extends.refl s, wf, present, shape⟩
  · rename_i missing
    have closed : ∀ c ∈ n.children, c.id < s.entries.size := known
    rw [dif_pos closed]
    dsimp only
    generalize grown : Store.mk _ _ _ _ _ = s'
    have entry_eq (f : Formula) : s'.entry f = if f.id = s.size then ⟨n, s.varsOf n⟩ else s.entry f := by
      subst grown
      exact entry_push s _ f
    have size_eq : s'.size = s.size + 1 := by
      subst grown
      simp [size]
    have handles_eq : s'.handles = s.handles.insert n ⟨s.size⟩ := by
      subst grown
      rfl
    have later : Extends s s' :=
      ⟨by omega, fun f present => by rw [entry_eq, if_neg (Nat.ne_of_lt present)]⟩
    have top_mem : (⟨s.size⟩ : Formula) ∈ s' := Nat.lt_of_lt_of_eq (Nat.lt_succ_self s.size) size_eq.symm
    have top : s'.node ⟨s.size⟩ = n := by simp [node, entry_eq]
    have mem_cases (f : Formula) (present : f ∈ s') : f ∈ s ∨ f = ⟨s.size⟩ := by
      have bound : f.id < s.size + 1 := size_eq ▸ present
      rcases Nat.lt_succ_iff_lt_or_eq.mp bound with h | h
      · exact .inl h
      · exact .inr (by cases f; simpa using h)
    refine ⟨later, ⟨by have := wf.size_two; omega, ?_, ?_, ?_, ?_, ?_⟩, top_mem, top⟩
    · rw [later.node_eq wf.falsum_mem, wf.node_falsum]
    · rw [later.node_eq wf.verum_mem, wf.node_verum]
    · intro m f
      rw [handles_eq, Std.TreeMap.getElem?_insert]
      by_cases same : n = m
      · subst same
        rw [if_pos Std.ReflOrd.compare_self, Option.some.injEq]
        constructor
        · rintro rfl
          exact ⟨top_mem, top⟩
        · rintro ⟨present, shape⟩
          rcases mem_cases f present with old | rfl
          · rw [later.node_eq old] at shape
            exact absurd ((wf.handle_iff n f).mpr ⟨old, shape⟩) (by simp [missing])
          · rfl
      · rw [if_neg (mt Std.LawfulEqOrd.eq_of_compare same), wf.handle_iff]
        constructor
        · rintro ⟨old, shape⟩
          exact ⟨later.mem old, (later.node_eq old).trans shape⟩
        · rintro ⟨present, shape⟩
          rcases mem_cases f present with old | rfl
          · exact ⟨old, (later.node_eq old).symm.trans shape⟩
          · exact absurd (top.symm.trans shape) same
    · intro f present
      rcases mem_cases f present with old | rfl
      · rw [later.node_eq old]
        exact (s.node f).canonical_congr
          (fun c child => (later.node_eq (child_mem old child)).symm) (wf.canonical f old)
      · rw [top]
        exact n.canonical_congr (fun c child => (later.node_eq (known c child)).symm) canonical
    · intro f present
      rcases mem_cases f present with old | rfl
      · rw [later.vars_eq old, later.node_eq old, wf.vars_eq f old]
        exact (varsOf_congr _ fun c child => later.vars_eq (child_mem old child)).symm
      · rw [top, varsOf_congr n fun c child => later.vars_eq (known c child)]
        simp [vars, entry_eq]

end Store

end ModelCounting
