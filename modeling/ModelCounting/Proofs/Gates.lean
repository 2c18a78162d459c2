import Mathlib.Data.Set.Card
import ModelCounting.Proofs.NormalForm
import ModelCounting.Proofs.Search.Requests
import ModelCounting.Satisfiability

/-!
The encoding by gates. Where the clauses hold, a gate that is true stands for a true formula: of the
definition of a gate only this direction is written down. Conversely every valuation of the formula
variables extends to one in which the clauses hold and every gate has the value of its formula. Both
are kept by each formula that is encoded, and hold of all gates at once, so that gates can be shared.
-/

namespace ModelCounting

namespace Store

variable {s : Store} {f g h : Formula}

/-- The formulas that a formula is built of, itself among them. -/
def parts (s : Store) (f : Formula) : Set Formula :=
  {g | Relation.ReflTransGen (fun g h => h ∈ (s.node g).children) f g}

theorem self_parts (s : Store) (f : Formula) : f ∈ s.parts f := .refl

theorem parts_child (child : g ∈ (s.node f).children) (part : h ∈ s.parts g) : h ∈ s.parts f :=
  .head child part

theorem parts_le (part : g ∈ s.parts f) : g.id ≤ f.id := by
  induction part with
  | refl => exact Nat.le_refl _
  | tail _ child le => exact Nat.le_trans (Nat.le_of_lt (s.child_lt child)) le

theorem finite_parts (s : Store) (f : Formula) : (s.parts f).Finite := by
  refine (((Set.finite_Iic f.id).image Formula.mk).subset ?_)
  intro g part
  exact ⟨g.id, parts_le part, rfl⟩

end Store

namespace GateEncoding

variable {s : Store} {Γ Δ : List (List Lit)} {e e' : GateEncoding} {f g : Formula} {l out : Lit}
  {ls : List Lit} {fs : List Formula} {value σ : Var → Bool}

/-- The solver variables of the formula variables take their values. -/
def Agrees (e : GateEncoding) (value σ : Var → Bool) : Prop :=
  ∀ v i : Var, e.vars[v]? = some i → σ i = value v

/-- The clauses given to the solver define the gates. -/
structure Encodes (s : Store) (Γ : List (List Lit)) (e : GateEncoding) : Prop where
  available : e.solver.Available Γ
  settings : e.solver.settings = {}
  clauses : ∀ c ∈ Γ, ∀ l ∈ c, l.var.id < e.solver.varCount
  numbers : ∀ v i : Var, e.vars[v]? = some i → i.id < e.solver.varCount
  outputs : ∀ (f : Formula) (l : Lit), e.gates[f]? = some l → l.var.id < e.solver.varCount
  /-- Each solver variable stands for a formula. -/
  used : ∀ n < e.solver.varCount, ∃ (f : Formula) (l : Lit), e.gates[f]? = some l ∧ l.var.id = n
  sound : ∀ value σ, e.Agrees value σ → Models σ Γ →
    ∀ (f : Formula) (l : Lit), e.gates[f]? = some l → l.holds σ = true → s.eval value f = true
  complete : ∀ value, ∃ σ, e.Agrees value σ ∧ Models σ Γ ∧
    ∀ (f : Formula) (l : Lit), e.gates[f]? = some l → l.holds σ = s.eval value f

theorem Encodes.empty (s : Store) : Encodes s [] {} where
  available := .fresh {}
  settings := rfl
  clauses := by simp
  numbers v i here := by simp at here
  outputs f l here := by simp at here
  used n below := absurd below (Nat.not_lt_zero n)
  sound value σ _ _ f l here := by simp at here
  complete value := ⟨value, fun v i here => by simp at here, fun c member => by simp at member,
    fun f l here => by simp at here⟩

theorem Encodes.varCount_le (good : Encodes s Γ e) {parts : Set Formula} (finite : parts.Finite)
    (within : ∀ g : Formula, g ∉ parts → e.gates[g]? = none) :
    e.solver.varCount ≤ parts.ncard := by
  choose! formula lit stands same using good.used
  have injective : Set.InjOn formula (Finset.range e.solver.varCount) := by
    intro n below m below' equal
    rw [Finset.mem_coe, Finset.mem_range] at below below'
    have here := stands n below
    rw [equal, stands m below'] at here
    rw [← same n below, ← same m below', Option.some.inj here]
  have inside : ∀ n ∈ (Finset.range e.solver.varCount : Set Nat), formula n ∈ parts := by
    intro n below
    by_contra outside
    have here := stands n (Finset.mem_range.mp (Finset.mem_coe.mp below))
    rw [within _ outside] at here
    cases here
  have count := Set.ncard_le_ncard_of_injOn formula inside injective finite
  rwa [Set.ncard_coe_finset, Finset.card_range] at count

/-! New gates. -/

theorem gate_insert {gates : Std.TreeMap Formula Lit} {m : Lit}
    (here : (gates.insert f l)[g]? = some m) : (g = f ∧ m = l) ∨ (g ≠ f ∧ gates[g]? = some m) := by
  rw [Std.TreeMap.getElem?_insert] at here
  split at here
  · rename_i same
    exact .inl ⟨(Std.LawfulEqOrd.eq_of_compare same).symm, (Option.some.inj here).symm⟩
  · rename_i other
    exact .inr ⟨fun same => other (Std.compare_eq_iff_eq.mpr same.symm), here⟩

theorem gate_insert_of_ne {gates : Std.TreeMap Formula Lit} (other : g ≠ f) :
    (gates.insert f l)[g]? = gates[g]? := by
  rw [Std.TreeMap.getElem?_insert, if_neg (fun same => other (Std.LawfulEqOrd.eq_of_compare same).symm)]

theorem holds_update {n : Nat} {b : Bool} (below : l.var.id < n) :
    l.holds (Function.update σ ⟨n⟩ b) = l.holds σ := by
  have other : l.var ≠ ⟨n⟩ := fun same => Nat.ne_of_lt below (congrArg Var.id same)
  unfold Lit.holds
  rw [Function.update_of_ne other]

/-- A formula for whose literal the solver has a variable already. -/
theorem Encodes.known (good : Encodes s Γ e) (shape : s.node f = .lit l)
    {i : Var} (numbered : e.vars[l.var]? = some i) (fresh : e.gates[f]? = none) :
    Encodes s Γ { e with gates := e.gates.insert f (Lit.of i l.phase) } := by
  have value_eq {value σ : Var → Bool} (agrees : e.Agrees value σ) :
      (Lit.of i l.phase).holds σ = s.eval value f := by
    rw [Store.eval_node, shape]
    simp only [Node.eval, Lit.holds, Lit.var_of, Lit.phase_of, agrees _ _ numbered]
  refine ⟨good.available, good.settings, good.clauses, good.numbers, fun g m here => ?_,
    fun n below => ?_, fun value σ agrees models g m here => ?_, fun value => ?_⟩
  · rcases gate_insert here with ⟨rfl, rfl⟩ | ⟨_, old⟩
    · rw [Lit.var_of]
      exact good.numbers _ _ numbered
    · exact good.outputs g m old
  · obtain ⟨g, m, here, same⟩ := good.used n below
    have other : g ≠ f := by
      rintro rfl
      rw [fresh] at here
      cases here
    exact ⟨g, m, (gate_insert_of_ne other).trans here, same⟩
  · rcases gate_insert here with ⟨rfl, rfl⟩ | ⟨_, old⟩
    · exact fun holds => (value_eq agrees).symm.trans holds
    · exact good.sound value σ agrees models g m old
  · obtain ⟨σ, agrees, models, gates⟩ := good.complete value
    refine ⟨σ, agrees, models, fun g m here => ?_⟩
    rcases gate_insert here with ⟨rfl, rfl⟩ | ⟨_, old⟩
    · exact value_eq agrees
    · exact gates g m old

/-- What a new solver variable is for: it is the output of a gate, perhaps that of a formula
variable, and the new clauses follow from the value of its formula. -/
structure Defines (s : Store) (Γ : List (List Lit)) (e : GateEncoding) (Δ : List (List Lit))
    (f : Formula) (out : Lit) (e' : GateEncoding) : Prop where
  fresh : e.gates[f]? = none
  available : e'.solver.Available Δ
  settings : e'.solver.settings = {}
  varCount_eq : e'.solver.varCount = e.solver.varCount + 1
  output : out.var = ⟨e.solver.varCount⟩
  gates_eq : e'.gates = e.gates.insert f out
  vars_keep : ∀ v i : Var, e.vars[v]? = some i → e'.vars[v]? = some i
  vars_new : ∀ v i : Var, e'.vars[v]? = some i → e.vars[v]? = some i ∨
    (i = out.var ∧ ∀ value, out.phase = (s.eval value f == value v))
  keeps : ∀ c ∈ Γ, c ∈ Δ
  inside : ∀ c ∈ Δ, c ∈ Γ ∨ ∀ l ∈ c, l.var.id < e'.solver.varCount
  sound : ∀ value σ, e'.Agrees value σ → Models σ Δ → out.holds σ = true → s.eval value f = true
  complete : ∀ value σ, e.Agrees value σ → (∀ (g : Formula) (m : Lit), e.gates[g]? = some m → m.holds σ = s.eval value g) →
    out.holds σ = s.eval value f → ∀ c ∈ Δ, c ∈ Γ ∨ Holds σ c

/-- A valuation under which the gates have the values of their formulas extends to the new one. -/
theorem Encodes.extend (good : Encodes s Γ e) (defines : Defines s Γ e Δ f out e')
    (value : Var → Bool) : ∃ σ, e'.Agrees value σ ∧ Models σ Δ ∧
      ∀ (g : Formula) (m : Lit), e'.gates[g]? = some m → m.holds σ = s.eval value g := by
  obtain ⟨σ, agrees, models, gates⟩ := good.complete value
  -- The new variable takes the value that makes its literal that of the formula.
  generalize extended : Function.update σ ⟨e.solver.varCount⟩ (out.phase == s.eval value f) = τ
  have self : τ ⟨e.solver.varCount⟩ = (out.phase == s.eval value f) := by
    rw [← extended, Function.update_self]
  have old {m : Lit} (below : m.var.id < e.solver.varCount) : m.holds τ = m.holds σ := by
    rw [← extended]
    exact holds_update below
  have agrees' : e.Agrees value τ := fun v i here => by
    have other : i ≠ ⟨e.solver.varCount⟩ := fun same =>
      Nat.ne_of_lt (good.numbers v i here) (congrArg Var.id same)
    rw [← extended, Function.update_of_ne other]
    exact agrees v i here
  have gates' (g : Formula) (m : Lit) (here : e.gates[g]? = some m) : m.holds τ = s.eval value g :=
    (old (good.outputs g m here)).trans (gates g m here)
  have output : out.holds τ = s.eval value f := by
    unfold Lit.holds
    rw [defines.output, self]
    cases out.phase <;> cases s.eval value f <;> rfl
  refine ⟨τ, fun v i here => ?_, fun c member => ?_, fun g m here => ?_⟩
  · rcases defines.vars_new v i here with old | ⟨rfl, phase⟩
    · exact agrees' v i old
    · rw [defines.output, self, phase value]
      cases value v <;> cases s.eval value f <;> rfl
  · rcases defines.complete value τ agrees' gates' output c member with older | holds
    · obtain ⟨l, inner, true_⟩ := models c older
      exact ⟨l, inner, (old (good.clauses c older l inner)).trans true_⟩
    · exact holds
  · rw [defines.gates_eq] at here
    rcases gate_insert here with ⟨rfl, rfl⟩ | ⟨_, before⟩
    · exact output
    · exact gates' g m before

theorem Encodes.define (good : Encodes s Γ e) (defines : Defines s Γ e Δ f out e') :
    Encodes s Δ e' := by
  have count := defines.varCount_eq
  refine ⟨defines.available, defines.settings, fun c member l inner => ?_, fun v i here => ?_,
    fun g m here => ?_, fun n below => ?_,
    fun value σ agrees models g m here => ?_, good.extend defines⟩
  · rcases defines.inside c member with old | inside
    · have := good.clauses c old l inner
      omega
    · exact inside l inner
  · rcases defines.vars_new v i here with old | ⟨rfl, _⟩
    · have := good.numbers v i old
      omega
    · rw [defines.output]
      simp only
      omega
  · rw [defines.gates_eq] at here
    rcases gate_insert here with ⟨rfl, rfl⟩ | ⟨_, old⟩
    · rw [defines.output]
      simp only
      omega
    · have := good.outputs g m old
      omega
  · rw [defines.gates_eq]
    rcases Nat.lt_or_eq_of_le (Nat.le_of_lt_succ (count ▸ below)) with old | rfl
    · obtain ⟨g, m, here, same⟩ := good.used n old
      have other : g ≠ f := by
        rintro rfl
        rw [defines.fresh] at here
        cases here
      exact ⟨g, m, (gate_insert_of_ne other).trans here, same⟩
    · exact ⟨f, out, by simp, by rw [defines.output]⟩
  · rw [defines.gates_eq] at here
    rcases gate_insert here with ⟨rfl, rfl⟩ | ⟨_, old⟩
    · exact defines.sound value σ agrees models
    · exact good.sound value σ (fun v i here => agrees v i (defines.vars_keep v i here))
        (fun c member => models c (defines.keeps c member)) g m old

/-! The encoder. -/

theorem addClauses_delivers {cs : List (List Lit)} (available : e.solver.Available Γ)
    (inside : ∀ c ∈ cs, ∀ l ∈ c, l.var.id < e.solver.varCount) :
    Delivers (cs.foldlM addClause e) fun e' => ∃ Δ, e'.solver.Available Δ ∧
      (∀ c, c ∈ Δ ↔ c ∈ cs ∨ c ∈ Γ) ∧ e'.solver.varCount = e.solver.varCount ∧
        e'.solver.settings = e.solver.settings ∧ e'.vars = e.vars ∧ e'.gates = e.gates := by
  induction cs generalizing e Γ with
  | nil => exact .pure ⟨Γ, available, by simp, rfl, rfl, rfl, rfl⟩
  | cons c cs ih =>
    rw [List.foldlM_cons]
    have added : Delivers (e.addClause c) fun e' => e'.solver.Available (c :: Γ) ∧
        e'.solver.varCount = e.solver.varCount ∧ e'.solver.settings = e.solver.settings ∧
          e'.vars = e.vars ∧ e'.gates = e.gates :=
      (available.addClause (inside c List.mem_cons_self)).bind
        fun x _ ⟨available, count, settings⟩ => .pure ⟨available, count, settings, rfl, rfl⟩
    refine added.bind fun e₁ _ ⟨available₁, count₁, settings₁, vars₁, gates₁⟩ => ?_
    refine (ih available₁ fun d member l inner => ?_).mono ?_
    · exact count₁ ▸ inside d (List.mem_cons_of_mem _ member) l inner
    · rintro e' ⟨Δ, available', members, count, settings, vars, gates⟩
      refine ⟨Δ, available', fun d => ?_, count.trans count₁, settings.trans settings₁,
        vars.trans vars₁, gates.trans gates₁⟩
      rw [members d, List.mem_cons, List.mem_cons]
      tauto

/-- A gate whose clauses say that its output implies its formula. -/
theorem Encodes.junction (good : Encodes s Γ e) (cs : Lit → List (List Lit))
    (fresh : e.gates[f]? = none)
    (output : Lit.of ⟨e.solver.varCount⟩ true = out)
    (inside : ∀ c ∈ cs out, ∀ l ∈ c, l = -out ∨ l.var.id < e.solver.varCount)
    (sound : ∀ value σ, e.Agrees value σ → Models σ Γ → Models σ (cs out) → out.holds σ = true →
      s.eval value f = true)
    (complete : ∀ value σ,
      (∀ (g : Formula) (m : Lit), e.gates[g]? = some m → m.holds σ = s.eval value g) →
        out.holds σ = s.eval value f → Models σ (cs out)) :
    Delivers (do
        let (out, e) ← e.gate
        let e ← (cs out).foldlM addClause e
        return (out, e)) fun x => x.2.gates = e.gates ∧
          ∃ Δ, Encodes s Δ { x.2 with gates := x.2.gates.insert f x.1 } := by
  have created : Delivers e.gate fun x => x.1 = out ∧ x.2.solver.Available Γ ∧
      x.2.solver.varCount = e.solver.varCount + 1 ∧ x.2.solver.settings = {} ∧
        x.2.vars = e.vars ∧ x.2.gates = e.gates := by
    refine good.available.newVar.bind fun ⟨v, solver⟩ _ ⟨available, new, count, settings⟩ => .pure ?_
    simp only at new
    exact ⟨new ▸ output, available, count, settings.trans good.settings, rfl, rfl⟩
  have out_var : out.var = ⟨e.solver.varCount⟩ := by
    rw [← output, Lit.var_of]
  refine created.bind fun ⟨out', e₁⟩ _ ⟨same, available₁, count₁, settings₁, vars₁, gates₁⟩ => ?_
  simp only at same available₁ count₁ settings₁ vars₁ gates₁ ⊢
  rw [same]
  have inside₁ (c : List Lit) (member : c ∈ cs out) (l : Lit) (inner : l ∈ c) :
      l.var.id < e₁.solver.varCount := by
    rw [count₁]
    rcases inside c member l inner with rfl | below
    · rw [Lit.var_neg, out_var]
      exact Nat.lt_succ_self _
    · exact Nat.lt_succ_of_lt below
  refine (addClauses_delivers available₁ inside₁).bind ?_
  rintro e₂ - ⟨Δ, available₂, members, count₂, settings₂, vars₂, gates₂⟩
  have vars : e₂.vars = e.vars := vars₂.trans vars₁
  refine .pure ⟨gates₂.trans gates₁, Δ, good.define ⟨fresh, available₂,
    settings₂.trans settings₁, count₂.trans count₁, out_var, ?_, ?_, ?_,
    fun c old => (members c).mpr (.inr old), fun c here => ?_, ?_, fun value σ _ gates output' c here => ?_⟩⟩
  · exact congrArg (·.insert f out) (gates₂.trans gates₁)
  · exact fun v i here => vars ▸ here
  · exact fun v i here => .inl (vars ▸ here)
  · rcases (members c).mp here with new | old
    · refine .inr fun l inner => ?_
      have below := inside₁ c new l inner
      exact Nat.lt_of_lt_of_eq below count₂.symm
    · exact .inl old
  · intro value σ agrees models
    exact sound value σ (fun v i here => agrees v i (vars.symm ▸ here))
      (fun c old => models c ((members c).mpr (.inr old)))
      fun c new => models c ((members c).mpr (.inl new))
  · exact ((members c).mp here).symm.imp_right (complete value σ gates output' c)

def Stands (e : GateEncoding) (fs : List Formula) (ls : List Lit) : Prop :=
  List.Forall₂ (fun (g : Formula) l => e.gates[g]? = some l) fs ls

theorem Encodes.inside_operands (good : Encodes s Γ e) (stands : e.Stands fs ls) (inner : l ∈ ls) :
    l.var.id < e.solver.varCount := by
  obtain ⟨g, _, here⟩ := forall₂_mem_right stands l inner
  exact good.outputs g l here

/-- A gate for a conjunction implies every operand. -/
theorem Encodes.conj (good : Encodes s Γ e)
    (shape : s.node f = .and fs) (fresh : e.gates[f]? = none) (stands : e.Stands fs ls) :
    Delivers (do
        let (out, e) ← e.gate
        let e ← ls.foldlM (fun e l => e.addClause [-out, l]) e
        return (out, e)) fun x => x.2.gates = e.gates ∧
          ∃ Δ, Encodes s Δ { x.2 with gates := x.2.gates.insert f x.1 } := by
  have eval (value : Var → Bool) : s.eval value f = fs.all (s.eval value) := by
    rw [Store.eval_node, shape]
    rfl
  generalize output : Lit.of ⟨e.solver.varCount⟩ true = out
  have defined := good.junction (fun out => ls.map fun l => [-out, l]) fresh output
    (fun c member l inner => ?_) (fun value σ agrees models new true_ => ?_)
    (fun value σ gates output' c member => ?_)
  · simpa only [List.foldlM_map] using defined
  · obtain ⟨m, inner', rfl⟩ := List.mem_map.mp member
    rcases List.mem_cons.mp inner with rfl | inner
    · exact .inl rfl
    · rw [List.mem_singleton.mp inner]
      exact .inr (good.inside_operands stands inner')
  · rw [eval, List.all_eq_true]
    intro g inner
    obtain ⟨l, literal, here⟩ := forall₂_mem_left stands g inner
    obtain ⟨m, within, holds⟩ := new _ (List.mem_map.mpr ⟨l, literal, rfl⟩)
    rcases List.mem_cons.mp within with rfl | within
    · rw [Store.holds_neg, true_] at holds
      cases holds
    · rw [List.mem_singleton.mp within] at holds
      exact good.sound value σ agrees models g l here holds
  · obtain ⟨l, literal, rfl⟩ := List.mem_map.mp member
    obtain ⟨g, inner, here⟩ := forall₂_mem_right stands l literal
    cases true_ : s.eval value f with
    | false => exact ⟨-out, by simp, by rw [Store.holds_neg, output', true_]; rfl⟩
    | true =>
      rw [eval, List.all_eq_true] at true_
      exact ⟨l, by simp, (gates g l here).trans (true_ g inner)⟩

/-- A gate for a disjunction implies that some operand holds. -/
theorem Encodes.disj (good : Encodes s Γ e)
    (shape : s.node f = .or fs) (fresh : e.gates[f]? = none) (stands : e.Stands fs ls) :
    Delivers (do
        let (out, e) ← e.gate
        let e ← e.addClause (ls ++ [-out])
        return (out, e)) fun x => x.2.gates = e.gates ∧
          ∃ Δ, Encodes s Δ { x.2 with gates := x.2.gates.insert f x.1 } := by
  have eval (value : Var → Bool) : s.eval value f = fs.any (s.eval value) := by
    rw [Store.eval_node, shape]
    rfl
  generalize output : Lit.of ⟨e.solver.varCount⟩ true = out
  have defined := good.junction (fun out => [ls ++ [-out]]) fresh output
    (fun c member l inner => ?_) (fun value σ agrees models new true_ => ?_)
    (fun value σ gates output' c member => ?_)
  · simpa only [List.foldlM_cons, List.foldlM_nil, bind_pure] using defined
  · rw [List.mem_singleton.mp member] at inner
    rcases List.mem_append.mp inner with inner | inner
    · exact .inr (good.inside_operands stands inner)
    · exact .inl (List.mem_singleton.mp inner)
  · obtain ⟨l, within, holds⟩ := new _ List.mem_cons_self
    rcases List.mem_append.mp within with within | within
    · obtain ⟨g, inner, here⟩ := forall₂_mem_right stands l within
      rw [eval, List.any_eq_true]
      exact ⟨g, inner, good.sound value σ agrees models g l here holds⟩
    · rw [List.mem_singleton.mp within, Store.holds_neg, true_] at holds
      cases holds
  · rw [List.mem_singleton.mp member]
    cases true_ : s.eval value f with
    | false => exact ⟨-out, by simp, by rw [Store.holds_neg, output', true_]; rfl⟩
    | true =>
      rw [eval, List.any_eq_true] at true_
      obtain ⟨g, inner, holds⟩ := true_
      obtain ⟨l, literal, here⟩ := forall₂_mem_left stands g inner
      exact ⟨l, List.mem_append_left _ literal, (gates g l here).trans holds⟩

theorem var_delivers {v : Var} (available : e.solver.Available Γ) (new : e.vars[v]? = none) :
    Delivers (e.var v) fun x => x.1 = ⟨e.solver.varCount⟩ ∧ x.2.solver.Available Γ ∧
      x.2.solver.varCount = e.solver.varCount + 1 ∧ x.2.solver.settings = e.solver.settings ∧
        x.2.vars = e.vars.insert v ⟨e.solver.varCount⟩ ∧ x.2.gates = e.gates := by
  unfold var
  rw [new]
  refine available.newVar.bind fun ⟨i, solver⟩ _ ⟨available', number, count, settings⟩ => .pure ?_
  exact ⟨number, available', count, settings, congrArg (e.vars.insert v) number, rfl⟩

/-- The literal of a formula that is one, with its variable. -/
theorem Encodes.literal (good : Encodes s Γ e)
    (shape : s.node f = .lit l) (fresh : e.gates[f]? = none) :
    Delivers (do
        let (v, e) ← e.var l.var
        return (Lit.of v l.phase, e)) fun x => x.2.gates = e.gates ∧
          ∃ Δ, Encodes s Δ { x.2 with gates := x.2.gates.insert f x.1 } := by
  have eval (value : Var → Bool) : s.eval value f = (value l.var == l.phase) := by
    rw [Store.eval_node, shape]
    rfl
  cases numbered : e.vars[l.var]? with
  | some i =>
    unfold var
    rw [numbered]
    exact .ok ⟨rfl, Γ, good.known shape numbered fresh⟩
  | none =>
    refine (var_delivers good.available numbered).bind ?_
    rintro ⟨_, e₁⟩ - ⟨rfl, available, count, settings, vars_eq, gates_eq⟩
    simp only at available count settings vars_eq gates_eq
    have here : e₁.vars[l.var]? = some ⟨e.solver.varCount⟩ := by
      rw [vars_eq]
      simp
    have insert (v : Var) : e₁.vars[v]? = if l.var = v then some ⟨e.solver.varCount⟩ else e.vars[v]? := by
      simp only [vars_eq, Std.TreeMap.getElem?_insert, Std.compare_eq_iff_eq]
    refine .pure ⟨gates_eq, Γ, good.define ⟨fresh, available, settings.trans good.settings,
      count, Lit.var_of _ l.phase, ?_, fun v i known => ?_,
      fun v i known => ?_, fun c old => old,
      fun c old => .inl old, fun value σ agrees _ true_ => ?_, fun value σ _ _ _ c old => .inl old⟩⟩
    · exact congrArg (fun gates : Std.TreeMap Formula Lit => gates.insert f _) gates_eq
    · have other : l.var ≠ v := by
        rintro rfl
        rw [numbered] at known
        cases known
      exact (insert v).trans ((if_neg other).trans known)
    · have known : e₁.vars[v]? = some i := known
      rw [insert v] at known
      split at known
      · rename_i same
        refine .inr ⟨(Option.some.inj known).symm.trans (Lit.var_of _ _).symm, fun value => ?_⟩
        rw [eval, same, Lit.phase_of]
        cases value v <;> cases l.phase <;> rfl
      · exact .inl known
    · have value_eq : σ ⟨e.solver.varCount⟩ = value l.var := agrees l.var _ here
      rw [eval, ← value_eq]
      simpa [Lit.holds] using true_

/-! Whole formulas. -/

def encodeAll (s : Store) (fs : List Formula) (start : List Lit × GateEncoding) :
    Except Fault (List Lit × GateEncoding) :=
  fs.foldlM (fun x g => do
    let (l, e) ← encode s g x.2
    return (x.1 ++ [l], e)) start

/-- Encodes a node after its operands. -/
def encodeNode (s : Store) (e : GateEncoding) : Node → Except Fault (Lit × GateEncoding)
  | .lit l => do
    let (v, e) ← e.var l.var
    return (Lit.of v l.phase, e)
  | .and fs => do
    let (ls, e) ← encodeAll s fs ([], e)
    let (out, e) ← e.gate
    let e ← ls.foldlM (fun e l => e.addClause [-out, l]) e
    return (out, e)
  | .or fs => do
    let (ls, e) ← encodeAll s fs ([], e)
    let (out, e) ← e.gate
    let e ← e.addClause (ls ++ [-out])
    return (out, e)
  | n => .error (.notNegationNormal n)

theorem encodeAll_attach (fs : List Formula) (start : List Lit × GateEncoding) :
    fs.attach.foldlM (fun x g => do
      let y ← encode s g.1 x.2
      (pure (x.1 ++ [y.1], y.2) : Except Fault (List Lit × GateEncoding))) start =
        encodeAll s fs start := by
  unfold encodeAll
  rw [List.foldlM_subtype (g := fun x g => do
    let (l, e) ← encode s g x.2
    return (x.1 ++ [l], e))]
  · rw [List.unattach_attach]
  · intros
    rfl

theorem encode_fresh (fresh : e.gates[f]? = none) :
    encode s f e = (do
      let (l, e) ← encodeNode s e (s.node f)
      return (l, { e with gates := e.gates.insert f l })) := by
  rw [encode]
  simp only [fresh]
  congr 1
  split
  · rename_i shape
    rw [shape]
    rfl
  · rename_i shape
    rw [shape]
    simp only [encodeNode, encodeAll_attach]
  · rename_i shape
    rw [shape]
    simp only [encodeNode, encodeAll_attach]
  · cases shape : s.node f <;> simp_all [encodeNode]

structure Adds (e : GateEncoding) (bound : Formula → Prop) (e' : GateEncoding) : Prop where
  keeps : ∀ (g : Formula) (m : Lit), e.gates[g]? = some m → e'.gates[g]? = some m
  within : ∀ g : Formula, ¬ bound g → e'.gates[g]? = e.gates[g]?

theorem Adds.trans {e'' : GateEncoding} {bound bound' : Formula → Prop} (first : e.Adds bound e')
    (second : e'.Adds bound' e'') : e.Adds (fun g => bound g ∨ bound' g) e'' where
  keeps g m here := second.keeps g m (first.keeps g m here)
  within g outside := (second.within g fun h => outside (.inr h)).trans
    (first.within g fun h => outside (.inl h))

theorem Adds.mono {bound bound' : Formula → Prop} (adds : e.Adds bound e')
    (wider : ∀ g, bound g → bound' g) : e.Adds bound' e' where
  keeps := adds.keeps
  within g outside := adds.within g fun h => outside (wider g h)

structure Encoded (s : Store) (e : GateEncoding) (f : Formula) (x : Lit × GateEncoding) : Prop where
  good : ∃ Δ, Encodes s Δ x.2
  gate : x.2.gates[f]? = some x.1
  adds : e.Adds (· ∈ s.parts f) x.2

theorem encodeAll_delivers {acc : List Lit} (good : Encodes s Γ e)
    (each : ∀ g ∈ fs, ∀ Γ e, Encodes s Γ e → Delivers (encode s g e) (Encoded s e g)) :
    Delivers (encodeAll s fs (acc, e)) fun x => (∃ Δ, Encodes s Δ x.2) ∧
      (∃ ls, x.1 = acc ++ ls ∧ x.2.Stands fs ls) ∧ e.Adds (fun g => ∃ h ∈ fs, g ∈ s.parts h) x.2 := by
  unfold encodeAll
  induction fs generalizing e Γ acc with
  | nil => exact .pure ⟨⟨Γ, good⟩, ⟨[], by simp, .nil⟩, ⟨fun _ _ h => h, fun _ _ => rfl⟩⟩
  | cons f fs ih =>
    rw [List.foldlM_cons]
    have first : Delivers (do
          let (l, e) ← encode s f e
          return (acc ++ [l], e)) fun y : List Lit × GateEncoding =>
        ∃ l, Encoded s e f (l, y.2) ∧ y.1 = acc ++ [l] :=
      (each f List.mem_cons_self Γ e good).bind fun x _ encoded => .pure ⟨x.1, encoded, rfl⟩
    refine first.bind ?_
    rintro ⟨_, e₁⟩ - ⟨l, ⟨⟨Δ, good₁⟩, gate, adds⟩, rfl⟩
    refine (ih good₁ fun g member => each g (List.mem_cons_of_mem _ member)).mono ?_
    rintro ⟨_, e₂⟩ ⟨good₂, ⟨ls, rfl, stands⟩, adds₂⟩
    refine ⟨good₂, ⟨l :: ls, by simp, .cons (adds₂.keeps f l gate) stands⟩,
      (adds.trans adds₂).mono fun g => ?_⟩
    rintro (le | ⟨h, member, le⟩)
    · exact ⟨f, List.mem_cons_self, le⟩
    · exact ⟨h, List.mem_cons_of_mem _ member, le⟩

theorem Adds.congr {bound : Formula → Prop} {e'' : GateEncoding} (adds : e.Adds bound e')
    (gates : e''.gates = e'.gates) : e.Adds bound e'' :=
  ⟨fun g m here => gates ▸ adds.keeps g m here, fun g outside => gates ▸ adds.within g outside⟩

/-- A node is encoded if its operands are; its own literal is still to be noted. -/
theorem Encodes.node {n : Node} (good : Encodes s Γ e) (wf : s.WellFormed) (member : f ∈ s)
    (shape : s.node f = n) (normal : s.isNnf f = true) (proper : f.isConstant = false) (fresh : e.gates[f]? = none)
    (each : ∀ g, g.id < f.id → g ∈ s → s.isNnf g = true → g.isConstant = false →
      ∀ Γ e, Encodes s Γ e → Delivers (encode s g e) (Encoded s e g)) :
    Delivers (encodeNode s e n) fun x => e.Adds (fun g => ∃ h ∈ (s.node f).children, g ∈ s.parts h) x.2 ∧
      ∃ Δ, Encodes s Δ { x.2 with gates := x.2.gates.insert f x.1 } := by
  rw [s.isNnf_node, shape] at normal
  have operands {c : Connective} {fs : List Formula} (shape : s.node f = c.node fs)
      (normal : fs.all s.isNnf = true) :
      Delivers (encodeAll s fs ([], e)) fun x => (∃ Δ, Encodes s Δ x.2) ∧ x.2.Stands fs x.1 ∧
        e.Adds (fun g => ∃ h ∈ (s.node f).children, g ∈ s.parts h) x.2 ∧ x.2.gates[f]? = none := by
    have child (g : Formula) (inner : g ∈ fs) : g ∈ (s.node f).children := by
      rwa [shape, c.node_children]
    have below (g : Formula) (inner : g ∈ fs) : g.id < f.id := s.child_lt (child g inner)
    refine (encodeAll_delivers good fun g inner => each g (below g inner)
      (Store.child_mem member (child g inner)) (List.all_eq_true.mp normal g inner)
      ((wf.operands_of_node member shape).proper g inner).1).mono ?_
    rintro ⟨_, e₁⟩ ⟨encodes, ⟨ls, rfl, stands⟩, adds⟩
    refine ⟨encodes, stands, adds.mono fun g => ?_, (adds.within f ?_).trans fresh⟩
    · rintro ⟨h, inner, part⟩
      exact ⟨h, child h inner, part⟩
    · rintro ⟨h, inner, part⟩
      exact absurd (below h inner) (Nat.not_lt_of_le (Store.parts_le part))
  cases n with
  | lit l =>
    exact (good.literal shape fresh).mono fun x ⟨gates, encodes⟩ =>
      ⟨Adds.congr ⟨fun _ _ h => h, fun _ _ => rfl⟩ gates, encodes⟩
  | and fs =>
    refine (operands (c := .conj) shape normal).bind
      fun ⟨ls, e₁⟩ _ ⟨⟨Δ, good₁⟩, stands, adds, fresh₁⟩ => ?_
    exact (good₁.conj shape fresh₁ stands).mono fun x ⟨gates, encodes⟩ =>
      ⟨adds.congr gates, encodes⟩
  | or fs =>
    refine (operands (c := .disj) shape normal).bind
      fun ⟨ls, e₁⟩ _ ⟨⟨Δ, good₁⟩, stands, adds, fresh₁⟩ => ?_
    exact (good₁.disj shape fresh₁ stands).mono fun x ⟨gates, encodes⟩ =>
      ⟨adds.congr gates, encodes⟩
  | falsum =>
    rw [wf.eq_falsum member shape] at proper
    cases proper
  | verum =>
    rw [wf.eq_verum member shape] at proper
    cases proper
  | not | implies | equiv =>
    cases normal

/-- Every formula in negation normal form that is no constant is encoded. -/
theorem Encodes.encode (good : Encodes s Γ e) (wf : s.WellFormed) (member : f ∈ s)
    (normal : s.isNnf f = true) (proper : f.isConstant = false) :
    Delivers (encode s f e) (Encoded s e f) := by
  induction height : f.id using Nat.strongRecOn generalizing f e Γ with
  | ind n ih =>
    cases fresh : e.gates[f]? with
    | some l =>
      rw [GateEncoding.encode]
      simp only [fresh]
      exact .ok ⟨⟨Γ, good⟩, fresh, fun _ _ h => h, fun _ _ => rfl⟩
    | none =>
      rw [encode_fresh fresh]
      refine (good.node wf member rfl normal proper fresh fun g below member' normal' proper' Γ' e' good' =>
        ih g.id (height ▸ below) good' member' normal' proper' rfl).bind ?_
      rintro ⟨l, e₁⟩ - ⟨adds, encodes⟩
      refine .pure ⟨encodes, by simp, fun g m here => ?_, fun g above => ?_⟩
      · have other : g ≠ f := by
          rintro rfl
          rw [fresh] at here
          cases here
        exact (gate_insert_of_ne other).trans (adds.keeps g m here)
      · have other : g ≠ f := fun same => above (same ▸ s.self_parts f)
        refine (gate_insert_of_ne other).trans (adds.within g ?_)
        rintro ⟨h, child, part⟩
        exact above (Store.parts_child child part)

end GateEncoding

end ModelCounting
