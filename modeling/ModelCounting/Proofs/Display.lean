import ModelCounting.Formula.Text
import ModelCounting.Proofs.Brackets
import ModelCounting.Proofs.Sharing

/-!
Reading the text of a formula. The mark of the connective tells the form of the node, and splits the text
into those of the operands. Since the constructors nest no junction in one of its kind and negate no
literal, and no two variables have one name, the text of a formula is the text of no other.
-/

namespace ModelCounting

namespace Store

variable {s s' : Store} {f g : Formula} {n : Node}

/-! Texts as characters. -/

def looser (s : Store) (n : Node) (g : Formula) : Bool :=
  (s.node g).strength < n.strength ∨ n.strength < 2 ∧ (s.node g).strength = n.strength

/-- The characters of one node, given those of its operands. -/
def layoutNode (s : Store) (sub : Formula → List Char) (n : Node) : List Char :=
  let operand (g : Formula) := wrap (s.looser n g) (sub g)
  match n with
  | .falsum => ['$', 'f', 'a', 'l', 's', 'e']
  | .verum => ['$', 't', 'r', 'u', 'e']
  | .lit l => (if l.negated then ['~'] else []) ++ (s.names.getD l.var.id "").toList
  | .not g => '~' :: operand g
  | .and fs => [' ', '&', ' '].intercalate (fs.map operand)
  | .or fs => [' ', '|', ' '].intercalate (fs.map operand)
  | .implies f g => (operand f ++ [' ', '=']) ++ '>' :: (' ' :: operand g)
  | .equiv f g => (operand f ++ [' ']) ++ '<' :: (['=', '>', ' '] ++ operand g)

def layout (s : Store) (f : Formula) : List Char := s.fold s.layoutNode f

theorem layoutNode_congr {sub sub' : Formula → List Char} (n : Node)
    (agree : ∀ c ∈ n.children, sub c = sub' c) : s.layoutNode sub n = s.layoutNode sub' n := by
  cases n with
  | falsum | verum | lit => rfl
  | not g => simp only [layoutNode, agree g (by simp [Node.children])]
  | and fs | or fs =>
    simp only [layoutNode]
    rw [List.map_congr_left fun g member => by rw [agree g member]]
  | implies f g | equiv f g =>
    simp only [layoutNode, agree f (by simp [Node.children]), agree g (by simp [Node.children])]

theorem layout_node (s : Store) (f : Formula) : s.layout f = s.layoutNode s.layout (s.node f) :=
  fold_node (fun n _ _ agree => layoutNode_congr n agree) s f

theorem renderNode_eq {sub : Formula → Except Fault String} {sub' : Formula → List Char}
    (each : ∀ g ∈ n.children, sub g = .ok (String.ofList (sub' g)))
    (named : ∀ l, n = .lit l → l.var.id < s.names.size) :
    s.renderNode sub n = .ok (String.ofList (s.layoutNode sub' n)) := by
  unfold renderNode
  extract_lets operand
  have written (strict : Bool) (same : strict = decide (n.strength < 2)) (g : Formula)
      (child : g ∈ n.children) :
      operand strict g = .ok (String.ofList (wrap (s.looser n g) (sub' g))) := by
    simp only [operand, each g child, wrap, looser, same, decide_eq_true_eq]
    by_cases loose : (s.node g).strength < n.strength ∨
      n.strength < 2 ∧ (s.node g).strength = n.strength
    · simp only [loose, if_true]
      exact congrArg Except.ok (String.toList_inj.mp (by simp [bracketed]))
    · simp only [loose, if_false]
      rfl
  have several (gs : List Formula) (loose : false = decide (n.strength < 2))
      (children : ∀ g ∈ gs, g ∈ n.children) : gs.mapM (operand false) =
      .ok (gs.map fun g => String.ofList (wrap (s.looser n g) (sub' g))) := by
    refine mapM_of_forall₂ (List.forall₂_map_right_iff.mpr (List.forall₂_same.mpr fun g member => ?_))
    exact written false loose g (children g member)
  have made {t : String} {x : List Char} (same : t.toList = x) :
      (.ok t : Except Fault String) = .ok (String.ofList x) :=
    congrArg Except.ok (String.toList_inj.mp (by rw [same, String.toList_ofList]))
  clear_value operand
  cases n with
  | falsum | verum => rfl
  | lit l =>
    have here := Array.getElem?_eq_getElem (named l rfl)
    simp only [name, here]
    refine made ?_
    simp only [layoutNode, Array.getD_eq_getD_getElem?, here, Option.getD_some]
    split <;> simp
  | not g =>
    simp only [written false rfl g (by simp [Node.children])]
    exact made (by simp [layoutNode])
  | and fs | or fs =>
    simp only [several fs rfl fun _ child => child]
    exact made (by simp [layoutNode, String.toList_intercalate, Function.comp_def])
  | implies f g | equiv f g =>
    simp only [written true rfl f (by simp [Node.children]),
      written true rfl g (by simp [Node.children])]
    exact made (by simp [layoutNode])

/-- The variables of the formula have names. -/
def Declared (s : Store) (f : Formula) : Prop := ∀ v ∈ s.vars f, v.id < s.names.size

theorem Declared.child (declared : s.Declared f) (wf : s.WellFormed) (known : f ∈ s)
    (child : g ∈ (s.node f).children) : s.Declared g :=
  fun v mentioned => declared v (wf.vars_child known child mentioned)

theorem Declared.named (declared : s.Declared f) (wf : s.WellFormed) (known : f ∈ s) {l : Lit}
    (shape : s.node f = .lit l) : l.var.id < s.names.size :=
  declared l.var ((wf.mem_vars known l.var).mpr (.inl ⟨l, shape, rfl⟩))

theorem WellFormed.render_eq (wf : s.WellFormed) (known : f ∈ s) (declared : s.Declared f) :
    s.render f = .ok (String.ofList (s.layout f)) := by
  unfold render layout
  induction bound : f.id using Nat.strongRecOn generalizing f with
  | ind k ih =>
    rw [fold, fold]
    refine renderNode_eq (fun g child => ?_) fun l shape => declared.named wf known shape
    have below := s.child_lt child
    rw [dif_pos below, dif_pos below]
    exact ih g.id (bound ▸ below) (child_mem known child) (declared.child wf known child) rfl

/-! Names. -/

structure SameNames (s s' : Store) : Prop where
  names_eq : s'.names = s.names
  index_eq : s'.index = s.index

theorem SameNames.refl (s : Store) : SameNames s s := ⟨rfl, rfl⟩

theorem intern_names (s : Store) (n : Node) : SameNames s (s.intern n).2 := by
  unfold intern
  split
  · exact .refl s
  · split
    · exact ⟨rfl, rfl⟩
    · exact .refl s

theorem neg_names (s : Store) (f : Formula) : SameNames s (s.neg f).2 := by
  rcases s.neg_cases f with ⟨_, run⟩ | ⟨_, run⟩ | ⟨l, _, run⟩ | ⟨g, _, run⟩ | ⟨_, run⟩ <;> rw [run]
  · exact .refl s
  · exact .refl s
  · exact s.intern_names (.lit (-l))
  · exact .refl s
  · exact s.intern_names (.not f)

theorem junction_names (s : Store) (c : Connective) (fs : List Formula) :
    SameNames s (s.junction c fs).2 := by
  rw [junction_eq]
  split
  · exact .refl s
  split
  · exact .refl s
  split
  · exact .refl s
  · exact .refl s
  · exact s.intern_names _

theorem implies_names (s : Store) (f g : Formula) : SameNames s (s.implies f g).2 := by
  rcases s.implies_cases f g with ⟨_, run⟩ | ⟨_, run⟩ | ⟨_, run⟩ | ⟨_, _, _, run⟩ <;> rw [run]
  · exact .refl s
  · exact .refl s
  · exact s.neg_names f
  · exact s.intern_names (.implies f g)

theorem equiv_names (s : Store) (f g : Formula) : SameNames s (s.equiv f g).2 := by
  rcases s.equiv_cases f g with ⟨_, run⟩ | ⟨_, run⟩ | ⟨_, run⟩ | ⟨_, run⟩ | ⟨_, run⟩ | ⟨_, _, _, run⟩ |
    ⟨_, _, _, _, run⟩ <;> rw [run]
  · exact .refl s
  · exact .refl s
  · exact .refl s
  · exact s.neg_names g
  · exact s.neg_names f
  · exact .refl s
  · exact s.intern_names (.equiv f g)

def Indexed (s : Store) : Prop := ∀ i name, s.names[i]? = some name → s.index[name]? = some (⟨i⟩ : Var)

theorem Indexed.same (indexed : s.Indexed) (same : SameNames s s') : s'.Indexed := by
  unfold Indexed
  rw [same.names_eq, same.index_eq]
  exact indexed

theorem declare_new {name : String} (new : s.index[name]? = none) : (s.declare name).1 = ⟨s.names.size⟩ ∧
    (s.declare name).2.names = s.names.push name ∧
      (s.declare name).2.index = s.index.insert name ⟨s.names.size⟩ := by
  unfold declare
  rw [new]
  exact ⟨rfl, rfl, rfl⟩

theorem Indexed.declare (indexed : s.Indexed) (name : String) : (s.declare name).2.Indexed := by
  cases known : s.index[name]? with
  | some v =>
    unfold Store.declare
    rw [known]
    exact indexed
  | none =>
    obtain ⟨_, names, index⟩ := declare_new known
    intro i other here
    rw [names, Array.getElem?_push] at here
    rw [index, Std.TreeMap.getElem?_insert]
    split at here
    · rename_i last
      cases here
      simp [last]
    · have before := indexed i other here
      have differ : ¬ name = other := by
        rintro rfl
        cases known.symm.trans before
      simp [differ, before]

theorem Step.indexed (step : Step s s') (indexed : s.Indexed) : s'.Indexed := by
  cases step with
  | declare name => exact indexed.declare name
  | lit => exact indexed.same (s.intern_names _)
  | neg => exact indexed.same (s.neg_names _)
  | junction => exact indexed.same (s.junction_names _ _)
  | implies => exact indexed.same (s.implies_names _ _)
  | equiv => exact indexed.same (s.equiv_names _ _)

theorem Grows.indexed (grows : Grows s s') (indexed : s.Indexed) : s'.Indexed := by
  induction grows with
  | refl => exact indexed
  | tail _ step ih => exact step.indexed ih

theorem initial_indexed : initial.Indexed := by
  intro i name here
  simp [initial] at here

/-! What a text shows. -/

/-- The characters that are written beside the names. -/
def punctuation : List Char := tellers ++ [' ', '=', '~', '$']

/-- A name that is not empty and has no punctuation. -/
def Legible (name : String) : Prop := name ≠ "" ∧ ∀ c ∈ name.toList, c ∉ punctuation

theorem legible_of_word {name : String} (filled : name ≠ "")
    (word : name.toList.all (fun c => c.isAlphanum || c == '_') = true) : Legible name := by
  refine ⟨filled, fun c member told => ?_⟩
  have none : punctuation.all (fun c => !(c.isAlphanum || c == '_')) = true := rfl
  have refused := List.all_eq_true.mp none c told
  rw [List.all_eq_true.mp word c member] at refused
  cases refused

theorem strength_le (n : Node) : n.strength ≤ 4 := by
  cases n <;> simp [Node.strength]

theorem strength_of_isCompound (compound : n.isCompound = true) : n.strength < 4 := by
  cases n <;> simp [Node.isCompound, Node.strength] at compound ⊢

/-- A junction is no operand of one of its kind. -/
theorem WellFormed.strength_ne (wf : s.WellFormed) (known : f ∈ s) (child : g ∈ (s.node f).children)
    (connective : (s.node f).strength < 4) (tight : 2 ≤ (s.node f).strength) :
    (s.node g).strength ≠ (s.node f).strength := by
  have canonical := wf.canonical f known
  intro same
  cases shape : s.node f with
  | falsum | verum | lit | not => simp [shape, Node.strength] at connective
  | implies | equiv => simp [shape, Node.strength] at tight
  | and fs =>
    rw [shape] at canonical child same
    have other := (canonical.proper g child).2
    cases shape' : s.node g with
    | and gs => exact other gs shape'
    | _ => simp [shape', Node.strength] at same
  | or fs =>
    rw [shape] at canonical child same
    have other := (canonical.proper g child).2
    cases shape' : s.node g with
    | or gs => exact other gs shape'
    | _ => simp [shape', Node.strength] at same

theorem WellFormed.operand_tighter (wf : s.WellFormed) (known : f ∈ s)
    (child : g ∈ (s.node f).children) (connective : (s.node f).strength < 4) {x : List Char}
    (shows_ : Shows (s.node g).strength x) :
    Tighter ((s.node f).strength + 1) (wrap (s.looser (s.node f) g) x) := by
  unfold wrap
  split
  · exact shows_.tighter.bracketed
  · rename_i fits
    have apart := wf.strength_ne known child connective
    simp only [looser, decide_eq_true_eq] at fits
    exact shows_.tighter.mono (by omega)

/-- Nodes of one form. -/
inductive SameForm : Node → Node → Prop
  | falsum : SameForm .falsum .falsum
  | verum : SameForm .verum .verum
  | lit (l l' : Lit) : SameForm (.lit l) (.lit l')
  | not (a b : Formula) : SameForm (.not a) (.not b)
  | and (as bs : List Formula) : SameForm (.and as) (.and bs)
  | or (as bs : List Formula) : SameForm (.or as) (.or bs)
  | implies (a a' b b' : Formula) : SameForm (.implies a a') (.implies b b')
  | equiv (a a' b b' : Formula) : SameForm (.equiv a a') (.equiv b b')

def form : Node → Nat
  | .falsum => 0
  | .verum => 1
  | .not _ => 2
  | _ => 3

def lead : List Char → Nat
  | '$' :: 'f' :: _ => 0
  | '$' :: _ => 1
  | '~' :: '(' :: _ => 2
  | _ => 3

theorem sameForm_of_strength {n' : Node} (strength : n.strength = n'.strength)
    (lead : n.strength = 4 → form n = form n') : SameForm n n' := by
  cases n <;> cases n' <;>
    first
    | constructor
    | cases strength <;> cases lead rfl

theorem map_inj_of {as bs : List Formula} {w w' : Formula → List Char}
    (operand : ∀ a ∈ as, ∀ b ∈ bs, w a = w' b → a = b) (same : as.map w = bs.map w') : as = bs := by
  induction as generalizing bs with
  | nil => exact (List.map_eq_nil_iff.mp same.symm).symm
  | cons a as ih =>
    cases bs with
    | nil => cases same
    | cons b bs =>
      rw [List.map_cons, List.map_cons, List.cons.injEq] at same
      rw [operand a List.mem_cons_self b List.mem_cons_self same.1,
        ih (fun a ha b hb => operand a (List.mem_cons_of_mem _ ha) b (List.mem_cons_of_mem _ hb)) same.2]

theorem row_inj {as bs : List Formula} {w w' : Formula → List Char} (mark : Char)
    (proper : mark ≠ '(' ∧ mark ≠ ')' ∧ mark ≠ ' ') (many : 2 ≤ as.length) (many' : 2 ≤ bs.length)
    (operand : ∀ a ∈ as, ∀ b ∈ bs, w a = w' b → a = b) (each : ∀ a ∈ as, Closes mark 0 (w a))
    (each' : ∀ b ∈ bs, Closes mark 0 (w' b))
    (same : [' ', mark, ' '].intercalate (as.map w) = [' ', mark, ' '].intercalate (bs.map w')) :
    as = bs := by
  refine map_inj_of operand (intercalate_inj proper.1 proper.2.1 proper.2.2 ?_ ?_ ?_ ?_ same)
  · rintro none
    simp [List.map_eq_nil_iff.mp none] at many
  · rintro none
    simp [List.map_eq_nil_iff.mp none] at many'
  · simpa using each
  · simpa using each'

/-- Nodes of one form whose operands are told by how they are written, and do not show the mark of the
connective, are told by their texts. -/
theorem layoutNode_inj {n' : Node} (alike : SameForm n n') (canonical : n.Canonical s.node)
    (canonical' : n'.Canonical s.node)
    (operand : ∀ a ∈ n.children, ∀ b ∈ n'.children, ∀ loose loose',
      wrap loose (s.layout a) = wrap loose' (s.layout b) → a = b)
    (tight : n.strength < 4 → ∀ a ∈ n.children,
      Closes (markOf n.strength) 0 (wrap (s.looser n a) (s.layout a)))
    (tight' : n'.strength < 4 → ∀ b ∈ n'.children,
      Closes (markOf n'.strength) 0 (wrap (s.looser n' b) (s.layout b)))
    (literal : ∀ l l', n = .lit l → n' = .lit l' → l = l')
    (same : s.layoutNode s.layout n = s.layoutNode s.layout n') : n = n' := by
  cases alike with
  | falsum | verum => rfl
  | lit l l' => rw [literal l l' rfl rfl]
  | not a b =>
    rw [operand a (by simp [Node.children]) b (by simp [Node.children]) _ _ (List.tail_eq_of_cons_eq same)]
  | and as bs =>
    rw [row_inj '&' (by decide) canonical.many canonical'.many (fun a ha b hb => operand a ha b hb _ _)
      (tight (by simp [Node.strength])) (tight' (by simp [Node.strength])) same]
  | or as bs =>
    rw [row_inj '|' (by decide) canonical.many canonical'.many (fun a ha b hb => operand a ha b hb _ _)
      (tight (by simp [Node.strength])) (tight' (by simp [Node.strength])) same]
  | implies a a' b b' =>
    have space : Closes '>' 0 [' ', '='] := closes_of_plain (by simp)
    have left : Closes '>' 0 _ := tight (by simp [Node.strength]) a (by simp [Node.children])
    have left' : Closes '>' 0 _ := tight' (by simp [Node.strength]) b (by simp [Node.children])
    obtain ⟨first, second⟩ := (left.append space).split (by decide) (left'.append space) same
    rw [operand a (by simp [Node.children]) b (by simp [Node.children]) _ _
        (List.append_cancel_right first),
      operand a' (by simp [Node.children]) b' (by simp [Node.children]) _ _
        (List.tail_eq_of_cons_eq second)]
  | equiv a a' b b' =>
    have space : Closes '<' 0 [' '] := closes_of_plain (by simp)
    have left : Closes '<' 0 _ := tight (by simp [Node.strength]) a (by simp [Node.children])
    have left' : Closes '<' 0 _ := tight' (by simp [Node.strength]) b (by simp [Node.children])
    obtain ⟨first, second⟩ := (left.append space).split (by decide) (left'.append space) same
    rw [operand a (by simp [Node.children]) b (by simp [Node.children]) _ _
        (List.append_cancel_right first),
      operand a' (by simp [Node.children]) b' (by simp [Node.children]) _ _
        (List.append_cancel_left second)]

section Reading

variable (wf : s.WellFormed) (legible : ∀ name ∈ s.names, Legible name)

include wf legible

theorem WellFormed.name_cons (known : f ∈ s) (declared : s.Declared f) {l : Lit}
    (shape : s.node f = .lit l) : ∃ c x, (s.names.getD l.var.id "").toList = c :: x ∧
      ∀ d ∈ c :: x, d ∉ punctuation := by
  have inside := declared.named wf known shape
  have name : s.names.getD l.var.id "" = s.names[l.var.id] := by
    simp [Array.getD_eq_getD_getElem?, inside]
  obtain ⟨filled, plain⟩ := legible _ (Array.getElem_mem inside)
  rw [name]
  cases chars : s.names[l.var.id].toList with
  | nil => exact absurd (String.toList_inj.mp (chars.trans rfl)) filled
  | cons c x => exact ⟨c, x, rfl, chars ▸ plain⟩

/-- A text shows the mark of the connective of its formula. -/
theorem WellFormed.layout_shows (known : f ∈ s) (declared : s.Declared f) :
    Shows (s.node f).strength (s.layout f) := by
  induction bound : f.id using Nat.strongRecOn generalizing f with
  | ind k ih =>
    have sub (g : Formula) (child : g ∈ (s.node f).children) : Shows (s.node g).strength (s.layout g) :=
      ih g.id (bound ▸ s.child_lt child) (child_mem known child) (declared.child wf known child) rfl
    have operand (connective : (s.node f).strength < 4) (g : Formula)
        (child : g ∈ (s.node f).children) :=
      wf.operand_tighter known child connective (sub g child)
    have canonical := wf.canonical f known
    rw [layout_node]
    cases shape : s.node f with
    | falsum | verum => exact shows_plain (by simp [layoutNode, tellers])
    | lit l =>
      obtain ⟨c, x, chars, plain⟩ := wf.name_cons legible known declared shape
      refine shows_plain fun d member => ?_
      simp only [layoutNode, chars, List.mem_append] at member
      rcases member with member | member
      · split at member
        · rw [List.mem_singleton.mp member]
          decide
        · cases member
      · exact fun told => plain d member (List.mem_append_left _ told)
    | not g =>
      rw [shape] at canonical
      have loose : s.looser (.not g) g = true :=
        decide_eq_true (.inl (strength_of_isCompound canonical))
      have brackets : Tighter 4 (bracketed (s.layout g)) :=
        (sub g (by simp [shape, Node.children])).tighter.bracketed
      simp only [layoutNode, loose, wrap, if_true]
      exact ⟨(tighter_of_plain (x := ['~']) (by simp [tellers])).append brackets, nofun, by simp⟩
    | and fs =>
      rw [shape] at canonical operand
      refine shows_row (k := 3) (by decide) (by simpa using canonical.many) fun w member => ?_
      obtain ⟨g, child, rfl⟩ := List.mem_map.mp member
      exact operand (by simp [Node.strength]) g child
    | or fs =>
      rw [shape] at canonical operand
      refine shows_row (k := 2) (by decide) (by simpa using canonical.many) fun w member => ?_
      obtain ⟨g, child, rfl⟩ := List.mem_map.mp member
      exact operand (by simp [Node.strength]) g child
    | implies a b =>
      rw [shape] at operand
      have left := operand (by simp [Node.strength]) a (by simp [Node.children])
      have right := operand (by simp [Node.strength]) b (by simp [Node.children])
      exact shows_marked (k := 1) (by decide) (left.append (tighter_of_plain (by simp [tellers])))
        ((tighter_of_plain (x := [' ']) (by simp [tellers])).append (right.mono (Nat.le_succ 1)))
    | equiv a b =>
      rw [shape] at operand
      have left := operand (by simp [Node.strength]) a (by simp [Node.children])
      have right := operand (by simp [Node.strength]) b (by simp [Node.children])
      refine shows_marked (k := 0) (by decide) (left.append (tighter_of_plain (by simp [tellers]))) ?_
      refine Tighter.append ?_ (right.mono (Nat.zero_le 1))
      exact ⟨closes_of_plain (by simp), nofun⟩

theorem WellFormed.lead_layout (known : f ∈ s) (declared : s.Declared f)
    (atomic : (s.node f).strength = 4) : lead (s.layout f) = form (s.node f) := by
  have canonical := wf.canonical f known
  rw [layout_node]
  cases shape : s.node f with
  | falsum | verum => rfl
  | lit l =>
    obtain ⟨c, x, chars, plain⟩ := wf.name_cons legible known declared shape
    have ordinary := plain c List.mem_cons_self
    simp only [layoutNode, chars, form]
    simp only [punctuation, tellers, List.cons_append, List.nil_append, List.mem_cons, not_or] at ordinary
    split <;> unfold lead <;> split <;> simp_all
  | not g =>
    rw [shape] at canonical
    have loose : s.looser (.not g) g = true :=
      decide_eq_true (.inl (strength_of_isCompound canonical))
    simp only [layoutNode, loose, wrap, if_true]
    rfl
  | and | or | implies | equiv => simp [shape, Node.strength] at atomic

theorem WellFormed.lit_inj (indexed : s.Indexed) (hf : f ∈ s) (hg : g ∈ s) (df : s.Declared f)
    (dg : s.Declared g) {l l' : Lit} (shape : s.node f = .lit l) (shape' : s.node g = .lit l')
    (same : s.layoutNode s.layout (.lit l) = s.layoutNode s.layout (.lit l')) : l = l' := by
  obtain ⟨c, x, chars, plain⟩ := wf.name_cons legible hf df shape
  obtain ⟨c', x', chars', plain'⟩ := wf.name_cons legible hg dg shape'
  have head : c ≠ '~' := fun told => plain c List.mem_cons_self (told ▸ by decide)
  have head' : '~' ≠ c' := fun told => plain' c' List.mem_cons_self (told ▸ by decide)
  have both : l.phase = l'.phase ∧ c :: x = c' :: x' := by
    simp only [layoutNode, chars, chars', Lit.negated_eq] at same
    cases phase : l.phase <;> cases phase' : l'.phase <;> simp_all
  have inside := df.named wf hf shape
  have inside' := dg.named wf hg shape'
  have name : s.names[l.var.id] = s.names[l'.var.id] := by
    rw [← chars, ← chars', String.toList_inj] at both
    simpa [Array.getD_eq_getD_getElem?, inside, inside'] using both.2
  have here := indexed _ _ (Array.getElem?_eq_getElem inside)
  have there := indexed _ _ (Array.getElem?_eq_getElem inside')
  rw [name, there] at here
  exact Lit.ext_var_phase (Var.ext (congrArg Var.id (Option.some.inj here)).symm) both.1

/-- Formulas with one text are one formula. -/
theorem WellFormed.layout_inj (indexed : s.Indexed) (hf : f ∈ s) (hg : g ∈ s) (df : s.Declared f)
    (dg : s.Declared g) (same : s.layout f = s.layout g) : f = g := by
  induction bound : f.id using Nat.strongRecOn generalizing f g with
  | ind k ih =>
    have shows_ := wf.layout_shows legible hf df
    have shows' := wf.layout_shows legible hg dg
    have strength : (s.node f).strength = (s.node g).strength :=
      (same ▸ shows_).strength_eq shows' (strength_le _) (strength_le _)
    have alike : SameForm (s.node f) (s.node g) := sameForm_of_strength strength fun atomic => by
      rw [← wf.lead_layout legible hf df atomic, ← wf.lead_layout legible hg dg (strength ▸ atomic),
        same]
    have texts {h : Formula} (hh : h ∈ s) (dh : s.Declared h) (a : Formula)
        (child : a ∈ (s.node h).children) : Shows (s.node a).strength (s.layout a) :=
      wf.layout_shows legible (child_mem hh child) (dh.child wf hh child)
    have operand (a : Formula) (ha : a ∈ (s.node f).children) (b : Formula)
        (hb : b ∈ (s.node g).children) {loose loose' : Bool}
        (written : wrap loose (s.layout a) = wrap loose' (s.layout b)) : a = b :=
      ih a.id (bound ▸ s.child_lt ha) (child_mem hf ha) (child_mem hg hb) (df.child wf hf ha)
        (dg.child wf hg hb)
        ((texts hf df a ha).wrap_inj (texts hg dg b hb) (strength_le _) (strength_le _) written) rfl
    have tight {h : Formula} (hh : h ∈ s) (dh : s.Declared h) (connective : (s.node h).strength < 4)
        (a : Formula) (child : a ∈ (s.node h).children) :
        Closes (markOf (s.node h).strength) 0 (wrap (s.looser (s.node h) a) (s.layout a)) :=
      (wf.operand_tighter hh child connective (texts hh dh a child)).2 _ (Nat.lt_succ_self _)
    refine wf.node_inj hf hg ?_
    rw [layout_node, layout_node s g] at same
    refine layoutNode_inj alike (wf.canonical f hf) (wf.canonical g hg)
      (fun a ha b hb _ _ => operand a ha b hb) (tight hf df) (tight hg dg) (fun l l' shape shape' => ?_) same
    rw [shape, shape'] at same
    exact wf.lit_inj legible indexed hf hg df dg shape shape' same

end Reading

/-- If the names are legible, formulas over named variables have a text, and two of them have the same
one only if they are the same formula. -/
theorem render_eq_iff (leads : Leads initial s) (legible : ∀ name ∈ s.names, Legible name) (hf : f ∈ s)
    (hg : g ∈ s) (df : s.Declared f) (dg : s.Declared g) :
    ∃ t u, s.render f = .ok t ∧ s.render g = .ok u ∧ (t = u ↔ f = g) := by
  have wf := leads.wellFormed
  have indexed := (leads.grows initial_wellFormed).indexed initial_indexed
  refine ⟨_, _, wf.render_eq hf df, wf.render_eq hg dg, fun same => ?_, fun same => by rw [same]⟩
  exact wf.layout_inj legible indexed hf hg df dg (String.ofList_inj.mp same)

/-- Two variables with names. -/
theorem exists_named : ∃ s f g, Leads initial s ∧ s.names = #["a", "b"] ∧
    Means (· ⟨0⟩) (· = ⟨0⟩) s f ∧ Means (· ⟨1⟩) (· = ⟨1⟩) s g := by
  obtain ⟨_, names₁, index₁⟩ := @declare_new initial "a" (by simp [initial])
  have fresh : (initial.declare "a").2.index["b"]? = none := by
    rw [index₁]
    simp [initial]
  obtain ⟨_, names₂, _⟩ := declare_new fresh
  rw [names₁] at names₂
  have named : Leads initial ((initial.declare "a").2.declare "b").2 :=
    .tail (.single (.declare "a")) (.declare "b")
  generalize ((initial.declare "a").2.declare "b").2 = s at *
  have word₀ : (Lit.of ⟨0⟩ true).code < Node.wordLimit := by decide
  have word₁ : (Lit.of ⟨1⟩ true).code < Node.wordLimit := by decide
  have leads : Leads initial ((s.lit (.of ⟨0⟩ true)).2.lit (.of ⟨1⟩ true)).2 :=
    .tail (.tail named (.lit word₀)) (.lit word₁)
  have names := (s.intern_names (.lit (.of ⟨0⟩ true))).names_eq
  have names' := ((s.lit (.of ⟨0⟩ true)).2.intern_names (.lit (.of ⟨1⟩ true))).names_eq
  have wf := named.wellFormed
  have first := wf.lit_builds word₀
  have wf' := first.wellFormed wf
  have second := wf'.lit_builds word₁
  refine ⟨_, (s.lit (.of ⟨0⟩ true)).1, ((s.lit (.of ⟨0⟩ true)).2.lit (.of ⟨1⟩ true)).1, leads,
    names'.trans (names.trans names₂), ?_, ?_⟩
  · exact (first.means.later (second.later wf')).mono (by simp [Lit.holds]) (by simp)
  · exact second.means.mono (by simp [Lit.holds]) (by simp)

/-- The conjunction of two variables has another text than the first of them. -/
theorem render_eq_iff_pair : ∃ s f g t u, Leads initial s ∧ (∀ name ∈ s.names, Legible name) ∧
    f ∈ s ∧ g ∈ s ∧ s.Declared f ∧ s.Declared g ∧ s.render f = .ok t ∧ s.render g = .ok u ∧ t ≠ u := by
  obtain ⟨s, a, b, leads, names, first, second⟩ := exists_named
  have known : ∀ h ∈ [a, b], h ∈ s := by simp [first.mem, second.mem]
  have both := leads.wellFormed.junction_builds (c := .conj) known
  have first' := first.later (both.later leads.wellFormed)
  have leads' : Leads initial (s.junction .conj [a, b]).2 := leads.tail (.conj known)
  have names' := (s.junction_names .conj [a, b]).names_eq.trans names
  generalize s.junction .conj [a, b] = x at *
  have legible : ∀ name ∈ x.2.names, Legible name := by
    rw [names']
    simpa using ⟨legible_of_word (by decide) rfl, legible_of_word (by decide) rfl⟩
  have dx : x.2.Declared x.1 := fun v mentioned => by
    obtain ⟨h, member, inside⟩ := both.vars_sub v mentioned
    simp only [List.mem_cons, List.not_mem_nil, or_false] at member
    rw [names']
    rcases member with rfl | rfl
    · rw [first.vars_sub v inside]
      decide
    · rw [second.vars_sub v inside]
      decide
  have da : x.2.Declared a := fun v mentioned => by
    rw [names', first'.vars_sub v mentioned]
    decide
  obtain ⟨t, u, text, text', told⟩ := render_eq_iff leads' legible both.mem first'.mem dx da
  refine ⟨x.2, x.1, a, t, u, leads', legible, both.mem, first'.mem, dx, da, text, text', fun same => ?_⟩
  -- the first variable alone is not enough for both
  have equal := both.eval_eq (· == ⟨0⟩)
  rw [told.mp same, first'.eval_eq] at equal
  simp [Connective.holds, first.eval_eq, second.eval_eq] at equal

end Store

end ModelCounting
