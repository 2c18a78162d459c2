import Mathlib.Data.List.Chain
import ModelCounting.Proofs.Search.Ranking

/-!
What a queue answers over a history of calls. Whatever the ranks are, each pop takes out one variable
that was inserted while it was absent and not popped since. If the ranks only rise, and no other call
comes between the rise of a variable's rank and bumping it, a pop answers a variable of the highest
rank.
-/

namespace ModelCounting

namespace VarQueue

/-- What a queue may be asked. -/
inductive Call where
  | insert (v : Var)
  | bump (v : Var)
  | pop
  deriving DecidableEq

/-- A call with the ranks it is handed, the queue it is made on and the variable it answers. -/
structure Event (α : Type) where
  call : Call
  ranks : Array α
  before : VarQueue
  answer : Option Var

namespace Event

variable {α : Type}

/-- The event inserts a variable that is absent. -/
def adds (v : Var) (e : Event α) : Bool := e.call = .insert v && !e.before.contains v

def takes (v : Var) (e : Event α) : Bool := e.call = .pop && e.answer = some v

/-- Of the variables in the queue, the one that is answered has the highest rank; none is answered
only if there is none. -/
def Highest [LE α] (e : Event α) : Prop :=
  match e.answer with
  | none => ∀ v, e.before.contains v = false
  | some v => e.before.contains v = true ∧
    ∀ w, e.before.contains w = true → NoHigher e.ranks w v

end Event

variable {α : Type} {ranks : Array α} {q q' : VarQueue} {v : Var} {call : Call} {answer : Option Var}
  {proper : α → Prop} {es : List (Event α)}

/-- There is a rank for each variable that the call may look at. -/
def Looks (ranks : Array α) (q : VarQueue) (call : Call) : Prop :=
  ∀ v, v ∈ q.heap ∨ call = .insert v → v.id < ranks.size

/-- The ranks of a history are proper, and known for the variables in the queue. From call to call they
only rise, and no variable's does but one that the next call bumps. Later events come first. -/
structure Steady [LE α] (proper : α → Prop) (es : List (Event α)) : Prop where
  proper : ∀ e ∈ es, ∀ r ∈ e.ranks, proper r
  looks : ∀ e ∈ es, Looks e.ranks e.before e.call
  rises : es.IsChain fun later earlier =>
    Rises earlier.ranks later.ranks later.before fun v => later.call = .bump v

theorem Steady.tail [LE α] {e : Event α} (steady : Steady proper (e :: es)) : Steady proper es where
  proper e' member := steady.proper e' (List.mem_cons_of_mem e member)
  looks e' member := steady.looks e' (List.mem_cons_of_mem e member)
  rises := steady.rises.tail

section Serving

variable [LE α] [LT α] [DecidableLE α] [DecidableLT α]

def serve (ranks : Array α) (q : VarQueue) : Call → Except Fault (Option Var × VarQueue)
  | .insert v => do return (none, ← q.insert ranks v)
  | .bump v => do return (none, ← q.bump ranks v)
  | .pop => q.pop ranks

/-- The queues that calls lead to from an empty one, with the events on the way, later ones first. -/
inductive History : List (Event α) → VarQueue → Prop
  | fresh : History [] {}
  | call {es : List (Event α)} {q q' : VarQueue} {ranks : Array α} {call : Call}
    {answer : Option Var} (before : History es q) (run : q.serve ranks call = .ok (answer, q')) :
    History (⟨call, ranks, q, answer⟩ :: es) q'

theorem serve_delivers (placed : q.Placed) (looks : Looks ranks q call) :
    Delivers (q.serve ranks call) fun _ => True := by
  have known (v : Var) (member : v ∈ q.heap) := looks v (.inl member)
  cases call with
  | insert v => exact (insert_delivers known (looks v (.inr rfl))).bind fun _ _ _ => .pure trivial
  | bump v => exact (bump_delivers placed known).bind fun _ _ _ => .pure trivial
  | pop => exact (pop_delivers known).mono fun _ _ => trivial

structure Serves (q : VarQueue) (call : Call) (answer : Option Var) (q' : VarQueue) : Prop where
  indexed : q'.Indexed
  members : ∀ v, v ∈ q'.heap ↔ (call = .insert v ∨ v ∈ q.heap) ∧ answer ≠ some v
  popped : ∀ v, answer = some v → call = .pop ∧ v ∈ q.heap
  empty : call = .pop → answer = none → q.heap = #[]

theorem Indexed.serve (indexed : q.Indexed) (run : q.serve ranks call = .ok (answer, q')) :
    q.Serves call answer q' := by
  cases call with
  | insert v =>
    obtain ⟨r, inserted, rest⟩ := bind_ok.mp run
    cases rest
    obtain ⟨indexed', members⟩ := indexed.insert inserted
    exact ⟨indexed', fun w => by simp [members, eq_comm], nofun, nofun⟩
  | bump v =>
    obtain ⟨r, bumped, rest⟩ := bind_ok.mp run
    cases rest
    obtain ⟨indexed', members⟩ := indexed.bump bumped
    exact ⟨indexed', fun w => by simp [members], nofun, nofun⟩
  | pop =>
    obtain ⟨indexed', empty, popped, members⟩ := indexed.pop run
    exact ⟨indexed', fun w => by simp [members], fun w same => ⟨rfl, popped w same⟩, fun _ => empty⟩

theorem History.indexed (history : History es q) : q.Indexed := by
  induction history with
  | fresh => exact indexed_empty
  | call before run ih => exact (ih.serve run).indexed

/-- Of each variable the queue holds one copy for the insertions that no pop has matched yet. -/
theorem History.balance (history : History es q) (v : Var) :
    es.countP (Event.adds v) = es.countP (Event.takes v) + if q.contains v then 1 else 0 := by
  induction history with
  | fresh => rfl
  | @call es q q' ranks call answer before run ih =>
    have serves := before.indexed.serve run
    have now : q'.contains v = true ↔ (call = .insert v ∨ q.contains v = true) ∧ answer ≠ some v := by
      rw [serves.indexed.contains_iff, before.indexed.contains_iff, serves.members]
    have there : answer = some v → call = .pop ∧ q.contains v = true := fun same => by
      rw [before.indexed.contains_iff]
      exact serves.popped v same
    rw [List.countP_cons, List.countP_cons, ih]
    simp only [Event.adds, Event.takes]
    by_cases taken : answer = some v
    · obtain ⟨rfl, held⟩ := there taken
      simp [now, taken, held]
    · by_cases inserted : call = .insert v
      · by_cases held : q.contains v = true <;> simp [now, taken, inserted, held]
      · by_cases held : q.contains v = true <;> simp [now, taken, inserted, held]

/-- After a call on a queue in order, whose rising variable is the one that is bumped, it is in order. -/
theorem Ranked.serve {ranks' : Array α} (ranked : q.Ranked proper ranks) (order : Comparable proper)
    (indexed : q.Indexed) (rises : Rises ranks ranks' q fun v => call = .bump v)
    (fits : ∀ r ∈ ranks', proper r) (looks : Looks ranks' q call)
    (run : q.serve ranks' call = .ok (answer, q')) : q'.Ranked proper ranks' ∧
      ∀ v, answer = some v → ∀ w ∈ q.heap, NoHigher ranks' w v := by
  have rated : q.Rated proper ranks' := ⟨fits, fun v member => looks v (.inl member)⟩
  cases call with
  | insert v =>
    obtain ⟨r, inserted, rest⟩ := bind_ok.mp run
    cases rest
    have carried := ranked.carry order rises rated fun _ _ => nofun
    exact ⟨carried.insert order indexed (looks v (.inr rfl)) inserted, nofun⟩
  | bump v =>
    obtain ⟨r, bumped, rest⟩ := bind_ok.mp run
    cases rest
    have only : (fun w => Call.bump v = .bump w) = (· = v) := by
      funext w
      simp [eq_comm]
    exact ⟨ranked.bump order indexed (only ▸ rises) rated bumped, nofun⟩
  | pop =>
    have carried := ranked.carry order rises rated fun _ _ => nofun
    exact carried.pop order indexed run

theorem Steady.ranked {e : Event α} (order : Comparable proper) (history : History (e :: es) q)
    (steady : Steady proper (e :: es)) : q.Ranked proper e.ranks ∧
      ∀ v, e.answer = some v → ∀ w ∈ e.before.heap, NoHigher e.ranks w v := by
  induction es generalizing e q with
  | nil =>
    cases history with
    | @call _ q _ ranks call answer before run =>
      cases before
      have fits := steady.proper _ List.mem_cons_self
      have looks := steady.looks _ List.mem_cons_self
      have ranked : Ranked proper ranks {} :=
        ⟨⟨fits, nofun⟩, fun i _ inside => absurd inside (Nat.not_lt_zero i)⟩
      exact ranked.serve order indexed_empty nofun fits looks run
  | cons d es ih =>
    cases history with
    | @call _ q _ ranks call answer before run =>
      have fits := steady.proper _ List.mem_cons_self
      have looks := steady.looks _ List.mem_cons_self
      have rises := (List.isChain_cons_cons.mp steady.rises).1
      exact (ih before steady.tail).1.serve order before.indexed rises fits looks run

theorem History.highest (history : History es q) (order : Comparable proper)
    (steady : Steady proper es) : ∀ e ∈ es, e.call = .pop → e.Highest := by
  induction history with
  | fresh => nofun
  | @call es q q' ranks call answer before run ih =>
    refine List.forall_mem_cons.mpr ⟨fun pops => ?_, ih steady.tail⟩
    have highest := (steady.ranked order (.call before run)).2
    have serves := before.indexed.serve run
    unfold Event.Highest
    simp only
    split
    · intro v
      rw [Bool.eq_false_iff, Ne, before.indexed.contains_iff, serves.empty pops rfl]
      exact Array.not_mem_empty v
    · rename_i v
      refine ⟨before.indexed.contains_iff.mpr (serves.popped v rfl).2, fun w held => ?_⟩
      exact highest v rfl w (before.indexed.contains_iff.mp held)

/-- Whatever is asked of a queue, its heap and its places are inverse to each other, no variable is in
it twice, every variable it holds has one insertion more than pops, and a call whose variables have
ranks is answered. If the ranks rise steadily, each pop answers a variable of the highest rank. -/
theorem History.serves_highest (history : History es q) :
    (∀ v i, q.place? v = some i ↔ q.heap[i]? = some v) ∧ q.heap.toList.Nodup ∧
      (∀ v, es.countP (Event.adds v) = es.countP (Event.takes v) + if q.contains v then 1 else 0) ∧
      (∀ (ranks : Array α) call, Looks ranks q call → Delivers (q.serve ranks call) fun _ => True) ∧
      ∀ proper : α → Prop, Comparable proper → Steady proper es → ∀ e ∈ es, e.call = .pop → e.Highest :=
  ⟨history.indexed, history.indexed.listed.nodup, history.balance,
    fun _ _ looks => serve_delivers history.indexed.placed looks,
    fun _ order steady => history.highest order steady⟩

end Serving

theorem comparable_nat : Comparable fun _ : Nat => True where
  total r p _ _ := Nat.le_total r p
  trans _ _ _ _ _ _ := Nat.le_trans
  lt_iff _ _ _ _ := Nat.not_le.symm

/-- The rank of a variable rises above that of the top, it is bumped, and popped first. -/
theorem serves_highest_bumped : ∃ (e : Event Nat) (es : List (Event Nat)) (q : VarQueue),
    History (e :: es) q ∧ Comparable (fun _ : Nat => True) ∧ Steady (fun _ => True) (e :: es) ∧
      e.call = .pop ∧ e.answer = some ⟨0⟩ ∧ e.Highest := by
  have ran : (do
      let x₁ ← serve #[1, 2] {} (.insert ⟨0⟩)
      let x₂ ← serve #[1, 2] x₁.2 (.insert ⟨1⟩)
      let x₃ ← serve #[7, 2] x₂.2 (.bump ⟨0⟩)
      let x₄ ← serve #[7, 2] x₃.2 .pop
      return Decidable.decide (x₁.2.heap = #[⟨0⟩] ∧ x₂.2.heap = #[⟨1⟩, ⟨0⟩] ∧
        x₃.2.heap = #[⟨0⟩, ⟨1⟩] ∧ x₄.1 = some ⟨0⟩) : Except Fault Bool) = .ok true := by
    decide +kernel
  simp only [bind_ok, pure_ok, Prod.exists] at ran
  obtain ⟨a₁, q₁, first, a₂, q₂, second, a₃, q₃, third, _, q₄, fourth, facts⟩ := ran
  obtain ⟨one, two, bumped, rfl⟩ := of_decide_eq_true facts
  have history := (((History.fresh.call first).call second).call third).call fourth
  have steady : Steady (fun _ : Nat => True) [⟨.pop, #[7, 2], q₃, some ⟨0⟩⟩,
      ⟨.bump ⟨0⟩, #[7, 2], q₂, a₃⟩, ⟨.insert ⟨1⟩, #[1, 2], q₁, a₂⟩,
      ⟨.insert ⟨0⟩, #[1, 2], {}, a₁⟩] := by
    constructor
    case proper => exact fun _ _ _ _ => trivial
    case looks => simp [Looks, one, two, bumped]
    case rises => simp [Rises, one, two, bumped]
  obtain ⟨_, _, _, _, highest⟩ := history.serves_highest
  exact ⟨_, _, _, history, comparable_nat, steady, rfl, rfl,
    highest _ comparable_nat steady _ List.mem_cons_self rfl⟩

end VarQueue

end ModelCounting
