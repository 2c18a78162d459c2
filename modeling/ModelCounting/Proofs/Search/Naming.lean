import ModelCounting.Proofs.Search.Confluence
import ModelCounting.Proofs.Search.Driving
import ModelCounting.Proofs.Search.Pairing

/-!
The numbers of formula variables in a driven solver. In whatever order the caller makes its calls,
no two variables have the same number, and a variable keeps the number that it has once. So a solver
that was given a conjunction has numbers for its variables ever after.
-/

namespace ModelCounting

namespace Stepper

variable {settings : Settings} {s : Store} {f : Formula} {p q : Stepper}

structure Names (p q : Stepper) : Prop where
  sound : q.Sound
  apart : q.Apart
  renames : p.Renames q

theorem Names.trans {r : Stepper} (first : p.Names q) (second : q.Names r) : p.Names r :=
  ⟨second.sound, second.apart, fun v i known => second.renames v i (first.renames v i known)⟩

theorem Apart.same (apart : p.Apart) (sound : q.Sound) (numbers : q.numbers = p.numbers) : p.Names q where
  sound := sound
  apart v w i first second := apart v w i (numbers ▸ first) (numbers ▸ second)
  renames _ _ known := numbers ▸ known

theorem Sound.number_names {v i : Var} (sound : p.Sound) (apart : p.Apart)
    (run : p.number v = .ok (i, q)) : p.Names q := by
  refine ⟨(sound.number run).1, ?_, (number_renames run).1⟩
  unfold Stepper.number at run
  split at run
  · cases run
    exact apart
  · obtain ⟨⟨w, core⟩, added, rest⟩ := bind_ok.mp run
    cases rest
    obtain ⟨_, _, new⟩ := sound.core.newVar added
    apply apart.insert _ rfl
    intro w known
    have below := sound.inside known
    omega

theorem Sound.numberLits_names {ls ms : List Lit} (sound : p.Sound) (apart : p.Apart)
    (run : p.numberLits ls = .ok (ms, q)) :
    p.Names q ∧ ∀ l ∈ ls, q.numbers[l.var]? ≠ none := by
  induction ls generalizing p ms with
  | nil =>
    cases run
    exact ⟨apart.same sound rfl, nofun⟩
  | cons l ls ih =>
    obtain ⟨⟨i, p₁⟩, first, run⟩ := bind_ok.mp run
    obtain ⟨⟨ms', p₂⟩, rest, run⟩ := bind_ok.mp run
    cases run
    have names := sound.number_names apart first
    obtain ⟨names', known⟩ := ih names.sound names.apart rest
    refine ⟨names.trans names', List.forall_mem_cons.mpr ⟨?_, known⟩⟩
    rw [names'.renames _ _ (number_renames first).2]
    exact Option.some_ne_none i

theorem Sound.addClause_names {ls : List Lit} (sound : p.Sound) (apart : p.Apart)
    (run : p.addClause ls = .ok q) : p.Names q ∧ ∀ l ∈ ls, q.numbers[l.var]? ≠ none := by
  have sound' := sound.addClause run
  obtain ⟨⟨ms, p₁⟩, numbered, run⟩ := bind_ok.mp run
  obtain ⟨_, _, run⟩ := bind_ok.mp run
  cases run
  obtain ⟨names, known⟩ := sound.numberLits_names apart numbered
  exact ⟨names.trans (names.apart.same sound' rfl), known⟩

theorem Sound.addClauses_names {cs : List (List Lit)} (sound : p.Sound) (apart : p.Apart)
    (run : cs.foldlM Stepper.addClause p = .ok q) :
    p.Names q ∧ ∀ c ∈ cs, ∀ l ∈ c, q.numbers[l.var]? ≠ none := by
  induction cs generalizing p with
  | nil =>
    cases run
    exact ⟨apart.same sound rfl, nofun⟩
  | cons c cs ih =>
    obtain ⟨p₁, first, rest⟩ := bind_ok.mp run
    obtain ⟨names, known⟩ := sound.addClause_names apart first
    obtain ⟨names', others⟩ := ih names.sound names.apart rest
    refine ⟨names.trans names', List.forall_mem_cons.mpr ⟨fun l member => ?_, others⟩⟩
    obtain ⟨i, here⟩ := Option.ne_none_iff_exists'.mp (known l member)
    rw [names'.renames _ _ here]
    exact Option.some_ne_none i

theorem Sound.add_names {cs : List (List Lit)} (sound : p.Sound) (apart : p.Apart)
    (run : p.add s f = .ok q) (read : s.clauses f = .ok cs) :
    p.Names q ∧ ∀ c ∈ cs, ∀ l ∈ c, q.numbers[l.var]? ≠ none := by
  unfold Stepper.add at run
  rw [read] at run
  exact sound.addClauses_names apart run

theorem add_fresh {cs : List (List Lit)} (settings : Settings) (read : s.clauses f = .ok cs) :
    Delivers (Stepper.add { core := { settings } } s f) fun _ => True := by
  unfold Stepper.add
  rw [read]
  have loop : Delivers (cs.foldlM Stepper.addClause { core := { settings } })
      (Holding (cs.reverse ++ [])) :=
    .foldlM_seen Holding (fun _ _ before c _ => before.addClause c) (.fresh settings)
  exact loop.mono fun _ _ => trivial

/-- One call of the caller. -/
inductive Drives : Stepper → Stepper → Prop
  | add {p q : Stepper} {s : Store} {f : Formula} (run : p.add s f = .ok q) : Drives p q
  | start {p q : Stepper} {b : Bool} (run : p.start = .ok (b, q)) : Drives p q
  | decide {p q : Stepper} {v : Var} {phase b : Bool} (run : p.decide v phase = .ok (b, q)) :
    Drives p q
  | undo {p q : Stepper} {v : Var} (run : p.undo v = .ok q) : Drives p q
  | assertLesson {p q : Stepper} {b : Bool} (run : p.assertLesson = .ok (b, q)) : Drives p q
  | newlyImplied {p q : Stepper} {known : IndexSet} {s s' : Store} {f : Formula}
    (run : p.newlyImplied known s = .ok (f, q, s')) : Drives p q

theorem Drives.names (drives : p.Drives q) (sound : p.Sound) (apart : p.Apart) : p.Names q := by
  cases drives with
  | add run =>
    obtain ⟨cs, read, _⟩ := bind_ok.mp run
    exact (sound.add_names apart run read).1
  | start run =>
    have continues := sound.start run
    exact apart.same continues.sound continues.spares.numbers_eq
  | decide run =>
    obtain ⟨sound', _, spares⟩ := sound.decide run
    exact apart.same sound' spares.numbers_eq
  | undo run =>
    obtain ⟨sound', _, spares⟩ := sound.undo run
    exact apart.same sound' spares.numbers_eq
  | assertLesson run =>
    have continues := sound.assertLesson run
    exact apart.same continues.sound continues.spares.numbers_eq
  | newlyImplied run =>
    have continues := sound.newlyImplied run
    exact apart.same continues.sound continues.spares.numbers_eq

theorem Driven.apart (driven : Driven settings p) : p.Apart := by
  induction driven with
  | fresh =>
    intro v w i known
    simp at known
  | add before run ih => exact (Drives.add run |>.names before.sound ih).apart
  | start before run ih => exact (Drives.start run |>.names before.sound ih).apart
  | decide before run ih => exact (Drives.decide run |>.names before.sound ih).apart
  | undo before run ih => exact (Drives.undo run |>.names before.sound ih).apart
  | assertLesson before run ih => exact (Drives.assertLesson run |>.names before.sound ih).apart
  | newlyImplied before run ih => exact (Drives.newlyImplied run |>.names before.sound ih).apart

/-- The steppers to which a conjunction was added after some calls, and that were called on since. -/
inductive Holds (settings : Settings) (s : Store) (f : Formula) : Stepper → Prop
  | given {p q : Stepper} (before : Driven settings p) (run : p.add s f = .ok q) : Holds settings s f q
  | later {p q : Stepper} (before : Holds settings s f p) (drives : p.Drives q) : Holds settings s f q

theorem Holds.numbers {cs : List (List Lit)} (holds : Holds settings s f p)
    (read : s.clauses f = .ok cs) :
    p.Sound ∧ p.Apart ∧ ∀ c ∈ cs, ∀ l ∈ c, p.numbers[l.var]? ≠ none := by
  induction holds with
  | given before run =>
    obtain ⟨names, known⟩ := before.sound.add_names before.apart run read
    exact ⟨names.sound, names.apart, known⟩
  | later _ drives ih =>
    obtain ⟨sound, apart, known⟩ := ih
    have names := drives.names sound apart
    refine ⟨names.sound, names.apart, fun c member l literal => ?_⟩
    obtain ⟨i, here⟩ := Option.ne_none_iff_exists'.mp (known c member l literal)
    rw [names.renames _ _ here]
    exact Option.some_ne_none i

end Stepper

end ModelCounting
