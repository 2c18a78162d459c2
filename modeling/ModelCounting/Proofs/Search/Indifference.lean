import ModelCounting.Proofs.Search.Propagation
import ModelCounting.Search.Stepper

/-!
What a solver that is driven from outside does not depend on. Its activities, the order of its
queue and all settings but one only steer decisions and restarts, and these are not its own here. So
solvers that differ in nothing else stay so: they propagate, analyse and learn the same.
-/

namespace ModelCounting

/-- If both runs have an answer, the answers look the same. -/
def Alike {α β : Type} (look : α → β) (run run' : Except Fault α) : Prop :=
  ∀ a a', run = .ok a → run' = .ok a' → look a = look a'

namespace Alike

variable {α β γ δ ε : Type} {look : α → β} {look' : γ → δ} {run run' : Except Fault α}

theorem ok {a a' : α} (same : look a = look a') : Alike look (.ok a) (.ok a') := by
  rintro _ _ ⟨⟩ ⟨⟩
  exact same

theorem pure {a a' : α} (same : look a = look a') : Alike look (Pure.pure a) (Pure.pure a') := ok same

theorem error {fault : Fault} : Alike look (.error fault) run' := by
  rintro _ _ ⟨⟩

theorem of_map (same : run.map look = run'.map look) : Alike look run run' := by
  rintro a a' rfl rfl
  exact Except.ok.inj same

theorem bind {next next' : α → Except Fault γ} (first : Alike look run run')
    (rest : ∀ a a', look a = look a' → Alike look' (next a) (next' a')) :
    Alike look' (run >>= next) (run' >>= next') := by
  intro c c' ran ran'
  obtain ⟨a, before, after⟩ := bind_ok.mp ran
  obtain ⟨a', before', after'⟩ := bind_ok.mp ran'
  exact rest a a' (first a a' before before') c c' after after'

/-! Answers with a part that is the same. -/

theorem ok_pair {d : ε} {a a' : α} (same : look a = look a') :
    Alike (fun x => (x.1, look x.2)) (.ok (d, a)) (.ok (d, a')) := ok (congrArg (Prod.mk d) same)

theorem bind_pair {run run' : Except Fault (ε × α)} {next next' : ε × α → Except Fault γ}
    (first : Alike (fun x => (x.1, look x.2)) run run')
    (rest : ∀ d a a', look a = look a' → Alike look' (next (d, a)) (next' (d, a'))) :
    Alike look' (run >>= next) (run' >>= next') := by
  refine first.bind ?_
  rintro ⟨d, a⟩ ⟨d', a'⟩ alike
  obtain ⟨rfl, same⟩ := Prod.mk.inj alike
  exact rest d a a' same

theorem bind_same {next next' : α → Except Fault γ} (rest : ∀ a, Alike look' (next a) (next' a)) :
    Alike look' (run >>= next) (run >>= next') := by
  cases run with
  | ok a => exact rest a
  | error fault => exact .error

theorem bind_any {next next' : α → Except Fault γ} (rest : ∀ a a', Alike look' (next a) (next' a')) :
    Alike look' (run >>= next) (run' >>= next') := by
  intro c c' ran ran'
  obtain ⟨a, _, after⟩ := bind_ok.mp ran
  obtain ⟨a', _, after'⟩ := bind_ok.mp ran'
  exact rest a a' c c' after after'

theorem foldlM {step step' : α → δ → Except Fault α} {xs : List δ} {a a' : α}
    (each : ∀ a a' x, look a = look a' → Alike look (step a x) (step' a' x)) (same : look a = look a') :
    Alike look (xs.foldlM step a) (xs.foldlM step' a') := by
  induction xs generalizing a a' with
  | nil => exact .pure same
  | cons x xs ih =>
    rw [List.foldlM_cons, List.foldlM_cons]
    exact (each a a' x same).bind fun _ _ => ih

end Alike

namespace ClauseBank

variable {b : ClauseBank} {r q : ClauseRef} {lits : Array Lit}

def plain (b : ClauseBank) : ClauseBank :=
  { b with slots := b.slots.map fun c => { c with activity := 0 } }

theorem get_plain (b : ClauseBank) (r : ClauseRef) : b.plain.get r = { b.get r with activity := 0 } := by
  simp only [get, plain, Array.getD_eq_getD_getElem?, Array.getElem?_map]
  cases b.slots[r.slot]? <;> rfl

theorem lits_plain (b : ClauseBank) (r : ClauseRef) : b.plain.lits r = b.lits r := by
  rw [lits, get_plain, lits]

theorem plain_modify {slots : Array Clause} {i : Nat} {change change' : Clause → Clause}
    (same : ∀ c : Clause, { change c with activity := 0 } = change' { c with activity := 0 }) :
    (slots.modify i change).map (fun c => { c with activity := 0 }) =
      (slots.map fun c => { c with activity := 0 }).modify i change' := by
  apply Array.ext_getElem?
  intro j
  simp only [Array.getElem?_map, Array.getElem?_modify]
  split
  · cases slots[j]? with
    | none => rfl
    | some c => exact congrArg some (same c)
  · rfl

theorem plain_setLits : (b.setLits r lits).plain = b.plain.setLits r lits := by
  unfold setLits plain
  simp only
  have kept := @plain_modify b.slots r.slot (fun c => { c with lits }) (fun c => { c with lits }) fun _ => rfl
  rw [kept]

theorem plain_mapActivity {update : Float → Float} : (b.mapActivity r update).plain = b.plain := by
  unfold mapActivity plain
  simp only
  have unseen := @plain_modify b.slots r.slot (fun c => { c with activity := update c.activity }) id
    fun _ => rfl
  have same (slots : Array Clause) : slots.modify r.slot id = slots := by
    apply Array.ext_getElem?
    intro j
    simp [Array.getElem?_modify]
  rw [unseen, same]

theorem alloc_plain (b : ClauseBank) (lits : Array Lit) (learnt : Bool) :
    b.plain.alloc lits learnt = ((b.alloc lits learnt).1, (b.alloc lits learnt).2.plain) := by
  unfold alloc plain
  simp only
  split
  · simp only [Array.map_setIfInBounds]
  · simp only [Array.size_map, Array.map_push]

end ClauseBank

namespace Engine

variable {e e' : Engine} {r : ClauseRef} {l falseLit : Lit} {ws : List Watcher} {kept : Array Watcher}

def plain (e : Engine) : Engine := { e with bank := e.bank.plain }

theorem plain_trail : e.plain.trail = e.trail := rfl

theorem plain_bank : e.plain.bank = e.bank.plain := rfl

theorem addWatcher_plain {w : Watcher} : e.plain.addWatcher l w = (e.addWatcher l w).plain := rfl

theorem setLits_plain {lits : Array Lit} : e.plain.setLits r lits = (e.setLits r lits).plain := by
  unfold setLits plain
  rw [ClauseBank.plain_setLits]

theorem attach_plain : e.plain.attach r = (e.attach r).map plain := by
  unfold attach
  simp only [plain_bank, ClauseBank.lits_plain]
  split <;> rfl

theorem assign_plain {reason : Option ClauseRef} :
    e.plain.assign l reason = (e.assign l reason).map plain := by
  unfold assign
  simp only [plain_trail]
  cases e.trail.assign l reason <;> rfl

theorem visit_plain :
    visit falseLit ws kept e.plain = (visit falseLit ws kept e).map fun x => (x.1, x.2.1, x.2.2.plain) := by
  induction ws generalizing kept e with
  | nil => rfl
  | cons w ws ih =>
    unfold visit
    simp only [plain_trail, plain_bank,
      ClauseBank.lits_plain, setLits_plain, addWatcher_plain]
    split
    · exact ih
    split
    · rfl
    split
    · exact ih
    split
    · exact ih
    split
    · rfl
    · simp only [assign_plain]
      cases (e.setLits w.clause (orient falseLit (e.bank.lits w.clause))).assign
        ((orient falseLit (e.bank.lits w.clause)).getD 0 default) (some w.clause) with
      | error fault => rfl
      | ok e' => exact ih

theorem advance_plain : e.plain.advance = e.advance.map fun x => (x.1, x.2.plain) := by
  rw [advance_eq rfl, advance_eq rfl]
  have next_plain (l : Lit) : e.plain.next l = (e.next l).plain := rfl
  have watchers_plain (l : Lit) : e.plain.watchers l = e.watchers l := rfl
  simp only [plain_trail, next_plain, watchers_plain, visit_plain]
  cases visit (-e.trail.lits.getD e.trail.head default)
    (e.watchers (e.trail.lits.getD e.trail.head default)) #[]
    (e.next (e.trail.lits.getD e.trail.head default)) <;> rfl

theorem propagate_plain : e.plain.propagate = e.propagate.map fun x => (x.1, x.2.plain) := by
  have within (n : Nat) (e : Engine) :
      propagateWithin n e.plain = (propagateWithin n e).map fun x => (x.1, x.2.plain) := by
    induction n generalizing e with
    | zero => rfl
    | succ n ih =>
      unfold propagateWithin
      simp only [plain_trail, advance_plain]
      split
      · cases e.advance with
        | error fault => rfl
        | ok x =>
          obtain ⟨conflict, e'⟩ := x
          cases conflict with
          | none => exact ih e'
          | some r => rfl
      · rfl
  exact within _ e

theorem attach_alike (same : e.plain = e'.plain) : Alike plain (e.attach r) (e'.attach r) :=
  .of_map (by rw [← attach_plain, ← attach_plain, same])

theorem assign_alike (same : e.plain = e'.plain) {reason : Option ClauseRef} :
    Alike plain (e.assign l reason) (e'.assign l reason) :=
  .of_map (by rw [← assign_plain, ← assign_plain, same])

theorem propagate_alike (same : e.plain = e'.plain) :
    Alike (fun x => (x.1, x.2.plain)) e.propagate e'.propagate :=
  .of_map (by rw [← propagate_plain, ← propagate_plain, same])

theorem alloc_alike (same : e.plain = e'.plain) (lits : Array Lit) (learnt : Bool) :
    (e.bank.alloc lits learnt).1 = (e'.bank.alloc lits learnt).1 ∧
      { e with bank := (e.bank.alloc lits learnt).2 }.plain =
        { e' with bank := (e'.bank.alloc lits learnt).2 }.plain := by
  have stored (e : Engine) : ((e.bank.alloc lits learnt).1,
      { e with bank := (e.bank.alloc lits learnt).2 }.plain) =
      ((e.plain.bank.alloc lits learnt).1,
        { e.plain with bank := (e.plain.bank.alloc lits learnt).2 }) := by
    rw [plain_bank, ClauseBank.alloc_plain]
    rfl
  apply Prod.mk.inj
  rw [stored, stored, same]

/-! Conflict analysis. -/

theorem markClause_plain {a : Analysis} {skip : Nat} :
    a.markClause e.plain r skip = a.markClause e r skip := by
  unfold Analysis.markClause
  rw [plain_bank, ClauseBank.get_plain]
  rfl

theorem resolve_plain {n : Nat} {a : Analysis} : a.resolve e.plain n = a.resolve e n := by
  induction n generalizing a with
  | zero => rfl
  | succ n ih =>
    unfold Analysis.resolve
    simp only [plain_trail, markClause_plain, ih]

theorem needed_plain {a : Analysis} : a.needed e.plain l = a.needed e l := by
  unfold Analysis.needed
  rw [plain_trail]
  cases e.trail.reason l.var with
  | none => rfl
  | some r => simp only [plain_bank, ClauseBank.lits_plain]

theorem analyze_plain {minimize : Bool} {seen : Array Bool} :
    e.plain.analyze minimize seen r = e.analyze minimize seen r := by
  unfold analyze
  have needed (a : Analysis) : a.needed e.plain = a.needed e := funext fun _ => needed_plain
  simp only [markClause_plain, resolve_plain, plain_trail, needed]

end Engine

namespace Solver

variable {s s' : Solver} {l : Lit} {r : ClauseRef}

/-- What a solver that is driven from outside depends on. -/
def plain (s : Solver) : Solver :=
  { s with
    settings := { minimize := s.settings.minimize }
    engine := s.engine.plain
    branching := {}
    clauseIncrement := 1
    maxLearnts := 0 }

/-! What is asked of a solver, and what is changed in it, is the same for what it depends on, by
definition. So where that is equal, the answers are, and it is still equal after the change. -/

theorem plain_engine (same : s.plain = s'.plain) : s.engine.plain = s'.engine.plain := congrArg engine same

theorem withEngine_plain (same : s.plain = s'.plain) {e e' : Engine} (engines : e.plain = e'.plain) :
    { s with engine := e }.plain = { s' with engine := e' }.plain :=
  (congrArg₂ (fun (s : Solver) engine => { s with engine }) same engines :)

theorem withOk_plain (same : s.plain = s'.plain) {ok : Bool} :
    { s with ok }.plain = { s' with ok }.plain :=
  (congrArg (fun s => { s with ok }) same :)

theorem propagate_alike (same : s.plain = s'.plain) :
    Alike (fun x => (x.1, x.2.plain)) s.propagate s'.propagate := by
  unfold propagate
  exact (Engine.propagate_alike (plain_engine same)).bind_pair fun conflict e e' engines =>
    .ok_pair (withEngine_plain same engines)

theorem assign_alike {reason : Option ClauseRef} (same : s.plain = s'.plain) :
    Alike plain (s.assign l reason) (s'.assign l reason) := by
  unfold assign
  exact (Engine.assign_alike (plain_engine same)).bind fun _ _ engines => .pure (withEngine_plain same engines)

theorem unwind_alike {n : Nat} {t : Trail} {b b' : Branching} :
    Alike Prod.fst (unwind n t b) (unwind n t b') := by
  induction n generalizing t b b' with
  | zero => exact .ok rfl
  | succ n ih =>
    unfold unwind
    split
    · exact .ok rfl
    · exact .bind_any fun _ _ => ih

theorem withTrail_plain (same : s.plain = s'.plain) {t : Trail} {b b' : Branching} :
    { s with engine.trail := t, branching := b }.plain =
      { s' with engine.trail := t, branching := b' }.plain :=
  (congrArg (fun s => { s with engine.trail := t }) same :)

theorem backTo_alike {level : Nat} (same : s.plain = s'.plain) :
    Alike plain (s.backTo level) (s'.backTo level) := by
  have trails : s.trail = s'.trail := (congrArg trail same :)
  unfold backTo
  by_cases above : level < s.depth
  · have above' : level < s'.depth := by rwa [depth, ← trails]
    rw [if_pos above, if_pos above']
    change s.engine.trail = s'.engine.trail at trails
    simp only [trail, ← trails]
    refine unwind_alike.bind fun ⟨t, b⟩ ⟨t', b'⟩ alike => .pure ?_
    simp only at alike
    subst alike
    exact withTrail_plain same
  · have below : ¬level < s'.depth := by rwa [depth, ← trails]
    rw [if_neg above, if_neg below]
    exact .ok same

theorem bumpClause_plain : (s.bumpClause r).plain = s.plain := by
  have scaled (rs : List ClauseRef) (b : ClauseBank) :
      (rs.foldl (fun bank q => bank.mapActivity q (· * 1e-20)) b).plain = b.plain := by
    induction rs generalizing b with
    | nil => rfl
    | cons q rs ih => rw [List.foldl_cons, ih, ClauseBank.plain_mapActivity]
  have bank (b : ClauseBank) (same : b.plain = s.engine.bank.plain) (x : Float) :
      { s with engine.bank := b, clauseIncrement := x }.plain = s.plain :=
    (congrArg (fun bank => { s.plain with engine.bank := bank }) same :)
  unfold bumpClause
  simp only
  split
  · refine bank _ ?_ _
    rw [ClauseBank.plain_mapActivity, ← Array.foldl_toList, scaled, ClauseBank.plain_mapActivity]
  · exact bank _ ClauseBank.plain_mapActivity _

theorem bumpClauses_plain (rs : Array ClauseRef) : (rs.foldl bumpClause s).plain = s.plain := by
  rw [← Array.foldl_toList]
  induction rs.toList generalizing s with
  | nil => rfl
  | cons r rs ih => rw [List.foldl_cons, ih, bumpClause_plain]

theorem analyze_alike (same : s.plain = s'.plain) :
    Alike (fun x => (x.1, x.2.plain)) (s.analyze r) (s'.analyze r) := by
  unfold analyze
  have analysed : s.engine.analyze s.settings.minimize s.seen r =
      s'.engine.analyze s'.settings.minimize s'.seen r := by
    rw [← Engine.analyze_plain, ← @Engine.analyze_plain s'.engine]
    exact (congrArg (fun s => s.engine.analyze s.settings.minimize s.seen r) same :)
  rw [analysed]
  refine .bind_same fun ⟨lesson, a⟩ => .bind_any fun b b' => .pure ?_
  have bumped (s : Solver) (b : Branching) :
      { a.clauses.foldl bumpClause { s with seen := a.seen } with branching := b }.plain =
        { s.plain with seen := a.seen } := bumpClauses_plain a.clauses
  rw [bumped, bumped, same]

theorem learn_alike {lits : Array Lit} (same : s.plain = s'.plain) :
    Alike plain (s.learn lits) (s'.learn lits) := by
  unfold learn
  by_cases unit : lits.size = 1
  · simp only [if_pos unit]
    exact assign_alike same
  simp only [if_neg unit]
  obtain ⟨refs, engines⟩ := Engine.alloc_alike (plain_engine same) lits true
  rw [refs]
  refine (Engine.attach_alike engines).bind fun e e' engines => ?_
  have bumped (r : ClauseRef) : ({ s with engine := e }.bumpClause r).plain =
      ({ s' with engine := e' }.bumpClause r).plain := by
    rw [bumpClause_plain, bumpClause_plain, withEngine_plain same engines]
  refine assign_alike ?_
  exact (congrArg (fun (s : Solver) => { s with learnts := s.learnts.push (s'.engine.bank.alloc lits true).1 })
    (bumped _) :)

/-! Adding clauses. -/

theorem newVar_alike (same : s.plain = s'.plain) :
    Alike (fun x => (x.1, x.2.plain)) s.newVar s'.newVar := by
  unfold newVar
  exact .bind_any fun b b' => .pure (congrArg (fun (s : Solver) => ((⟨s.varCount⟩ : Var),
    { s with engine := s.engine.addVar, seen := s.seen.push false })) same :)

theorem addVars_alike {n : Nat} (same : s.plain = s'.plain) :
    Alike plain (addVars n s) (addVars n s') := by
  induction n generalizing s s' with
  | zero => exact .ok same
  | succ n ih => exact (newVar_alike same).bind_pair fun _ _ _ same => ih same

theorem reserve_alike {ls : List Lit} (same : s.plain = s'.plain) :
    Alike plain (s.reserve ls) (s'.reserve ls) := by
  refine Alike.foldlM (fun s s' l same => ?_) same
  have counts : s.varCount = s'.varCount := (congrArg varCount same :)
  rw [counts]
  exact addVars_alike same

theorem addClause_alike {ls : List Lit} (same : s.plain = s'.plain) :
    Alike (fun x => (x.1, x.2.plain)) (s.addClause ls) (s'.addClause ls) := by
  have depths : s.depth = s'.depth := (congrArg depth same :)
  have oks : s.ok = s'.ok := (congrArg Solver.ok same :)
  unfold addClause
  rw [depths, oks]
  split
  · exact .error
  split
  · exact .ok_pair same
  refine (reserve_alike same).bind fun t t' same => ?_
  have values : t.value = t'.value := (congrArg value same :)
  rw [values]
  split
  · exact .ok_pair same
  · exact .ok_pair (withOk_plain same)
  · refine (assign_alike same).bind fun u u' same => ?_
    exact (propagate_alike same).bind_pair fun conflict v v' same => .ok_pair (withOk_plain same)
  · rename_i ls _ _ _
    obtain ⟨refs, engines⟩ := Engine.alloc_alike (plain_engine same) ls.toArray false
    simp only [refs]
    generalize (t'.engine.bank.alloc ls.toArray false).1 = r
    refine (Engine.attach_alike engines).bind fun e e' engines => .ok_pair ?_
    exact (congrArg₂ (fun (s : Solver) engine => { s with engine, added := s.added.push r })
      same engines :)

end Solver

namespace Stepper

variable {p p' : Stepper} {v : Var} {l : Lit} {phase : Bool} {s : Store} {f : Formula}

def plain (p : Stepper) : Stepper := { p with core := p.core.plain }

theorem plain_fresh {settings settings' : Settings} (same : settings.minimize = settings'.minimize) :
    plain { core := { settings } } = plain { core := { settings := settings' } } := by
  unfold plain Solver.plain
  rw [same]

theorem plain_core (same : p.plain = p'.plain) : p.core.plain = p'.core.plain := congrArg core same

theorem withCore_plain (same : p.plain = p'.plain) {core core' : Solver}
    (cores : core.plain = core'.plain) : { p with core }.plain = { p' with core := core' }.plain :=
  (congrArg₂ (fun (p : Stepper) core => { p with core }) same cores :)

theorem literal?_eq (same : p.plain = p'.plain) : p.literal? = p'.literal? := (congrArg literal? same :)

theorem number_alike (same : p.plain = p'.plain) :
    Alike (fun x => (x.1, x.2.plain)) (p.number v) (p'.number v) := by
  have numbers : p.numbers = p'.numbers := (congrArg numbers same :)
  unfold number
  rw [numbers]
  split
  · exact .ok_pair same
  refine (Solver.newVar_alike (plain_core same)).bind_pair fun i core core' cores => .ok_pair ?_
  exact (congrArg₂ (fun (p : Stepper) core =>
    { p with core, numbers := p'.numbers.insert v i, names := p.names.push v }) same cores :)

theorem numberLits_alike {ls : List Lit} (same : p.plain = p'.plain) :
    Alike (fun x => (x.1, x.2.plain)) (p.numberLits ls) (p'.numberLits ls) := by
  induction ls generalizing p p' with
  | nil => exact .ok_pair same
  | cons l ls ih =>
    unfold numberLits
    refine (number_alike same).bind_pair fun v q q' same => ?_
    exact (ih same).bind_pair fun ms r r' same => .ok_pair same

theorem addClause_alike {ls : List Lit} (same : p.plain = p'.plain) :
    Alike plain (p.addClause ls) (p'.addClause ls) := by
  unfold addClause
  refine (numberLits_alike same).bind_pair fun ms q q' same => ?_
  exact (Solver.addClause_alike (plain_core same)).bind_pair fun _ core core' cores =>
    .pure (withCore_plain same cores)

theorem add_alike (same : p.plain = p'.plain) : Alike plain (p.add s f) (p'.add s f) := by
  unfold add
  exact .bind_same fun cs => .foldlM (fun q q' c same => addClause_alike same) same

theorem start_alike (same : p.plain = p'.plain) :
    Alike (fun x => (x.1, x.2.plain)) p.start p'.start := by
  have oks : p.core.ok = p'.core.ok := (congrArg (fun p => p.core.ok) same :)
  have fresh : { p with unreported := true }.plain = { p' with unreported := true }.plain :=
    (congrArg (fun p => { p with unreported := true }) same :)
  unfold start
  simp only [oks]
  split
  · exact (Solver.propagate_alike (plain_core same)).bind_pair fun conflict core core' cores =>
      .ok_pair (withCore_plain fresh cores)
  · exact .ok_pair fresh

theorem settle_alike (same : p.plain = p'.plain) :
    Alike (fun x => (x.1, x.2.plain)) p.settle p'.settle := by
  unfold settle
  refine (Solver.propagate_alike (plain_core same)).bind_pair fun conflict core core' cores => ?_
  cases conflict with
  | none => exact .ok_pair (withCore_plain same cores)
  | some r =>
    have depths : core.depth = core'.depth := (congrArg Solver.depth cores :)
    simp only [depths]
    split
    · refine (Solver.analyze_alike cores).bind_pair fun lesson core core' cores => .ok_pair ?_
      exact (congrArg₂ (fun (p : Stepper) core =>
        { p with core, assertionLevel := some lesson.level, lesson := some lesson.lits }) same cores :)
    · refine .ok_pair ?_
      exact (congrArg₂ (fun (p : Stepper) core =>
        { p with core, assertionLevel := none, lesson := none }) same cores :)

theorem decide_alike (same : p.plain = p'.plain) :
    Alike (fun x => (x.1, x.2.plain)) (p.decide v phase) (p'.decide v phase) := by
  have opened : { p with unreported := true, core := p.core.openLevel }.plain =
      { p' with unreported := true, core := p'.core.openLevel }.plain :=
    (congrArg (fun p => { p with unreported := true, core := p.core.openLevel }) same :)
  have values : p.core.openLevel.valueOf = p'.core.openLevel.valueOf :=
    (congrArg (fun p => p.core.valueOf) opened :)
  unfold decide
  simp only [values]
  refine .bind_same fun value => ?_
  cases value with
  | fls => exact .ok_pair opened
  | tru => exact .error
  | undef =>
    refine (Solver.assign_alike (plain_core opened)).bind fun core core' cores => ?_
    exact settle_alike (withCore_plain opened cores)

theorem undo_alike (same : p.plain = p'.plain) : Alike plain (p.undo v) (p'.undo v) := by
  have depths : p.core.depth = p'.core.depth := (congrArg (fun p => p.core.depth) same :)
  unfold undo
  rw [depths]
  split
  · exact .error
  · refine (Solver.backTo_alike (plain_core same)).bind fun core core' cores => .pure ?_
    exact (congrArg₂ (fun (p : Stepper) core => { p with unreported := false, core }) same cores :)

theorem assertLesson_alike (same : p.plain = p'.plain) :
    Alike (fun x => (x.1, x.2.plain)) p.assertLesson p'.assertLesson := by
  have lessons : p.lesson = p'.lesson := (congrArg lesson same :)
  have levels : p.atAssertionLevel = p'.atAssertionLevel := (congrArg atAssertionLevel same :)
  unfold assertLesson
  rw [levels, lessons]
  split
  · exact .error
  split
  · exact .error
  refine (Solver.learn_alike (plain_core same)).bind fun core core' cores => settle_alike ?_
  exact (congrArg₂ (fun (p : Stepper) core =>
    { p with unreported := true, core, assertionLevel := none, lesson := none }) same cores :)

theorem newlyImplied_alike {known : IndexSet} (same : p.plain = p'.plain) :
    Alike (fun x => (x.1, x.2.1.plain, x.2.2)) (p.newlyImplied known s) (p'.newlyImplied known s) := by
  have consequences : p.consequences known = p'.consequences known := (congrArg (·.consequences known) same :)
  have names : p.litOf = p'.litOf := (congrArg litOf same :)
  unfold newlyImplied
  rw [consequences, names]
  exact .bind_same fun ls => .pure
    (congrArg (fun p => ((s.cube ls).1, { p with unreported := false }, (s.cube ls).2)) same :)

end Stepper

end ModelCounting
