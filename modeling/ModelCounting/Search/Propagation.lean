import ModelCounting.Search.Trail

/-!
Unit propagation. Each stored clause is watched at its first two literals: it is entered in the
lists of their complements, with a literal of the clause beside it that spares a look when true.
When a literal becomes true, the clauses in its list look for another literal to watch; one that
finds none is unit or in conflict.
-/

namespace ModelCounting

structure Watcher where
  clause : ClauseRef
  blocker : Lit
  deriving Inhabited

structure Engine where
  bank : ClauseBank := {}
  /-- The watchers to look at when a literal becomes true, by its code. -/
  watches : Array (Array Watcher) := #[]
  trail : Trail := {}
  /-- Literals taken from the queue since the start. -/
  propagations : Nat := 0
  deriving Inhabited

namespace Engine

def addVar (e : Engine) : Engine :=
  { e with watches := (e.watches.push #[]).push #[], trail := e.trail.addVar }

def addWatcher (e : Engine) (l : Lit) (w : Watcher) : Engine :=
  { e with watches := e.watches.modify l.code (·.push w) }

def dropWatchers (e : Engine) (l : Lit) (r : ClauseRef) : Engine :=
  { e with watches := e.watches.modify l.code (·.filter (·.clause ≠ r)) }

def attach (e : Engine) (r : ClauseRef) : Except Fault Engine :=
  let lits := e.bank.lits r
  if 1 < lits.size then
    let first := lits.getD 0 default
    let second := lits.getD 1 default
    .ok ((e.addWatcher (-first) ⟨r, second⟩).addWatcher (-second) ⟨r, first⟩)
  else .error .unwatchable

def detach (e : Engine) (r : ClauseRef) : Engine :=
  let lits := e.bank.lits r
  (e.dropWatchers (-lits.getD 0 default) r).dropWatchers (-lits.getD 1 default) r

def setLits (e : Engine) (r : ClauseRef) (lits : Array Lit) : Engine :=
  { e with bank := e.bank.setLits r lits }

def assign (e : Engine) (l : Lit) (reason : Option ClauseRef) : Except Fault Engine :=
  match e.trail.assign l reason with
  | .ok trail => .ok { e with trail }
  | .error fault => .error fault

/-- The first position from `k` on, among the next `n`, whose literal is not false. -/
def findUnfalsified (t : Trail) (lits : Array Lit) : (n k : Nat) → Option Nat
  | 0, _ => none
  | n + 1, k =>
    if t.value (lits.getD k default) ≠ .fls then some k else findUnfalsified t lits n (k + 1)

/-- The first literal from the third on that is not false: a new one to watch. -/
def replacement? (t : Trail) (lits : Array Lit) : Option Nat :=
  findUnfalsified t lits (lits.size - 2) 2

def orient (falseLit : Lit) (lits : Array Lit) : Array Lit :=
  if lits.getD 0 default = falseLit then lits.swapIfInBounds 0 1 else lits

/-- Looks at the watchers of a literal whose complement `falseLit` just became false. Those that
stay are added to `kept`. The answer names a clause in conflict, if one is met; the watchers after
it stay. -/
def visit (falseLit : Lit) :
    List Watcher → Array Watcher → Engine → Except Fault (Option ClauseRef × Array Watcher × Engine)
  | [], kept, e => .ok (none, kept, e)
  | w :: ws, kept, e =>
    if e.trail.value w.blocker = .tru then visit falseLit ws (kept.push w) e
    else
      let lits := orient falseLit (e.bank.lits w.clause)
      if lits.getD 1 default ≠ falseLit then .error .assertion
      else
        let first := lits.getD 0 default
        let renewed : Watcher := ⟨w.clause, first⟩
        if first ≠ w.blocker ∧ e.trail.value first = .tru then
          visit falseLit ws (kept.push renewed) (e.setLits w.clause lits)
        else match replacement? e.trail lits with
          | some k =>
            let lits := lits.swapIfInBounds 1 k
            let e := e.setLits w.clause lits
            visit falseLit ws kept (e.addWatcher (-lits.getD 1 default) renewed)
          | none =>
            let e := e.setLits w.clause lits
            if e.trail.value first = .fls then
              let e := { e with trail.head := e.trail.lits.size }
              .ok (some w.clause, kept.push renewed ++ ws, e)
            else match e.assign first (some w.clause) with
              | .ok e => visit falseLit ws (kept.push renewed) e
              | .error fault => .error fault

/-- Draws the consequences of the literal at the head of the queue. -/
def advance (e : Engine) : Except Fault (Option ClauseRef × Engine) :=
  let l := e.trail.lits.getD e.trail.head default
  let ws := e.watches.getD l.code #[]
  let e := { e with
    trail.head := e.trail.head + 1
    propagations := e.propagations + 1
    watches := e.watches.setIfInBounds l.code #[] }
  match visit (-l) ws.toList #[] e with
  | .ok (conflict, kept, e) =>
    .ok (conflict, { e with watches := e.watches.setIfInBounds l.code kept })
  | .error fault => .error fault

/-- Empties the queue in at most the given number of rounds. -/
def propagateWithin : Nat → Engine → Except Fault (Option ClauseRef × Engine)
  | 0, _ => .error .stalled
  | n + 1, e =>
    if e.trail.head < e.trail.lits.size then
      match e.advance with
      | .ok (some r, e) => .ok (some r, e)
      | .ok (none, e) => propagateWithin n e
      | .error fault => .error fault
    else .ok (none, e)

/-- Draws all consequences of the trail, or names a clause in conflict. Each variable is taken from
the queue at most once. -/
def propagate (e : Engine) : Except Fault (Option ClauseRef × Engine) :=
  propagateWithin (e.trail.varCount + 1) e

def locked (e : Engine) (r : ClauseRef) : Bool :=
  let first := (e.bank.lits r).getD 0 default
  e.trail.value first = .tru && e.trail.reason first.var = some r

def remove (e : Engine) (r : ClauseRef) : Engine :=
  let wasLocked := e.locked r
  let first := (e.bank.lits r).getD 0 default
  let e := e.detach r
  let e := if wasLocked then { e with trail := e.trail.clearReason first.var } else e
  { e with bank := e.bank.free r }

end Engine

end ModelCounting
