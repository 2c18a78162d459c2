/-!
Handlers that may cancel a compilation. They are told when it starts and asked before each
expansion. What time it is, and what a handler of the caller's own will say, is not for the
compilation to know, so both are given with the handler: the clock by what it shows at each look,
the caller's handler by its answers.
-/

namespace ModelCounting

inductive Handler where
  | never
  /-- Cancels the expansion after the first `limit` ones. -/
  | expansions (limit count : Nat)
  /-- Cancels once the clock has moved on by the budget since the start. The clock shows `clock n`
  at the look after the first `n` ones. -/
  | timeout (budget : Nat) (clock : Nat → Nat) (looks : Nat) (deadline : Option Nat)
  /-- Gives the answers of a list without end, of which the first `asked` have been given. -/
  | answers (answer : Nat → Bool) (asked : Nat)
  deriving Inhabited

namespace Handler

def start : Handler → Handler
  | .expansions limit _ => .expansions limit 0
  | .timeout budget clock looks _ => .timeout budget clock (looks + 1) (some (clock looks + budget))
  | h => h

/-- Announces an expansion. The answer tells whether it may go ahead. -/
def expand : Handler → Bool × Handler
  | .never => (true, .never)
  | .expansions limit count => (count + 1 ≤ limit, .expansions limit (count + 1))
  | .timeout budget clock looks (some deadline) =>
    (clock looks < deadline, .timeout budget clock (looks + 1) (some deadline))
  | .timeout budget clock looks none => (true, .timeout budget clock looks none)
  | .answers answer asked => (answer asked, .answers answer (asked + 1))

def count? : Handler → Option Nat
  | .expansions _ count => some count
  | _ => none

end Handler

/-- What a cancelled compilation says. -/
def cancellation : String := "compilation cancelled by handler"

end ModelCounting
