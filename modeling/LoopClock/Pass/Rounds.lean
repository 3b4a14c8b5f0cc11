import LoopClock.Pass.Manager
import LoopClock.Source.Parse

/-! Instrumenting one program several times. Each round has a context of its own; the tally of
loops goes through all of them. -/
namespace LoopClock

inductive Round where
  | done (run : Run) (events : List Event)
  | failed (error : Error) (events : List Event)
  | unreadable (error : Source.ParseError)

/-- The program a later round works on: the one the round before left, or that one after it has
been printed and read again. -/
def carryOver (reparse : Bool) (p : Program) : Except Source.ParseError Program :=
  if reparse then Source.parse p.text else .ok p

/-- Up to `n` rounds. An error ends them. -/
def rounds (m : Manager) (names : Option (List String)) (config : Config) (reparse : Bool) :
    Nat → Program → Nat → List Round
  | 0, _, _ => []
  | n + 1, p, tally =>
    match m.run names p (.ofModule config tally) with
    | ⟨.error e, events⟩ => [.failed e events]
    | ⟨.ok r, events⟩ =>
      .done r events ::
        if n = 0 then []
        else match carryOver reparse r.program with
          | .error e => [.unreadable e]
          | .ok p => rounds m names config reparse n p r.context.tally

end LoopClock
