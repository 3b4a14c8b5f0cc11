import LoopClock.Flow.Loops
import LoopClock.Pass.Usage

/-! What a run has to tell. Events are data; their text is made only when somebody reads it. -/
namespace LoopClock

inductive Level where
  | error
  | warn
  | info
  | debug
  | trace
  deriving DecidableEq, Repr

namespace Level

def rank : Level → Nat
  | error => 1
  | warn => 2
  | info => 3
  | debug => 4
  | trace => 5

def text : Level → String
  | error => "error"
  | warn => "warn"
  | info => "info"
  | debug => "debug"
  | trace => "trace"

end Level

/-- One call of a pass, with what it was called on. -/
inductive Invocation where
  | onModule (pass : String) (program : Program)
  | onLoop (pass : String) (loop : Loop) (program : Program) (func : Nat) (analyses : Analyses)
  deriving DecidableEq

inductive Event where
  | loopFound (l : Loop)
  | alreadyDedicated (exit : Int)
  | exitDedicated (block exit : Int)
  | exitsSplit (header : Int)
  | neverExits (header : Int) (func : String)
  | slotsNeeded (storage : Temp) (len : Nat)
  | loopTimed (header : Int) (func : String) (slot exits : Nat)
  | loopCounted (header : Int) (tally : Nat)
  | storageReused (name : String) (len : Nat)
  | storageDefined (g : Global)
  | storageGrown (storage : Temp) (len : Nat)
  | storageMissing
  | routineReused (name : String)
  | routineDeclared (d : Decl)
  | reportUndeclared (name : String)
  | entryMissing (name : String)
  | reportInserted (slots : Nat) (block : Int)
  | timerUnprepared
  | loopsEntered (count : Nat) (func : String)
  | moduleStarted (pass : String)
  | loopStarted (pass : String) (l : Loop)
  | registered (kind : PassKind) (pass : String)
  | alreadyScheduled (pass : String)
  | analysisUsed (pass : String) (a : Analysis)
  | scheduledFor (required pass : String)
  | invoked (call : Invocation)

namespace Event

/-- Calls of passes are on record but not announced: they have no level. -/
def level? : Event → Option Level
  | timerUnprepared => some .error
  | reportUndeclared _ | entryMissing _ | storageMissing => some .warn
  | slotsNeeded .. | loopTimed .. | storageDefined _ | storageGrown .. | routineDeclared _
  | reportInserted .. | loopsEntered .. | scheduledFor .. => some .debug
  | loopFound _ | alreadyDedicated _ | exitDedicated .. | exitsSplit _ | neverExits ..
  | loopCounted .. | storageReused .. | routineReused _ | moduleStarted _ | loopStarted ..
  | registered .. | alreadyScheduled _ | analysisUsed .. => some .trace
  | invoked _ => none

def text : Event → String
  | loopFound l => l.text
  | alreadyDedicated exit => Label.ofId exit ++ " is already a dedicated exit"
  | exitDedicated block exit => "dedicated exit " ++ Label.ofId block ++ " for " ++ Label.ofId exit
  | exitsSplit header => "split shared exits of loop at " ++ Label.ofId header
  | neverExits header func =>
    "loop at " ++ Label.ofId header ++ " in @" ++ func ++ " never exits, skip"
  | slotsNeeded storage len => storage.text ++ " needs " ++ Numeral.nat len ++ " slots"
  | loopTimed header func slot exits =>
    "timed loop at " ++ Label.ofId header ++ " in @" ++ func ++ ": slot " ++ Numeral.nat slot
      ++ ", " ++ Numeral.nat exits ++ " exits"
  | loopCounted header tally =>
    "count loop at " ++ Label.ofId header ++ ": " ++ Numeral.nat tally ++ " loops so far"
  | storageReused name len => "reuse @" ++ name ++ " with " ++ Numeral.nat len ++ " slots"
  | storageDefined g => "define " ++ g.text
  | storageGrown storage len => "grow " ++ storage.text ++ " to " ++ Numeral.nat len ++ " slots"
  | storageMissing => "module has no profiling storage, no report is inserted"
  | routineReused name => "reuse @" ++ name
  | routineDeclared d => d.text
  | reportUndeclared name => "@" ++ name ++ " is not declared, no report is inserted"
  | entryMissing name => "entry function @" ++ name ++ " not found, no report is inserted"
  | reportInserted slots block =>
    "report " ++ Numeral.nat slots ++ " slots before the return of " ++ Label.ofId block
  | timerUnprepared => "insert-timer ran before insert-str"
  | loopsEntered count func => Numeral.nat count ++ " loops in @" ++ func
  | moduleStarted pass => "run " ++ pass
  | loopStarted pass l => "run " ++ pass ++ " on " ++ l.text
  | registered kind pass => "register " ++ kind.text ++ " pass " ++ pass
  | alreadyScheduled pass => pass ++ " is already scheduled"
  | analysisUsed pass a => pass ++ " uses " ++ a.text
  | scheduledFor required pass => "schedule " ++ required ++ " for " ++ pass
  | invoked (.onModule pass _) => pass
  | invoked (.onLoop pass l ..) => pass ++ " on " ++ l.text

def isShown (least : Level) (e : Event) : Bool := e.level?.any (·.rank ≤ least.rank)

/-- The announcements at some level or a graver one. -/
def shown (least : Level) (es : List Event) : List (Level × String) :=
  es.filterMap fun e =>
    if e.isShown least then e.level?.map fun level => (level, e.text) else none

def calls (es : List Event) : List Invocation :=
  es.filterMap fun
    | invoked call => some call
    | _ => none

end Event
end LoopClock
