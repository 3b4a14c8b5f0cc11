import LoopClock.IR.Program

/-! Symbol names and knobs of the instrumentation, and the state kept while a module is
instrumented. -/
namespace LoopClock

structure Config where
  reportFn : String := "__loopprof_report"
  clockFn : String := "__loopprof_clock"
  storage : String := "__loopprof_elapsed"
  /-- The function whose returns report the timings. -/
  entryFn : String := "main"
  minSlots : Nat := 1
  reportOnExit : Bool := true
  deriving DecidableEq, Repr

/-- The width of one measurement. -/
def slotBits : Nat := 64

/-- The routines the timers call and the storage they write into, which must hold `len`
elements. -/
structure Instrumentation where
  reportFn : String
  clockFn : String
  storage : Temp
  len : Nat
  deriving DecidableEq, Repr

namespace Instrumentation

def ofConfig (c : Config) (len : Nat) : Instrumentation :=
  ⟨c.reportFn, c.clockFn, ⟨c.storage, true, .i64Ptr⟩, len⟩

/-- Makes room for `slot`, and tells whether the required length grew. -/
def require (s : Instrumentation) (slot : Nat) : Bool × Instrumentation :=
  if slot < s.len then (false, s) else (true, { s with len := slot + 1 })

end Instrumentation

/-- `tally` counts loops over all modules of a run; `slots` is the next free slot of one module. -/
structure Context where
  config : Config
  tally : Nat := 0
  slots : Nat := 0
  instrumentation : Option Instrumentation := none
  deriving DecidableEq

/-- A new module starts without slots and keeps the tally. -/
def Context.ofModule (config : Config) (tally : Nat) : Context := ⟨config, tally, 0, none⟩

inductive PassResult where
  | noChange
  | changed
  deriving DecidableEq, Repr

namespace PassResult

def isChanged : PassResult → Bool
  | noChange => false
  | changed => true

def ofBool (b : Bool) : PassResult := if b then changed else noChange

def or (a b : PassResult) : PassResult := ofBool (a.isChanged || b.isChanged)

end PassResult

/-- Which analyses are still valid after a pass. -/
inductive Preserved where
  | all
  | none
  deriving DecidableEq, Repr

namespace Preserved

def isAll : Preserved → Bool
  | all => true
  | none => false

def ofResult (r : PassResult) : Preserved := if r.isChanged then none else all

/-- What is preserved by both. -/
def and (a b : Preserved) : Preserved := if a.isAll && b.isAll then all else none

end Preserved
end LoopClock
