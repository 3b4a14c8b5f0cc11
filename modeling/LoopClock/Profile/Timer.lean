import LoopClock.Flow.Split
import LoopClock.Profile.Config

/-! Timing a loop. A clock sample is put by at the header, and every exit block stores the time
gone by since then into the slot of the loop. -/
namespace LoopClock

/-- What timing a loop works on. -/
structure TimerState where
  program : Program
  instrumentation : Instrumentation
  slots : Nat
  deriving DecidableEq

namespace Timer

def sampleClock (s : Instrumentation) (target : Temp) : Instr :=
  .call (some target) .i64 s.clockFn []

/-- At the header: sample the clock and put the sample by. -/
def putBy (s : Instrumentation) (stash clock : Temp) : List Instr :=
  [sampleClock s clock, .store (.temp clock) (.temp stash)]

/-- At an exit: sample the clock, reload the stash, subtract, store into the slot. The four
temporaries follow the first `temps` ones. -/
def record (s : Instrumentation) (stash : Temp) (slot temps : Nat) : List Instr :=
  let stop := Temp.fresh temps .i64
  let start := Temp.fresh (temps + 1) .i64
  let elapsed := Temp.fresh (temps + 2) .i64
  let addr := Temp.fresh (temps + 3) .i64Ptr
  [sampleClock s stop,
   .load start .i64 (.temp stash),
   .arith elapsed .sub .i64 (.temp stop) (.temp start),
   .gep addr .i64 (.temp s.storage) (.int (Int32.ofNat slot)),
   .store (.temp elapsed) (.temp addr)]

/-- After the stack slots at the start of the block. -/
def insertAtTop (instrs : List Instr) (b : Block) : Block :=
  b.insertAt (b.body.takeWhile Instr.isAlloca).length instrs

def recordAt (s : Instrumentation) (stash : Temp) (slot : Nat) (p : Program) (exit : Vertex) :
    Program :=
  let instrs := record s stash slot p.temps
  { p.update exit (insertAtTop instrs) with temps := p.temps + 4 }

/-- The stash comes at the very start of the function. -/
def insertStash (stash : Temp) (f : Func) : Func :=
  match f.blocks with
  | [] => f
  | entry :: rest =>
    { f with blocks := entry.insertAt 0 [.alloca stash .i64 (.int 1)] :: rest }

/-- The instructions of a timer for a loop whose exits are its own: the stash, the sample in the
header, a record in each exit. -/
def place (p : Program) (func : Nat) (s : Instrumentation) (slot : Nat) (header : Vertex)
    (exits : List Vertex) : Program :=
  let stash := Temp.fresh p.temps .i64Ptr
  let clock := Temp.fresh (p.temps + 1) .i64
  let p := { p with funcs := p.funcs.modify func (insertStash stash), temps := p.temps + 2 }
  exits.foldl (recordAt s stash slot) (p.update header (insertAtTop (putBy s stash clock)))

/-- Times a loop that has an exit. A loop that never ends takes no slot. -/
def time (l : Loop) (func : Nat) (t : TimerState) : Traced (PassResult × TimerState) :=
  let name := t.program.funcName func
  if t.program.exitBlocks l = [] then do
    Traced.tell (.neverExits l.header.id name)
    return (.noChange, t)
  else do
    let (p, split) ← t.program.dedicateExits func l
    if split then Traced.tell (.exitsSplit l.header.id)
    let exits := p.exitBlocks l
    let slot := t.slots
    let (grew, s) := t.instrumentation.require slot
    if grew then Traced.tell (.slotsNeeded s.storage s.len)
    Traced.tell (.loopTimed l.header.id name slot exits.length)
    return (.changed, ⟨place p func s slot l.header exits, s, slot + 1⟩)

end Timer
end LoopClock
