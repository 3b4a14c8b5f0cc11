import LoopClock.Pass.Basic
import LoopClock.Profile.Report
import LoopClock.Profile.Timer

/-! The four passes of the profiler. -/
namespace LoopClock.Profiler

def countLoops : LoopPass where
  name := "count-loops"
  usage := { analyses := [.loopForest], preservesAll := true }
  run l _ p c := do
    let tally := c.tally + 1
    Traced.tell (.loopCounted l.header.id tally)
    return (.noChange, p, { c with tally })

def insertStorage : ModulePass where
  name := "insert-str"
  usage := { analyses := [.loopForest] }
  run p c := do
    let (r, s, p) ← p.prepare c.config
    return (r, p, { c with instrumentation := some s })

/-- Does nothing in a module that has not been prepared. -/
def insertTimer : LoopPass where
  name := "insert-timer"
  usage := { required := ["insert-str"], analyses := [.loopForest] }
  run l func p c :=
    match c.instrumentation with
    | none => do
      Traced.tell .timerUnprepared
      return (.noChange, p, c)
    | some s => do
      let (r, t) ← Timer.time l func ⟨p, s, c.slots⟩
      return (r, t.program, { c with slots := t.slots, instrumentation := some t.instrumentation })

def insertReport : ModulePass where
  name := "insert-report"
  usage := { required := ["insert-str"] }
  run p c :=
    match c.instrumentation with
    | none => do
      Traced.tell .storageMissing
      return (.noChange, p, c)
    | some s => do
      let (r, p) ← Report.insert p s c.slots c.config.entryFn
      return (r, p, c)

end LoopClock.Profiler
