import LoopClock.Pass.Pipeline
import LoopClock.Pass.Schedule

/-! Instrumenting a program with either way of ordering the passes. -/
namespace LoopClock

inductive Manager where
  | pipeline
  | schedule
  deriving DecidableEq, Repr

structure Run where
  order : List String
  changed : Bool
  program : Program
  context : Context

namespace Manager

def runPipeline (names : Option (List String)) (p : Program) (c : Context) :
    Traced (Except Error Run) :=
  match names.elim (.ok (.profiling c.config)) Pipeline.ofNames with
  | .error e => return .error e
  | .ok l => do
    match ← l.run p c with
    | .error e => return .error e
    | .ok (kept, p, c) => return .ok ⟨l.names, !kept.isAll, p, c⟩

def runSchedule (names : Option (List String)) (p : Program) (c : Context) :
    Traced (Except Error Run) := do
  let r ← Registry.setUp
  match ← names.elim (Schedule.profiling r c.config) fun ns =>
      Schedule.addAll r (ns.map trimmed) {} with
  | .error e => return .error e
  | .ok s =>
    let (result, p, c) ← s.run p c
    return .ok ⟨s.order, result.isChanged, p, c⟩

/-- Runs the passes with these names, or the standard ones if no names are given. -/
def run : Manager → Option (List String) → Program → Context → Traced (Except Error Run)
  | pipeline => runPipeline
  | schedule => runSchedule

end Manager
end LoopClock
