import LoopClock.Error
import LoopClock.Pass.Profiler

/-! The passes that can be scheduled by name, in the order of registration. -/
namespace LoopClock

structure Entry where
  description : String
  pass : Pass

abbrev Registry := List Entry

namespace Registry

def get? (r : Registry) (id : String) : Option Entry := r.find? (·.pass.name == id)

def names (r : Registry) : List String := r.map (·.pass.name)

def register (r : Registry) (e : Entry) : Traced (Except Error Registry) :=
  if (r.get? e.pass.name).isSome then return .error (.duplicatePass e.pass.name)
  else do
    Traced.tell (.registered e.pass.kind e.pass.name)
    return .ok (r ++ [e])

/-- The passes of the profiler. -/
def profiler : Registry :=
  [⟨"Count the loops of every module", .onLoops Profiler.countLoops⟩,
   ⟨"Declare the loop profiler runtime and storage", .onModule Profiler.insertStorage⟩,
   ⟨"Time every loop into its profiling slot", .onLoops Profiler.insertTimer⟩,
   ⟨"Report the loop timings when the entry function returns", .onModule Profiler.insertReport⟩]

/-- The registry of the profiler, with the events of setting it up. -/
def setUp : Traced Registry :=
  ⟨profiler, profiler.map fun e => .registered e.pass.kind e.pass.name⟩

end Registry
end LoopClock
