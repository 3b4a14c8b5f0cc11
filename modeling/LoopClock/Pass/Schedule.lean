import LoopClock.Pass.Registry

/-! Schedules: passes are asked for by name, and whatever they require is scheduled first. Loop
passes scheduled next to each other share one walk over the loops. -/
namespace LoopClock

inductive Stage where
  | onModule (p : ModulePass)
  | onLoops (ps : List LoopPass)

def Stage.names : Stage → List String
  | onModule p => [p.name]
  | onLoops ps => ps.map (·.name)

structure Schedule where
  stages : List Stage := []

namespace Schedule

/-- The names of the scheduled passes in the order in which they run. -/
def order (s : Schedule) : List String := s.stages.flatMap Stage.names

def push (s : Schedule) : Pass → Schedule
  | .onModule p => ⟨s.stages ++ [.onModule p]⟩
  | .onLoops p =>
    match s.stages.getLast? with
    | some (.onLoops ps) => ⟨s.stages.dropLast ++ [.onLoops (ps ++ [p])]⟩
    | _ => ⟨s.stages ++ [.onLoops [p]]⟩

/-- The registered names that are not on `path`. -/
def available (r : Registry) (path : List String) : List String := r.names.filter (· ∉ path)

theorem available_length_lt {r : Registry} {path : List String} {name : String}
    (hr : name ∈ r.names) (hp : name ∉ path) :
    (available r (path ++ [name])).length < (available r path).length := by
  have h : available r (path ++ [name]) = (available r path).filter (· ≠ name) := by
    simp [available, List.filter_filter, Bool.and_comm]
  rw [h]
  exact List.length_filter_lt_length_iff_exists.2 ⟨name, by simp [available, hr, hp], by simp⟩

theorem name_mem_of_get? {r : Registry} {id : String} {e : Entry} (h : r.get? id = some e) :
    e.pass.name ∈ r.names :=
  List.mem_map_of_mem (List.mem_of_find?_eq_some h)

mutual

/-- Schedules `id` after its requirements. `path` holds the passes that are waiting for it, each
for the next one; a pass that comes to wait for itself is an error. What was scheduled before an
error stays scheduled. -/
def resolve (r : Registry) (path : List String) (id : String) (s : Schedule) :
    Traced (Option Error × Schedule) :=
  match _h : r.get? id with
  | none => return (some (.unknownPass id), s)
  | some e =>
    let name := e.pass.name
    if _hp : name ∈ path then return (some (.dependencyCycle name), s)
    else if name ∈ s.order then do
      Traced.tell (.alreadyScheduled name)
      return (none, s)
    else do
      Traced.tellAll (e.pass.usage.analyses.map fun a => .analysisUsed name a)
      let (failure, s) ← resolveAll r (path ++ [name]) name e.pass.usage.required s
      match failure with
      | some error => return (some error, s)
      | none => return (none, s.push e.pass)
termination_by ((available r path).length, 0)
decreasing_by exact Prod.Lex.left _ _ (available_length_lt (name_mem_of_get? _h) _hp)

/-- Schedules what `pass` requires, as far as it is not scheduled yet. -/
def resolveAll (r : Registry) (path : List String) (pass : String) :
    List String → Schedule → Traced (Option Error × Schedule)
  | [], s => return (none, s)
  | q :: qs, s =>
    if q ∈ s.order then resolveAll r path pass qs s
    else do
      Traced.tell (.scheduledFor q pass)
      let (failure, s) ← resolve r path q s
      match failure with
      | some error => return (some error, s)
      | none => resolveAll r path pass qs s
termination_by qs => ((available r path).length, qs.length + 1)

end

/-- Schedules a pass with all it requires. A pass already scheduled is not scheduled again. -/
def add (r : Registry) (s : Schedule) (id : String) : Traced (Option Error × Schedule) :=
  resolve r [] id s

/-- Schedules the passes in turn and stops at the first error. -/
def addAll (r : Registry) : List String → Schedule → Traced (Except Error Schedule)
  | [], s => return .ok s
  | id :: ids, s => do
    match ← add r s id with
    | (some e, _) => return .error e
    | (none, s) => addAll r ids s

/-- The state of a walk over the loops of one function. -/
structure Walk where
  program : Program
  context : Context
  analyses : Analyses
  changed : Bool

/-- Runs the passes on the loop with this header. The loop is looked up again before each pass,
and the rest is skipped once it is gone. A pass that claims to preserve everything is believed. -/
def visit (func : Nat) (header : Int) : List LoopPass → Walk → Traced Walk
  | [], w => return w
  | p :: ps, w =>
    match w.analyses.forest.byHeader? header with
    | none => return w
    | some l => do
      Traced.tell (.loopStarted p.name l)
      Traced.tell (.invoked (.onLoop p.name l w.program func w.analyses))
      let (r, program, context) ← p.run l func w.program w.context
      if !r.isChanged then visit func header ps { w with program, context }
      else if p.usage.preservesAll then
        visit func header ps { w with program, context, changed := true }
      else visit func header ps ⟨program, context, ← program.tracedAnalyses func, true⟩

/-- Visits the loops of a function, inner ones first, in the order found at the start. -/
def walk (ps : List LoopPass) (func : Nat) (p : Program) (c : Context) :
    Traced (PassResult × Program × Context) := do
  let a ← p.tracedAnalyses func
  Traced.tell (.loopsEntered a.forest.loops.length (p.funcName func))
  let w ← a.forest.visitOrder.foldlM (fun w header => visit func header ps w) ⟨p, c, a, false⟩
  return (.ofBool w.changed, w.program, w.context)

def runStage (p : Program) (c : Context) : Stage → Traced (PassResult × Program × Context)
  | .onModule pass => do
    Traced.tell (.moduleStarted pass.name)
    Traced.tell (.invoked (.onModule pass.name p))
    pass.run p c
  | .onLoops ps => walkProgram (walk ps) p c

def runStages : List Stage → Program → Context → Traced (PassResult × Program × Context)
  | [], p, c => return (.noChange, p, c)
  | stage :: stages, p, c => do
    let (r, p, c) ← runStage p c stage
    let (r', p, c) ← runStages stages p c
    return (r.or r', p, c)

def run (s : Schedule) (p : Program) (c : Context) : Traced (PassResult × Program × Context) :=
  runStages s.stages p c

/-- The names that make up the standard schedule. -/
def profilingNames (c : Config) : List String :=
  ["insert-str", "count-loops", "insert-timer"] ++ if c.reportOnExit then ["insert-report"] else []

def profiling (r : Registry) (c : Config) : Traced (Except Error Schedule) :=
  addAll r (profilingNames c) {}

end Schedule
end LoopClock
