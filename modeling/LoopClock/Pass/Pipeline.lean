import LoopClock.Error
import LoopClock.Pass.Profiler
import LoopClock.Text.Blank

/-! Pipelines: module passes, then every loop pass on every loop, then late module passes. A
pipeline runs only if each pass finds what it requires among the module passes before it. -/
namespace LoopClock

structure Pipeline where
  modulePasses : List ModulePass := []
  loopPasses : List LoopPass := []
  latePasses : List ModulePass := []

namespace Pipeline

def names (p : Pipeline) : List String :=
  p.modulePasses.map (·.name) ++ p.loopPasses.map (·.name) ++ p.latePasses.map (·.name)

def check (done : List String) (name : String) (u : Usage) : Except Error Unit :=
  match u.required.find? (· ∉ done) with
  | some required => .error (.unscheduled name required)
  | none => .ok ()

/-- Checks module passes in order; each one counts as done for those after it. -/
def checkModules (done : List String) : List ModulePass → Except Error (List String)
  | [] => .ok done
  | p :: ps => do
    check done p.name p.usage
    checkModules (done ++ [p.name]) ps

def validate (p : Pipeline) : Except Error Unit := do
  let done ← checkModules [] p.modulePasses
  for q in p.loopPasses do
    check done q.name q.usage
  discard (checkModules done p.latePasses)

/-- The state of a walk over the loops of one function. -/
structure Walk where
  program : Program
  context : Context
  analyses : Analyses
  preserved : Preserved

/-- Runs the passes on the loop with this header. The loop is looked up again before each pass,
and the rest is skipped once it is gone. -/
def visit (func : Nat) (header : Int) : List LoopPass → Walk → Traced Walk
  | [], w => return w
  | p :: ps, w =>
    match w.analyses.forest.byHeader? header with
    | none => return w
    | some l => do
      Traced.tell (.invoked (.onLoop p.name l w.program func w.analyses))
      let (r, program, context) ← p.run l func w.program w.context
      if (Preserved.ofResult r).isAll then visit func header ps { w with program, context }
      else visit func header ps ⟨program, context, ← program.tracedAnalyses func, .none⟩

/-- Visits the loops of a function, inner ones first, in the order found at the start. -/
def walk (ps : List LoopPass) (func : Nat) (p : Program) (c : Context) :
    Traced (PassResult × Program × Context) := do
  let a ← p.tracedAnalyses func
  Traced.tell (.loopsEntered a.forest.loops.length (p.funcName func))
  let w ← a.forest.visitOrder.foldlM (fun w header => visit func header ps w) ⟨p, c, a, .all⟩
  return (.ofBool !w.preserved.isAll, w.program, w.context)

def runModules : List ModulePass → Program → Context → Traced (Preserved × Program × Context)
  | [], p, c => return (.all, p, c)
  | pass :: passes, p, c => do
    Traced.tell (.moduleStarted pass.name)
    Traced.tell (.invoked (.onModule pass.name p))
    let (r, p, c) ← pass.run p c
    let (kept, p, c) ← runModules passes p c
    return ((Preserved.ofResult r).and kept, p, c)

def runLoops (ps : List LoopPass) (p : Program) (c : Context) :
    Traced (Preserved × Program × Context) :=
  if ps.isEmpty then return (.all, p, c)
  else do
    let (r, p, c) ← walkProgram (walk ps) p c
    return (.ofResult r, p, c)

def run (l : Pipeline) (p : Program) (c : Context) :
    Traced (Except Error (Preserved × Program × Context)) :=
  match l.validate with
  | .error e => return .error e
  | .ok () => do
    let (first, p, c) ← runModules l.modulePasses p c
    let (middle, p, c) ← runLoops l.loopPasses p c
    let (last, p, c) ← runModules l.latePasses p c
    return .ok ((first.and middle).and last, p, c)

def profiling (c : Config) : Pipeline where
  modulePasses := [Profiler.insertStorage]
  loopPasses := [Profiler.countLoops, Profiler.insertTimer]
  latePasses := if c.reportOnExit then [Profiler.insertReport] else []

/-- Module passes that come after a loop pass are late. -/
def addModule (l : Pipeline) (p : ModulePass) : Pipeline :=
  if l.loopPasses.isEmpty then { l with modulePasses := l.modulePasses ++ [p] }
  else { l with latePasses := l.latePasses ++ [p] }

def addLoop (l : Pipeline) (p : LoopPass) : Pipeline := { l with loopPasses := l.loopPasses ++ [p] }

def addNamed (l : Pipeline) (name : String) : Except Error Pipeline :=
  if name = Profiler.countLoops.name then .ok (l.addLoop Profiler.countLoops)
  else if name = Profiler.insertTimer.name then .ok (l.addLoop Profiler.insertTimer)
  else if name = Profiler.insertStorage.name then .ok (l.addModule Profiler.insertStorage)
  else if name = Profiler.insertReport.name then .ok (l.addModule Profiler.insertReport)
  else .error (.unknownPass name)

/-- The pipeline a list of names stands for. Blanks around a name do not count. -/
def ofNames (names : List String) : Except Error Pipeline :=
  names.foldlM (fun l name => l.addNamed (trimmed name)) {}

end Pipeline
end LoopClock
