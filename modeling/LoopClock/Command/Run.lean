import LoopClock.Command.Options
import LoopClock.Source.Parse
import LoopClock.Text.Terminal

/-! The command: read a program, instrument it, print it. It works over any way of reaching files,
so that it can be run on real ones and on a listing kept in memory. -/
namespace LoopClock.Command

/-- A failed access comes with the text that the system has for it. -/
structure Access (m : Type → Type) where
  /-- Makes a file empty, whether it was there or not. -/
  create : String → m (Except String Unit)
  read : String → m (Except String String)
  write : String → String → m (Except String Unit)
  print : String → m Unit
  warn : String → m Unit

def versionLine : String := "loopprof 0.1.0\n"

def usageLine : String := "Usage: loopprof [OPTIONS] [INPUT]\n"

/-- Sets the lines after the first one in by four blanks. -/
def indented (text : String) : String :=
  String.ofList (text.toList.flatMap fun c => if c == '\n' then "\n    ".toList else [c])

/-- Only the report can have something to warn of: pipelines that lack the storage are refused
before they run, and schedules provide it. -/
def warningLine (text : String) : String :=
  Terminal.plain ("[WARN  optimizer::profiler::insert_report] " ++ indented text ++ "\n")

/-- What is printed to the side, what came out, and whether the run succeeded. -/
structure Product where
  warnings : List String
  result : Except Error Run

def instrument (o : Options) (text : String) : Product :=
  match Source.parse text with
  | .error e => ⟨[], .error e.toError⟩
  | .ok p =>
    let r := o.manager.run o.passes p (.ofModule o.config 0)
    ⟨(Event.shown .warn r.events).map (·.2), r.val⟩

/-- A module that was prepared but in which no loop got a slot. -/
def isUntimed (c : Context) : Bool := c.instrumentation.isSome && c.slots == 0

section
variable {m : Type → Type} [Monad m]

def failWith (a : Access m) (text : String) : m UInt32 := do
  a.warn ("Error: " ++ text ++ "\n")
  return 1

/-- The output goes to the file of that name, else to the printer. -/
def emit (a : Access m) (o : Options) (text : String) : m (Except String Unit) :=
  match o.output with
  | some path => a.write path text
  | none => do
    a.print text
    return .ok ()

def finish (a : Access m) (o : Options) (input : String) (r : Run) : m UInt32 := do
  if isUntimed r.context then a.warn ("warning: " ++ input ++ ": no loop was timed\n")
  match ← emit a o r.program.text with
  | .error text => failWith a text
  | .ok () =>
    if o.count then a.warn (Numeral.nat r.context.tally ++ " loops\n")
    return 0

def process (a : Access m) (o : Options) (input : String) : m UInt32 := do
  match ← a.read input with
  | .error text => failWith a (Error.system text).message
  | .ok text =>
    let product := instrument o text
    product.warnings.forM fun w => a.warn (warningLine w)
    match product.result with
    | .error e => failWith a e.message
    | .ok r => finish a o input r

/-- The output file is made before anything is read, so a file can not be changed in place. -/
def runOptions (a : Access m) (o : Options) : m UInt32 := do
  match ← (match o.output with
    | some path => a.create path
    | none => return .ok ()) with
  | .error text => failWith a (Error.system text).message
  | .ok () =>
    match o.input with
    | some input => process a o input
    | none => do
      a.warn "fatal error: no input files\n"
      return 1

/-- Runs the command and returns its exit code. -/
def run (a : Access m) (args : List String) : m UInt32 :=
  match options args with
  | .error .version => do
    a.print versionLine
    return 0
  | .error .help => do
    a.print usageLine
    return 0
  | .error .misuse => do
    a.warn usageLine
    return 2
  | .ok o => runOptions a o

end

end LoopClock.Command
