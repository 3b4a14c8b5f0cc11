import LoopClock.Pass.Manager

/-! The command line. Options are long, but for `-o`; values follow as the next argument or behind
an equals sign. The first thing that decides the outcome, read from the left, decides it. -/
namespace LoopClock.Command

inductive Flag where
  | legacy
  | noReport
  | count
  deriving DecidableEq, Repr

inductive Setting where
  | passes
  | reportFn
  | clockFn
  | storage
  | entry
  | output
  deriving DecidableEq, Repr

def flag? : String → Option Flag
  | "legacy" => some .legacy
  | "no-report" => some .noReport
  | "count" => some .count
  | _ => none

def setting? : String → Option Setting
  | "passes" => some .passes
  | "report-fn" => some .reportFn
  | "clock-fn" => some .clockFn
  | "storage" => some .storage
  | "entry" => some .entry
  | _ => none

/-- Why no program is read. -/
inductive Halt where
  | version
  | help
  | misuse
  deriving DecidableEq, Repr

/-- The arguments read so far. Settings are in the order in which they are given. -/
structure Given where
  flags : List Flag := []
  settings : List (Setting × String) := []
  input : Option String := none

namespace Given

def addFlag (g : Given) (f : Flag) : Except Halt Given :=
  if f ∈ g.flags then .error .misuse else .ok { g with flags := g.flags ++ [f] }

/-- Only the list of passes may be given in several parts. -/
def addSetting (g : Given) (s : Setting) (v : String) : Except Halt Given :=
  if s ≠ .passes ∧ s ∈ g.settings.map (·.1) then .error .misuse
  else .ok { g with settings := g.settings ++ [(s, v)] }

def addInput (g : Given) (v : String) : Except Halt Given :=
  if g.input.isSome then .error .misuse else .ok { g with input := some v }

def get? (g : Given) (s : Setting) : Option String := g.settings.lookup s

def getAll (g : Given) (s : Setting) : List String := (g.settings.filter (·.1 == s)).map (·.2)

end Given

/-- An argument that starts with a hyphen is an option, unless it is nothing else. -/
def isOption (a : String) : Bool := a.startsWith "-" && a != "-"

/-- What an argument is: one part of an option's name and its value, or plain text. -/
inductive Shape where
  | endOfOptions
  | long (name : String) (value : Option String)
  | short (letter : Char) (rest : List Char)
  | plain
  deriving DecidableEq, Repr

def shape (a : String) : Shape :=
  match a.toList with
  | ['-', '-'] => .endOfOptions
  | '-' :: '-' :: cs =>
    let name := String.ofList (cs.takeWhile (· != '='))
    match cs.dropWhile (· != '=') with
    | _ :: v => .long name (some (String.ofList v))
    | [] => .long name none
  | '-' :: c :: cs => .short c cs
  | _ => .plain

/-- The value written directly behind a one-letter option. -/
def attached : List Char → Option String
  | [] => none
  | '=' :: v => some (String.ofList v)
  | v => some (String.ofList v)

/-- A long option that takes no value. -/
def longFlag (g : Given) (name : String) : Except Halt Given :=
  match flag? name with
  | some f => g.addFlag f
  | none => .error (if name = "version" then .version else if name = "help" then .help else .misuse)

/-- Reads one argument that is not the value of the one before it. The setting that is returned
has its value in the next argument. -/
def readArg (g : Given) : Shape → Except Halt (Option Setting × Given)
  | .long name (some v) =>
    match setting? name with
    | some s => return (none, ← g.addSetting s v)
    | none => .error .misuse
  | .long name none =>
    match setting? name with
    | some s => .ok (some s, g)
    | none => return (none, ← longFlag g name)
  | .short 'o' cs =>
    match attached cs with
    | some v => return (none, ← g.addSetting .output v)
    | none => .ok (some .output, g)
  | .short 'V' _ => .error .version
  | .short 'h' _ => .error .help
  | .short .. => .error .misuse
  | .plain | .endOfOptions => .ok (none, g)

/-- Reads arguments; `pending` is the setting that the next one is the value of. Such a value must
not look like an option. -/
def readArgs : Option Setting → List String → Given → Except Halt Given
  | none, [], g => .ok g
  | some _, [], _ => .error .misuse
  | some s, a :: rest, g =>
    if isOption a then .error .misuse else do readArgs none rest (← g.addSetting s a)
  | none, a :: rest, g =>
    match shape a with
    | .endOfOptions => rest.foldlM Given.addInput g
    | .plain => do readArgs none rest (← g.addInput a)
    | sh => do
      let (pending, g) ← readArg g sh
      readArgs pending rest g

structure Options where
  manager : Manager
  passes : Option (List String)
  config : Config
  count : Bool
  output : Option String
  input : Option String
  deriving DecidableEq, Repr

/-- The parts of a text between commas. There is one more than there are commas. -/
def splitCommas (cs : List Char) : List (List Char) :=
  match cs with
  | [] => [[]]
  | c :: cs =>
    match c == ',', splitCommas cs with
    | true, parts => [] :: parts
    | false, part :: parts => (c :: part) :: parts
    | false, [] => [[c]]

def Given.passes (g : Given) : Option (List String) :=
  match g.getAll .passes with
  | [] => none
  | lists => some (lists.flatMap fun l => (splitCommas l.toList).map String.ofList)

def Given.options (g : Given) : Options :=
  let standard : Config := {}
  { manager := if .legacy ∈ g.flags then .schedule else .pipeline
    passes := g.passes
    config := { reportFn := (g.get? .reportFn).getD standard.reportFn
                clockFn := (g.get? .clockFn).getD standard.clockFn
                storage := (g.get? .storage).getD standard.storage
                entryFn := (g.get? .entry).getD standard.entryFn
                minSlots := standard.minSlots
                reportOnExit := !(.noReport ∈ g.flags) }
    count := .count ∈ g.flags
    output := g.get? .output
    input := g.input }

def options (args : List String) : Except Halt Options := do
  return (← readArgs none args {}).options

end LoopClock.Command
