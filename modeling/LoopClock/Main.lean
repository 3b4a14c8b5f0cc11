import LoopClock.Command.Run

/-! The command on real files. -/
namespace LoopClock.Command

/-- The system's text for an error. -/
def systemText : IO.Error → String
  | .noFileOrDirectory .. => "No such file or directory (os error 2)"
  | .permissionDenied .. => "Permission denied (os error 13)"
  | .alreadyExists .. => "File exists (os error 17)"
  | .inappropriateType .. => "Is a directory (os error 21)"
  | .resourceExhausted .. => "No space left on device (os error 28)"
  | e => toString e

def attempt {α : Type} (action : IO α) : IO (Except String α) := do
  match ← action.toBaseIO with
  | .ok a => return .ok a
  | .error e => return .error (systemText e)

def realFiles : Access IO where
  create path := attempt (IO.FS.writeFile path "")
  read path := attempt (IO.FS.readFile path)
  write path text := attempt (IO.FS.writeFile path text)
  print := IO.print
  warn := IO.eprint

end LoopClock.Command

def main (args : List String) : IO UInt32 := LoopClock.Command.run LoopClock.Command.realFiles args
