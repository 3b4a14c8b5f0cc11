/-! The ways in which a run can fail, and what is printed for each. -/
namespace LoopClock

inductive Error where
  | irSyntax (detail : String)
  | system (detail : String)
  | unknownPass (pass : String)
  | duplicatePass (pass : String)
  | dependencyCycle (pass : String)
  | unscheduled (pass required : String)
  deriving DecidableEq, Repr

def Error.message : Error → String
  | irSyntax detail => "ir syntax error: " ++ detail
  | system detail => "system error: " ++ detail
  | unknownPass pass => "unknown pass '" ++ pass ++ "'"
  | duplicatePass pass => "pass '" ++ pass ++ "' is already registered"
  | dependencyCycle pass => "pass dependency cycle through '" ++ pass ++ "'"
  | unscheduled pass required =>
    "pass '" ++ pass ++ "' requires '" ++ required ++ "' to be scheduled before it"

end LoopClock
