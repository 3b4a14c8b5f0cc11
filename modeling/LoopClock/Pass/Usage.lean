/-! What a pass needs before it runs and what it leaves intact. -/
namespace LoopClock

inductive Analysis where
  | dominatorTree
  | loopForest
  deriving DecidableEq, Repr

def Analysis.text : Analysis → String
  | dominatorTree => "domtree"
  | loopForest => "loops"

inductive PassKind where
  | onModule
  | onLoops
  deriving DecidableEq, Repr

def PassKind.text : PassKind → String
  | onModule => "module"
  | onLoops => "loop"

/-- `required` names other passes. Neither list holds anything twice. -/
structure Usage where
  required : List String := []
  analyses : List Analysis := []
  preservesAll : Bool := false
  deriving DecidableEq, Repr

namespace Usage

def require (u : Usage) (pass : String) : Usage :=
  if pass ∈ u.required then u else { u with required := u.required ++ [pass] }

def requireAnalysis (u : Usage) (a : Analysis) : Usage :=
  if a ∈ u.analyses then u else { u with analyses := u.analyses ++ [a] }

def requireAll (u : Usage) (passes : List String) : Usage := passes.foldl require u

end Usage
end LoopClock
