import LoopClock.Profile.Storage

/-! Passes. A module pass works on a whole program; a loop pass is shown one loop and works on the
function around it. Both carry a context from pass to pass. -/
namespace LoopClock

/-- What a pass does to a program and the context. -/
abbrev Effect := Program → Context → Traced (PassResult × Program × Context)

structure ModulePass where
  name : String
  usage : Usage
  run : Effect

structure LoopPass where
  name : String
  usage : Usage
  /-- The loop comes with the place of its function. -/
  run : Loop → Nat → Effect

inductive Pass where
  | onModule (p : ModulePass)
  | onLoops (p : LoopPass)

namespace Pass

def name : Pass → String
  | onModule p => p.name
  | onLoops p => p.name

def usage : Pass → Usage
  | onModule p => p.usage
  | onLoops p => p.usage

def kind : Pass → PassKind
  | onModule _ => .onModule
  | onLoops _ => .onLoops

end Pass

/-- Runs `walk` on one function after the other. -/
def walkFuncs (walk : Nat → Effect) : List Nat → Effect
  | [], p, c => return (.noChange, p, c)
  | func :: funcs, p, c => do
    let (r, p, c) ← walk func p c
    let (r', p, c) ← walkFuncs walk funcs p c
    return (r.or r', p, c)

/-- Runs `walk` on every function, and then makes the storage as long as the slots handed out
require. -/
def walkProgram (walk : Nat → Effect) (p : Program) (c : Context) :
    Traced (PassResult × Program × Context) := do
  let (r, p, c) ← walkFuncs walk (List.range p.funcs.length) p c
  match c.instrumentation with
  | none => return (r, p, c)
  | some s =>
    let (grown, p) ← p.syncStorage s
    return (r.or (.ofBool grown), p, c)

end LoopClock
