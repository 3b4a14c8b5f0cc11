import LoopClock.Profile.Config
import LoopClock.Trace.Traced

/-! Declaring the routines and the storage that the timers need. -/
namespace LoopClock

namespace Program

/-- The instrumentation of a module that has all the declarations already. -/
def instrumentation? (p : Program) (c : Config) : Option Instrumentation :=
  if p.isDeclared c.reportFn && p.isDeclared c.clockFn then
    (p.global? c.storage).map fun g => .ofConfig c g.len
  else none

/-- Replaces the first global of a name. -/
def updateGlobal (p : Program) (name : String) (f : Global → Global) : Program :=
  match p.globals.findIdx? (·.name == name) with
  | some i => { p with globals := p.globals.modify i f }
  | none => p

/-- Grows the first global of a name, and tells whether there was one and it grew. -/
def growGlobal (p : Program) (name : String) (len : Nat) : Bool × Program :=
  match p.global? name with
  | some g => ((g.growTo len).1, p.updateGlobal name fun g => (g.growTo len).2)
  | none => (false, p)

/-- Grows the storage to the required length. -/
def syncStorage (p : Program) (s : Instrumentation) : Traced (Bool × Program) := do
  let (grown, p) := p.growGlobal s.storage.name s.len
  if grown then Traced.tell (.storageGrown s.storage s.len)
  return (grown, p)

def declare (p : Program) (d : Decl) : Traced (PassResult × Program) :=
  if p.isDeclared d.name then do
    Traced.tell (.routineReused d.name)
    return (.noChange, p)
  else do
    Traced.tell (.routineDeclared d)
    return (.changed, { p with decls := p.decls ++ [d] })

/-- The natural loops of all functions. -/
def countLoops (p : Program) : Traced Nat :=
  (List.range p.funcs.length).foldlM
    (fun n func => do return n + (← p.tracedAnalyses func).forest.loops.length) 0

/-- The storage has at least one element for each loop, unless the module brings its own. -/
def defineStorage (p : Program) (c : Config) : Traced (PassResult × Nat × Program) :=
  match p.global? c.storage with
  | some g => do
    Traced.tell (.storageReused c.storage g.len)
    return (.noChange, g.len, p)
  | none => do
    let len := max (← p.countLoops) c.minSlots
    let g := Global.zeroed c.storage len slotBits
    Traced.tell (.storageDefined g)
    return (.changed, len, { p with globals := p.globals ++ [g] })

def reportDecl (c : Config) : Decl := ⟨c.reportFn, .void, [.i64Ptr, .i32], true⟩

def clockDecl (c : Config) : Decl := ⟨c.clockFn, .i64, [], false⟩

/-- Adds what is missing of the two routines and the storage. -/
def prepare (p : Program) (c : Config) : Traced (PassResult × Instrumentation × Program) :=
  match p.instrumentation? c with
  | some s => do
    Traced.tell (.storageReused c.storage s.len)
    return (.noChange, s, p)
  | none => do
    let (r₁, p) ← p.declare (reportDecl c)
    let (r₂, p) ← p.declare (clockDecl c)
    let (r₃, len, p) ← p.defineStorage c
    return ((r₁.or r₂).or r₃, .ofConfig c len, p)

end Program
end LoopClock
