import LoopClock.Profile.Config
import LoopClock.Trace.Traced

/-! Handing the storage to the report routine right before a function returns. -/
namespace LoopClock

namespace Report

def call (s : Instrumentation) (slots : Nat) : Instr :=
  .call none .void s.reportFn [(.i64Ptr, .temp s.storage), (.i32, .int (Int32.ofNat slots))]

/-- Whether the block returns without having reported. -/
def isMissing (s : Instrumentation) (b : Block) : Bool :=
  b.isRet && !b.body.any (·.callee? == some s.reportFn)

def insertInto (s : Instrumentation) (slots : Nat) (b : Block) : Block :=
  if isMissing s b then { b with body := b.body ++ [call s slots] } else b

/-- Only the first function of the name `entry` reports. -/
def insert (p : Program) (s : Instrumentation) (slots : Nat) (entry : String) :
    Traced (PassResult × Program) :=
  if !p.isDeclared s.reportFn then do
    Traced.tell (.reportUndeclared s.reportFn)
    return (.noChange, p)
  else match p.funcIdx? entry, p.func? entry with
    | some i, some f => do
      let missing := f.blocks.filter (isMissing s)
      Traced.tellAll (missing.map fun b => .reportInserted slots b.id)
      let blocks := f.blocks.map (insertInto s slots)
      return (.ofBool !missing.isEmpty, { p with funcs := p.funcs.set i { f with blocks } })
    | _, _ => do
      Traced.tell (.entryMissing entry)
      return (.noChange, p)

end Report
end LoopClock
