import LoopClock.Trace.Event

/-! Results together with the events on the way to them. Events never decide anything: the value
of a composed computation is the composition of the values. -/
namespace LoopClock

structure Traced (α : Type) where
  val : α
  events : List Event

namespace Traced

instance : Monad Traced where
  pure a := ⟨a, []⟩
  bind x f := ⟨(f x.val).val, x.events ++ (f x.val).events⟩

def tell (e : Event) : Traced Unit := ⟨(), [e]⟩

def tellAll (es : List Event) : Traced Unit := ⟨(), es⟩

section
variable {α β σ : Type}

@[simp] theorem val_pure (a : α) : (pure a : Traced α).val = a := rfl

@[simp] theorem events_pure (a : α) : (pure a : Traced α).events = [] := rfl

@[simp] theorem val_bind (x : Traced α) (f : α → Traced β) : (x >>= f).val = (f x.val).val := rfl

@[simp] theorem events_bind (x : Traced α) (f : α → Traced β) :
    (x >>= f).events = x.events ++ (f x.val).events := rfl

end

end Traced

def Program.tracedAnalyses (p : Program) (func : Nat) : Traced Analyses :=
  let a := (p.flow func).analyses
  ⟨a, a.forest.loops.map .loopFound⟩

end LoopClock
