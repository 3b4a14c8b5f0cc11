import LoopClock.Proofs.Flow.Once
import LoopClock.Proofs.Program.Contained
import LoopClock.Proofs.Run.Calls

/-! No loop pass is called on what is out of date. Passes may lead edges elsewhere as they like, as long as
they report it. -/
namespace LoopClock
open LoopCall

/-- The calls that a walk makes are those that fresh analyses would give for each header of the visiting
order found at the start, whichever manager walks. No loop is in that order twice, nor is a header, where
ids tell the blocks apart. -/
theorem loop_calls_up_to_date {xs : List LoopPass} (hxs : ∀ x ∈ xs, x.Reports) (func : Nat) (p : Program)
    (c : Context) :
    let a := (p.flow func).analyses
    let start := (p.tracedAnalyses func).events ++ [.loopsEntered a.forest.loops.length (p.funcName func)]
    (a.forest.postOrder.Nodup ∧ ((p.ids func).Nodup → a.forest.visitOrder.Nodup)) ∧
    ∃ calls t, Visits func xs a.forest.visitOrder (p, c) calls t ∧ (∀ k ∈ calls, k.UpToDate func) ∧
      (Pipeline.walk xs func p c).val.2 = t ∧
      (Pipeline.walk xs func p c).events = start ++ calls.flatMap (Pipeline.told func) ∧
      ((∀ x ∈ xs, x.Preserves) → (Schedule.walk xs func p c).val.2 = t ∧
        (Schedule.walk xs func p c).events = start ++ calls.flatMap (Schedule.told func)) := by
  intro a start
  constructor
  · refine ⟨Flow.nodup_postOrder _, fun hn => Flow.nodup_visitOrder ?_⟩
    rwa [Program.ids_flow]
  · obtain ⟨calls, hvisits, hevents⟩ := Pipeline.walk_calls hxs func p c
    refine ⟨calls, _, hvisits, hvisits.upToDate, rfl, ?_, ?_⟩
    · simpa [start] using hevents
    · intro hks
      obtain ⟨calls', hvisits', hevents'⟩ := Schedule.walk_calls hxs hks func p c
      obtain ⟨rfl, hstate⟩ := hvisits.unique hvisits'
      refine ⟨hstate.symm, ?_⟩
      simpa [start] using hevents'

/-- Leads the edge by which `B3` goes back to `B2` on to `B4`, after which `B2` heads no loop. -/
def Source.unloop : LoopPass where
  name := "unloop"
  usage := {}
  run _ _ p c := return (.changed, Program.reroute ⟨0, 2⟩ ⟨0, 4⟩ p ⟨0, 3⟩, c)

/-- The pass and the header that a call of a loop pass is about. -/
def Event.loopCall? : Event → Option (String × Int)
  | .invoked (.onLoop x l ..) => some (x, l.header.id)
  | _ => none

/-- The second pass is not called for `B2`, whose loop the first one has undone, and is called for `B1`. -/
theorem loop_calls_up_to_date_nested : ∃ xs : List LoopPass, ∃ calls t,
    (∀ x ∈ xs, x.Reports) ∧ (∀ x ∈ xs, x.Preserves) ∧
    (Source.nested.flow 0).analyses.forest.visitOrder.Nodup ∧
    Visits 0 xs [2, 1] (Source.nested, .ofModule {} 0) calls t ∧ (∀ k ∈ calls, k.UpToDate 0) ∧
    (Schedule.walk xs 0 Source.nested (.ofModule {} 0)).val.2 = t ∧
    (Schedule.walk xs 0 Source.nested (.ofModule {} 0)).events.filterMap Event.loopCall? =
      [("unloop", 2), ("unloop", 1), ("count-loops", 1)] := by
  have horder : (Source.nested.flow 0).analyses.forest.visitOrder = [2, 1] := by decide +kernel
  have hreports : ∀ x ∈ [Source.unloop, Profiler.countLoops], x.Reports := by
    simp only [List.forall_mem_cons]
    exact ⟨fun _ _ _ _ h => (nomatch h), fun _ _ _ _ _ => rfl, fun _ h => nomatch h⟩
  have hpreserves : ∀ x ∈ [Source.unloop, Profiler.countLoops], x.Preserves := by
    simp only [List.forall_mem_cons]
    exact ⟨fun h => (nomatch h), fun _ _ _ _ _ => rfl, fun _ h => nomatch h⟩
  obtain ⟨⟨-, hnodup⟩, calls, t, hvisits, hfresh, -, -, hschedule⟩ :=
    loop_calls_up_to_date hreports 0 Source.nested (.ofModule {} 0)
  rw [horder] at hvisits
  exact ⟨_, calls, t, hreports, hpreserves, hnodup (by decide), hvisits, hfresh,
    (hschedule hpreserves).1, by decide +kernel⟩

end LoopClock
