import LoopClock.Proofs.Run.Plain

/-! A pipeline and the schedule of its names leave the same program and the same context behind and
call the same passes in the same order. For the standard passes that holds of every program. -/
namespace LoopClock

def Event.call? : Event → Option Invocation
  | invoked call => some call
  | _ => none

theorem filterMap_call? (es : List Event) : es.filterMap Event.call? = Event.calls es :=
  List.filterMap_congr fun e _ => by cases e <;> rfl

theorem impartial_call? : Impartial Event.call? :=
  ⟨fun _ _ => rfl, fun _ _ => rfl, fun _ _ => rfl⟩

/-- Passes of distinct names that are registered in forms that do the same are scheduled in the order
in which the pipeline has them, and then either way of running them comes to the same. -/
theorem exists_schedule :
    (∀ (r : Registry) (l : Pipeline), l.names.Nodup → r.Offers Event.call? l → l.validate = .ok () →
      ∃ s, (Schedule.addAll r l.names {}).val = .ok s ∧ s.order = l.names ∧
        ∀ p c, ∃ kept q d, (l.run p c).val = .ok (kept, q, d) ∧
          (s.run p c).val = (.ofBool !kept.isAll, q, d) ∧
          Event.calls (l.run p c).events = Event.calls (s.run p c).events) ∧
    ∀ p c, ∃ run, (Manager.pipeline.run none p c).val = .ok run ∧
      (Manager.schedule.run none p c).val = .ok run ∧
      Event.calls (Manager.pipeline.run none p c).events =
        Event.calls (Manager.schedule.run none p c).events := by
  constructor
  · intro r l hn hr hv
    obtain ⟨s, hadds, horder, hrun⟩ := exists_simulated impartial_call? hn hr hv
    refine ⟨s, hadds.val, horder, fun p c => ?_⟩
    obtain ⟨⟨kept, q, d, hl, hs⟩, hseen⟩ := hrun p c
    refine ⟨kept, q, d, hl, hs, ?_⟩
    rw [← filterMap_call?, ← filterMap_call?, hseen]
  · intro p c
    have hs := Manager.simulated impartial_call? p c
    obtain ⟨run, hok, _⟩ := (Manager.pipeline_completes p c).ok
    refine ⟨run, hok, hs.val.symm.trans hok, ?_⟩
    rw [← filterMap_call?, ← filterMap_call?, hs.seen]

theorem exists_schedule_profiling :
    (Pipeline.profiling {}).names.Nodup ∧ Registry.profiler.Offers Event.call? (Pipeline.profiling {}) ∧
      (Pipeline.profiling {}).validate = .ok () ∧
      ∃ s, (Schedule.addAll Registry.profiler (Pipeline.profiling {}).names {}).val = .ok s ∧
        s.order = ["insert-str", "count-loops", "insert-timer", "insert-report"] := by
  have hn : (Pipeline.profiling {}).names.Nodup := by decide
  have hr : Registry.profiler.Offers Event.call? (Pipeline.profiling {}) :=
    Registry.offers_profiling {}
  have hv := Pipeline.validate_profiling {}
  obtain ⟨s, hs, horder, _⟩ := exists_schedule.1 Registry.profiler (Pipeline.profiling {}) hn hr hv
  exact ⟨hn, hr, hv, s, hs, horder⟩

end LoopClock
