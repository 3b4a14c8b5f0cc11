import LoopClock.Proofs.Flow.LoopForest
import LoopClock.Proofs.Run.Scheduling

/-! What the standard passes do, apart from how they are ordered and how often analyses are made: every
loop of every function is timed in the order of visits. Both ways of ordering the passes come to this. -/
namespace LoopClock

/-! ## Announced timers -/

/-- Header, function and slot of a timer. -/
abbrev Announced := Int × String × Nat

def Event.timed? : Event → Option Announced
  | loopTimed header func slot _ => some (header, func, slot)
  | _ => none

/-- The timers that a run announces, in order. -/
def timers (es : List Event) : List Announced := es.filterMap Event.timed?

theorem timers_append (es fs : List Event) : timers (es ++ fs) = timers es ++ timers fs :=
  List.filterMap_append

/-- What is done to loops and to the storage. -/
def Event.work? : Event → Option Event
  | loopTimed header func slot exits => some (.loopTimed header func slot exits)
  | storageGrown storage len => some (.storageGrown storage len)
  | _ => none

def works (es : List Event) : List Event := es.filterMap Event.work?

theorem works_append (es fs : List Event) : works (es ++ fs) = works es ++ works fs :=
  List.filterMap_append

theorem works_cons (e : Event) (es : List Event) :
    works (e :: es) = e.work?.toList ++ works es := by
  cases e <;> rfl

/-- Announcing a timer is work. -/
theorem timers_works (es : List Event) : timers (works es) = timers es := by
  rw [timers, works, List.filterMap_filterMap]
  exact List.filterMap_congr fun e _ => by cases e <;> rfl

theorem timers_of_works {es : List Event} (h : works es = []) : timers es = [] := by
  rw [← timers_works, h]
  rfl

theorem works_tracedAnalyses (p : Program) (func : Nat) :
    works (p.tracedAnalyses func).events = [] := by
  simp [Program.tracedAnalyses, works, Event.work?]

/-! ## Timing loops -/

/-- A program and the context it is worked on with. -/
abbrev Progress := Program × Context

/-- Counts the loop with this header and times it. -/
def timeLoop (func : Nat) (s : Progress) (header : Int) : Traced Progress :=
  match (s.1.flow func).forest.byHeader? header with
  | none => return s
  | some l =>
    let c := { s.2 with tally := s.2.tally + 1 }
    match c.instrumentation with
    | none => return (s.1, c)
    | some i => do
      let (_, t) ← Timer.time l func ⟨s.1, i, c.slots⟩
      return (t.program, { c with slots := t.slots, instrumentation := some t.instrumentation })

/-- Times the loops of a function, inner ones first, in the order found at the start. -/
def timeFunc (s : Progress) (func : Nat) : Traced Progress :=
  (s.1.flow func).forest.visitOrder.foldlM (timeLoop func) s

theorem works_dedicateExits (p : Program) (func : Nat) (l : Loop) :
    works (p.dedicateExits func l).events = [] := by
  have step : ∀ s x, works (Program.dedicateExit func l s x).events = [] := fun s x => by
    simp only [Program.dedicateExit]
    split <;> rfl
  suffices h : ∀ xs s, works (List.foldlM (Program.dedicateExit func l) s xs).events = [] from
    h _ _
  intro xs
  induction xs with
  | nil => exact fun _ => rfl
  | cons x xs ih =>
    intro s
    rw [List.foldlM_cons, Traced.events_bind, works_append, step, ih, List.nil_append]

namespace Timer

variable (l : Loop) (func : Nat) (t : TimerState)

theorem time_of_no_exits (h : t.program.exitBlocks l = []) :
    (time l func t).val = (.noChange, t) ∧ works (time l func t).events = [] := by
  rw [time, if_pos h]
  exact ⟨rfl, rfl⟩

theorem val_time_of_exits (h : t.program.exitBlocks l ≠ []) : (time l func t).val = (.changed,
    let p := (t.program.dedicateExits func l).val.1
    let s := (t.instrumentation.require t.slots).2
    ⟨place p func s t.slots l.header (p.exitBlocks l), s, t.slots + 1⟩) := by
  rw [time, if_neg h]
  simp only [Traced.val_bind]
  split <;> split <;> rfl

variable {l func t} in
theorem time_of_quiet (h : (time l func t).val.1.isChanged = false) : (time l func t).val.2 = t := by
  by_cases he : t.program.exitBlocks l = []
  · rw [(time_of_no_exits l func t he).1]
  · rw [val_time_of_exits l func t he] at h
    cases h

/-- Timing a loop announces the timer, with the number of exits that the loop has by then. -/
theorem works_time_of_exits (h : t.program.exitBlocks l ≠ []) :
    works (time l func t).events = [.loopTimed l.header.id (t.program.funcName func) t.slots
      ((t.program.dedicateExits func l).val.1.exitBlocks l).length] := by
  have hd := works_dedicateExits t.program func l
  rw [time, if_neg h]
  simp only [Traced.events_bind]
  rw [works_append, hd]
  split <;> split <;> rfl

theorem timers_time_of_exits (h : t.program.exitBlocks l ≠ []) :
    timers (time l func t).events = [(l.header.id, t.program.funcName func, t.slots)] := by
  rw [← timers_works, works_time_of_exits l func t h]
  rfl

end Timer

/-! ## The passes on loops -/

/-- The passes on loops of a standard run, in the order in which they are run on each loop. -/
abbrev timing : List LoopPass := [Profiler.countLoops, Profiler.insertTimer]

namespace Pipeline

/-- Analyses are made anew after each change, so they are always those of the program at hand. -/
def Walk.Current (func : Nat) (w : Walk) : Prop := w.analyses = (w.program.flow func).analyses

abbrev Walk.progress (w : Walk) : Progress := (w.program, w.context)

theorem visit_like {func : Nat} {header : Int} {w : Walk} (hw : w.Current func) :
    (visit func header timing w).Like Event.work? Walk.progress (timeLoop func w.progress header) ∧
      (visit func header timing w).val.Current func := by
  have hf : w.analyses.forest = (w.program.flow func).forest := by rw [hw]; rfl
  simp only [timeLoop, visit, ← hf]
  cases hl : w.analyses.forest.byHeader? header with
  | none => exact ⟨⟨rfl, rfl⟩, hw⟩
  | some l =>
    have hkept : (Preserved.ofResult PassResult.noChange).isAll = true := rfl
    have hlost : (Preserved.ofResult PassResult.changed).isAll = false := rfl
    cases hi : w.context.instrumentation with
    | none =>
      refine ⟨⟨?_, ?_⟩, ?_⟩
      · simp [Profiler.countLoops, Profiler.insertTimer, hkept, hi]
      · show works _ = works _
        simp [Profiler.countLoops, Profiler.insertTimer, hkept, hi, Traced.tell, works_cons,
          Event.work?]
      · simp only [Profiler.countLoops, Profiler.insertTimer, hkept, hi, if_true, Traced.val_bind,
          Traced.val_pure]
        exact hw
    | some i =>
      by_cases he : w.program.exitBlocks l = []
      · have hval := (Timer.time_of_no_exits l func ⟨w.program, i, w.context.slots⟩ he).1
        refine ⟨⟨?_, ?_⟩, ?_⟩
        · simp [Profiler.countLoops, Profiler.insertTimer, hkept, hi, hval]
        · show works _ = works _
          simp [Profiler.countLoops, Profiler.insertTimer, hkept, hi, hval, Traced.tell, works_cons,
            Event.work?]
        · simp only [Profiler.countLoops, Profiler.insertTimer, hkept, hi, hval, if_true,
            Traced.val_bind, Traced.val_pure]
          exact hw
      · have hval := Timer.val_time_of_exits l func ⟨w.program, i, w.context.slots⟩ he
        refine ⟨⟨?_, ?_⟩, ?_⟩
        · simp [Profiler.countLoops, Profiler.insertTimer, hkept, hlost, hi, hval]
        · show works _ = works _
          simp [Profiler.countLoops, Profiler.insertTimer, hkept, hlost, hi, hval, Traced.tell,
            works_append, works_cons, Event.work?, works_tracedAnalyses]
        · simp only [Profiler.countLoops, Profiler.insertTimer, hkept, hlost, hi, hval, if_true,
            Traced.val_bind, Traced.val_pure, Bool.false_eq_true, if_false]
          rfl

theorem walk_like (func : Nat) (p : Program) (c : Context) :
    (walk timing func p c).Like Event.work? (·.2) (timeFunc (p, c) func) := by
  refine .silent (works_tracedAnalyses p func) (.silent rfl ?_)
  have h := Traced.Like.foldlM (I := Walk.Current func) (f := Walk.progress)
    (p.flow func).forest.visitOrder (fun w header hw => @visit_like func header w hw)
    ⟨p, c, (p.flow func).analyses, .all⟩ rfl
  exact h.mapped rfl

end Pipeline

/-! ## Whole runs -/

/-- Times the loops of all functions, and makes the storage as long as the slots require. -/
def timeProgram (s : Progress) : Traced Progress := do
  let s ← (List.range s.1.funcs.length).foldlM timeFunc s
  match s.2.instrumentation with
  | none => return s
  | some i => do
    let (_, p) ← s.1.syncStorage i
    return (p, s.2)

def reportTo (s : Progress) : Traced Progress :=
  match s.2.instrumentation with
  | none => return s
  | some i => do
    let (_, p) ← Report.insert s.1 i s.2.slots s.2.config.entryFn
    return (p, s.2)

/-- Makes the storage known to the passes that follow. -/
def provideStorage (s : Progress) : Traced Progress := do
  let (_, i, p) ← s.1.prepare s.2.config
  return (p, { s.2 with instrumentation := some i })

/-- A standard run: the storage, the timers, the report. -/
def instrument (p : Program) (c : Context) : Traced Progress := do
  let s ← provideStorage (p, c)
  let s ← timeProgram s
  if c.config.reportOnExit then reportTo s else return s

theorem walkFuncs_like {walk : Nat → Effect}
    (h : ∀ func p c, (walk func p c).Like Event.work? (·.2) (timeFunc (p, c) func)) (funcs : List Nat)
    (p : Program) (c : Context) :
    (walkFuncs walk funcs p c).Like Event.work? (·.2) (funcs.foldlM timeFunc (p, c)) := by
  induction funcs generalizing p c with
  | nil => exact ⟨rfl, rfl⟩
  | cons func funcs ih =>
    rw [walkFuncs, List.foldlM_cons]
    refine (h func p c).bind ?_
    rw [← (h func p c).val]
    exact (ih (walk func p c).val.2.1 (walk func p c).val.2.2).mapped rfl

theorem walkProgram_like {walk : Nat → Effect}
    (h : ∀ func p c, (walk func p c).Like Event.work? (·.2) (timeFunc (p, c) func)) (p : Program)
    (c : Context) :
    (walkProgram walk p c).Like Event.work? (·.2) (timeProgram (p, c)) := by
  have hf := walkFuncs_like h (List.range p.funcs.length) p c
  refine hf.bind ?_
  rw [← hf.val]
  generalize (walkFuncs walk (List.range p.funcs.length) p c).val = r
  obtain ⟨r, p, c⟩ := r
  dsimp only
  cases c.instrumentation with
  | none => exact ⟨rfl, rfl⟩
  | some i => exact ⟨rfl, rfl⟩

theorem insertStorage_like (p : Program) (c : Context) :
    (Profiler.insertStorage.run p c).Like Event.work? (·.2) (provideStorage (p, c)) :=
  .bind (f := id) ⟨rfl, rfl⟩ ⟨rfl, rfl⟩

theorem insertReport_like (p : Program) (c : Context) :
    (Profiler.insertReport.run p c).Like Event.work? (·.2) (reportTo (p, c)) := by
  simp only [Profiler.insertReport, reportTo]
  cases c.instrumentation with
  | none => exact .silent rfl ⟨rfl, rfl⟩
  | some i => exact ⟨rfl, rfl⟩

namespace Pipeline

theorem runModules_like {pass : ModulePass} {p : Program} {c : Context} {y : Traced Progress}
    (h : (pass.run p c).Like Event.work? (·.2) y) : (runModules [pass] p c).Like Event.work? (·.2) y :=
  .silent rfl (.silent rfl (h.mapped rfl))

/-- What a run leaves behind. A run that fails is taken to leave nothing. -/
def outcome (c : Context) : Except Error (Preserved × Program × Context) → Progress
  | .ok r => r.2
  | .error _ => ({}, c)

theorem validate_profiling (c : Config) : (profiling c).validate = .ok () := by
  simp only [validate, profiling]
  split <;> rfl

theorem run_like (p : Program) (c : Context) :
    ((profiling c.config).run p c).Like Event.work? (outcome c) (instrument p c) ∧
      ∃ r, ((profiling c.config).run p c).val = .ok r := by
  have hlate : ∀ s : Progress, (runModules (profiling c.config).latePasses s.1 s.2).Like Event.work? (·.2)
      (if c.config.reportOnExit then reportTo s else pure s) := fun s => by
    simp only [profiling]
    split
    · exact runModules_like (insertReport_like s.1 s.2)
    · exact ⟨rfl, rfl⟩
  have hfirst := runModules_like (insertStorage_like p c)
  simp only [run, validate_profiling]
  refine ⟨hfirst.bind ?_, ⟨_, rfl⟩⟩
  rw [← hfirst.val]
  have hmiddle : ∀ s : Progress, (runLoops timing s.1 s.2).Like Event.work? (·.2) (timeProgram s) :=
    fun s => (walkProgram_like walk_like s.1 s.2).mapped rfl
  refine (hmiddle _).bind ?_
  rw [← (hmiddle _).val]
  exact (hlate _).mapped rfl

end Pipeline

/-- A run of the standard passes comes to `y`, and it ends without an error. -/
structure Completes (x : Traced (Except Error Run)) (y : Traced Progress) : Prop where
  ok : ∃ r, x.val = .ok r ∧ (r.program, r.context) = y.val
  works : works x.events = works y.events

theorem Completes.timers {x : Traced (Except Error Run)} {y : Traced Progress}
    (h : Completes x y) : timers x.events = timers y.events := by
  rw [← timers_works, h.works, timers_works]

theorem Manager.pipeline_completes (p : Program) (c : Context) :
    Completes (Manager.pipeline.run none p c) (instrument p c) := by
  obtain ⟨h, r, hr⟩ := Pipeline.run_like p c
  have hval := h.val
  rw [hr] at hval
  constructor
  · refine ⟨⟨(Pipeline.profiling c.config).names, !r.1.isAll, r.2.1, r.2.2⟩, ?_, hval⟩
    show (Manager.runPipeline none p c).val = _
    simp only [Manager.runPipeline, Option.elim_none, Traced.val_bind, hr]
    rfl
  · show LoopClock.works (Manager.runPipeline none p c).events = _
    simp only [Manager.runPipeline, Option.elim_none, Traced.events_bind, hr, works_append]
    exact (List.append_nil _).trans h.seen

/-! ## The standard schedule -/

section
variable {ω : Type} {view : Event → Option ω}

theorem ModulePass.Twin.refl (a : ModulePass) : a.Twin view a :=
  ⟨rfl, fun _ => Iff.rfl, fun _ _ => ⟨rfl, rfl⟩⟩

theorem LoopPass.Twin.refl {a : LoopPass}
    (honest : a.usage.preservesAll = true → ∀ l func p c, (a.run l func p c).val.1 = .noChange) :
    a.Twin view a :=
  ⟨rfl, fun _ => Iff.rfl, fun _ _ _ _ => ⟨rfl, rfl⟩, honest⟩

theorem Registry.offers_profiling (c : Config) :
    Registry.profiler.Offers view (Pipeline.profiling c) := by
  constructor
  · intro a ha
    obtain rfl := List.mem_singleton.1 ha
    exact ⟨_, ⟨_, rfl, rfl⟩, .refl _⟩
  · intro a ha
    rcases List.mem_cons.1 ha with rfl | ha
    · exact ⟨_, ⟨_, rfl, rfl⟩, .refl fun _ _ _ _ _ => rfl⟩
    · obtain rfl := List.mem_singleton.1 ha
      exact ⟨_, ⟨_, rfl, rfl⟩, .refl fun h => nomatch h⟩
  · intro a ha
    rw [Pipeline.profiling] at ha
    split at ha
    · obtain rfl := List.mem_singleton.1 ha
      exact ⟨_, ⟨_, rfl, rfl⟩, .refl _⟩
    · cases ha

theorem Manager.simulated (hview : Impartial view) (p : Program) (c : Context) :
    (Manager.pipeline.run none p c).Like view id (Manager.schedule.run none p c) := by
  have hnames : Schedule.profilingNames c.config = (Pipeline.profiling c.config).names := by
    rw [Schedule.profilingNames, Pipeline.names, Pipeline.profiling]
    split <;> rfl
  have hn : (Pipeline.profiling c.config).names.Nodup := by
    rw [Pipeline.names, Pipeline.profiling]
    split <;> decide
  obtain ⟨s, hadds, horder, hrun⟩ := exists_simulated hview hn
    (Registry.offers_profiling c.config) (Pipeline.validate_profiling c.config)
  have hsetUp : Registry.setUp.events.filterMap view = [] := by
    simp [Registry.setUp, hview.registered]
  have hprofiling : Schedule.profiling Registry.profiler c.config =
      Schedule.addAll Registry.profiler (Pipeline.profiling c.config).names {} :=
    congrArg (fun ids => Schedule.addAll Registry.profiler ids {}) hnames
  obtain ⟨⟨kept, q, d, hx, hy⟩, hseen⟩ := hrun p c
  refine .unheard hsetUp ?_
  simp only [Registry.setUp, Option.elim_none, hprofiling]
  refine .unheard hadds.seen ?_
  rw [hadds.val]
  constructor
  · simp only [Manager.run, Manager.runPipeline, Option.elim_none, Traced.val_bind, hx, hy, horder]
    cases kept <;> rfl
  · simp only [Manager.run, Manager.runPipeline, Option.elim_none, Traced.events_bind, hx, hy,
      List.filterMap_append, hseen]
    rfl

end

/-- Both ways of ordering the passes come to the same. -/
theorem Manager.completes (m : Manager) (p : Program) (c : Context) :
    Completes (m.run none p c) (instrument p c) := by
  have h := Manager.pipeline_completes p c
  cases m with
  | pipeline => exact h
  | schedule =>
    have hview : Impartial Event.work? := ⟨fun _ _ => rfl, fun _ _ => rfl, fun _ _ => rfl⟩
    have hs := Manager.simulated hview p c
    exact ⟨by rw [← hs.val]; exact h.ok, hs.seen.symm.trans h.works⟩

end LoopClock
