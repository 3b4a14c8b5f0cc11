import LoopClock.Proofs.Run.Counts

/-! Whether a standard run reports a change. It does if something was missing, if a loop got a timer, or if
a return got its report. -/
namespace LoopClock
open Program

variable {c : Config} {p : Program} {s : Progress} {g : Global}

namespace PassResult

@[simp] theorem isChanged_ofBool (b : Bool) : (ofBool b).isChanged = b := by cases b <;> rfl

@[simp] theorem isChanged_or (a b : PassResult) : (a.or b).isChanged = (a.isChanged || b.isChanged) :=
  isChanged_ofBool _

end PassResult

namespace Preserved

@[simp] theorem isAll_ofResult (r : PassResult) : (ofResult r).isAll = !r.isChanged := by cases r <;> rfl

@[simp] theorem isAll_and (a b : Preserved) : (a.and b).isAll = (a.isAll && b.isAll) := by
  cases a <;> cases b <;> rfl

end Preserved

namespace Pipeline

/-- Slots are only ever handed out, and the analyses are lost exactly when one is. -/
structure Walk.Behind (w w' : Walk) : Prop where
  slots : w.context.slots ≤ w'.context.slots
  preserved : w'.preserved.isAll =
    (w.preserved.isAll && decide (w'.context.slots = w.context.slots))

namespace Walk.Behind

theorem refl (w : Walk) : w.Behind w := ⟨Nat.le_refl _, by simp⟩

theorem trans {u v w : Walk} (h : u.Behind v) (k : v.Behind w) : u.Behind w := by
  have hslots := h.slots
  have kslots := k.slots
  refine ⟨Nat.le_trans hslots kslots, ?_⟩
  rw [k.preserved, h.preserved, Bool.and_assoc, ← Bool.decide_and]
  congr 2
  exact propext (by omega)

end Walk.Behind

theorem visit_behind (func : Nat) (header : Int) (w : Walk) :
    w.Behind (visit func header timing w).val := by
  simp only [visit]
  cases hl : w.analyses.forest.byHeader? header with
  | none => exact .refl w
  | some l =>
    have hkept : (Preserved.ofResult PassResult.noChange).isAll = true := rfl
    have hlost : (Preserved.ofResult PassResult.changed).isAll = false := rfl
    cases hi : w.context.instrumentation with
    | none =>
      simp only [Profiler.countLoops, Profiler.insertTimer, hkept, hi, if_true, Traced.val_bind,
        Traced.val_pure]
      exact ⟨Nat.le_refl _, by simp⟩
    | some i =>
      by_cases he : w.program.exitBlocks l = []
      · have hval := (Timer.time_of_no_exits l func ⟨w.program, i, w.context.slots⟩ he).1
        simp only [Profiler.countLoops, Profiler.insertTimer, hkept, hi, hval, if_true,
          Traced.val_bind, Traced.val_pure]
        exact ⟨Nat.le_refl _, by simp⟩
      · have hval := Timer.val_time_of_exits l func ⟨w.program, i, w.context.slots⟩ he
        simp only [Profiler.countLoops, Profiler.insertTimer, hkept, hlost, hi, hval, if_true,
          Traced.val_bind, Traced.val_pure, Bool.false_eq_true, if_false]
        exact ⟨Nat.le_succ _, by simp [Preserved.isAll]⟩

theorem changed_walk (func : Nat) (p : Program) (c : Context) :
    c.slots ≤ (walk timing func p c).val.2.2.slots ∧ (walk timing func p c).val.1.isChanged =
      decide (c.slots < (walk timing func p c).val.2.2.slots) := by
  have hfold : ∀ (headers : List Int) (w : Walk),
      w.Behind (headers.foldlM (fun w header => visit func header timing w) w).val := by
    intro headers
    induction headers with
    | nil => exact .refl
    | cons h headers ih =>
      intro w
      rw [List.foldlM_cons, Traced.val_bind]
      exact (visit_behind func h w).trans (ih _)
  have hrun : ∃ w : Walk, (walk timing func p c).val = (.ofBool !w.preserved.isAll, w.program, w.context) ∧
      Walk.Behind ⟨p, c, (p.flow func).analyses, .all⟩ w := ⟨_, rfl, hfold _ _⟩
  obtain ⟨w, heq, hslots, hpreserved⟩ := hrun
  have hslots : c.slots ≤ w.context.slots := hslots
  have hpreserved : w.preserved.isAll = decide (w.context.slots = c.slots) := hpreserved
  rw [heq]
  dsimp only
  refine ⟨hslots, ?_⟩
  rw [PassResult.isChanged_ofBool, hpreserved, ← decide_not]
  exact decide_eq_decide.2 (by omega)

end Pipeline

theorem changed_walkFuncs {walk : Nat → Effect} (h : ∀ func p c,
      c.slots ≤ (walk func p c).val.2.2.slots ∧ (walk func p c).val.1.isChanged =
        decide (c.slots < (walk func p c).val.2.2.slots))
    (funcs : List Nat) (p : Program) (c : Context) :
    c.slots ≤ (walkFuncs walk funcs p c).val.2.2.slots ∧ (walkFuncs walk funcs p c).val.1.isChanged =
      decide (c.slots < (walkFuncs walk funcs p c).val.2.2.slots) := by
  induction funcs generalizing p c with
  | nil => exact ⟨Nat.le_refl _, by simp [walkFuncs, PassResult.isChanged]⟩
  | cons func funcs ih =>
    obtain ⟨hle, hflag⟩ := h func p c
    obtain ⟨hle', hflag'⟩ := ih (walk func p c).val.2.1 (walk func p c).val.2.2
    have hval : (walkFuncs walk (func :: funcs) p c).val = ((walk func p c).val.1.or
          (walkFuncs walk funcs (walk func p c).val.2.1 (walk func p c).val.2.2).val.1,
        (walkFuncs walk funcs (walk func p c).val.2.1 (walk func p c).val.2.2).val.2) := rfl
    rw [hval]
    dsimp only
    rw [PassResult.isChanged_or, hflag, hflag', ← Bool.decide_or]
    exact ⟨Nat.le_trans hle hle', decide_eq_decide.2 (by omega)⟩

theorem changed_syncStorage {len : Nat} (hg : p.global? c.storage = some g) :
    (p.syncStorage (.ofConfig c len)).val.1 = decide (g.len < len) := by
  have hgrow : (p.growGlobal c.storage len).1 = decide (g.len < len) := by
    rw [growGlobal, hg]
    exact g.growTo_fst len
  rw [← hgrow]
  simp only [syncStorage]
  split <;> rfl

/-- The walk over all loops changes something exactly if it hands out a slot: without slots the storage
is long enough. -/
theorem changed_walkProgram (hslots : s.2.slots = 0) (hg : s.1.global? c.storage = some g)
    (hu : (timeProgram s).val.2.instrumentation =
      some (.ofConfig c (max g.len (timeProgram s).val.2.slots))) :
    (walkProgram (Pipeline.walk timing) s.1 s.2).val.1.isChanged =
      decide (0 < (timeProgram s).val.2.slots) := by
  have hin := inside_foldlM inside_timeFunc (List.range s.1.funcs.length) s
  have hval := (walkFuncs_like Pipeline.walk_like (List.range s.1.funcs.length) s.1 s.2).val
  obtain ⟨-, hflag⟩ := changed_walkFuncs (Pipeline.changed_walk) (List.range s.1.funcs.length) s.1 s.2
  have hcontext : (timeProgram s).val.2 = ((List.range s.1.funcs.length).foldlM timeFunc s).val.2 := by
    rw [timeProgram, Traced.val_bind]
    split <;> rfl
  rw [hcontext] at hu ⊢
  rw [walkProgram]
  generalize (List.range s.1.funcs.length).foldlM timeFunc s = y at hin hval hu
  generalize walkFuncs (Pipeline.walk timing) (List.range s.1.funcs.length) s.1 s.2 = z at hval hflag
  obtain ⟨⟨_, _⟩, _⟩ := y
  obtain ⟨⟨r, q, x⟩, _⟩ := z
  obtain ⟨rfl, rfl⟩ := Prod.mk.inj hval
  have hflag : r.isChanged = decide (0 < x.slots) := by rw [← hslots]; exact hflag
  have hu : x.instrumentation = some (.ofConfig c (max g.len x.slots)) := hu
  have hq : q.global? c.storage = some g := (hin.global? _).trans hg
  simp only [Traced.val_bind, hu, Traced.val_pure, PassResult.isChanged_or, PassResult.isChanged_ofBool,
    hflag, changed_syncStorage hq]
  rw [← Bool.decide_or]
  exact decide_eq_decide.2 (by omega)

/-! ## Whole runs -/

/-- Whether a return of the entry function has no report yet. -/
def reports (c : Config) (s : Progress) : Bool :=
  c.reportOnExit && (Report.insert s.1 (.ofConfig c 0) s.2.slots c.entryFn).val.1.isChanged

/-- Whether a standard run changes the program. -/
def Program.changes (p : Program) (c : Config) (tally : Nat) : Bool :=
  (p.prepare c).val.1.isChanged || decide (0 < (p.leavable p.visits).length) ||
    reports c (timeProgram (provideStorage (p, .ofModule c tally)).val).val

/-- The passes after the loops tell whether they insert a report. -/
theorem changed_late {len : Nat} (hc : s.2.config = c)
    (hu : s.2.instrumentation = some (.ofConfig c len)) :
    (Pipeline.runModules (Pipeline.profiling c).latePasses s.1 s.2).val.1.isAll = !reports c s := by
  rw [Pipeline.profiling, reports]
  cases c.reportOnExit with
  | false => rfl
  | true =>
    have hrun : (Profiler.insertReport.run s.1 s.2).val.1 =
        (Report.insert s.1 (.ofConfig c 0) s.2.slots c.entryFn).val.1 := by
      simp only [Profiler.insertReport, hu, hc, Traced.val_bind]
      rfl
    show ((Preserved.ofResult (Profiler.insertReport.run s.1 s.2).val.1).and .all).isAll = _
    rw [hrun, Preserved.isAll_and, Preserved.isAll_ofResult, Bool.true_and]
    exact Bool.and_true _

/-- A standard run keeps all analyses exactly if it changes nothing. -/
theorem exists_kept (hp : p.Proper) (c : Config) (tally : Nat) :
    ∃ kept, ((Pipeline.profiling c).run p (.ofModule c tally)).val =
      .ok (kept, (instrument p (.ofModule c tally)).val) ∧ kept.isAll = !p.changes c tally := by
  obtain ⟨s, hs⟩ : ∃ s, s = (provideStorage (p, .ofModule c tally)).val := ⟨_, rfl⟩
  obtain ⟨h, R, hf, -⟩ := steps_provideStorage c tally p
  obtain ⟨ts, -, -, R'⟩ := steps_timeProgram hp hf h R
  have A := accounted_timed hp c tally
  have hg : s.1.global? c.storage = some (p.storageFor c) := hs ▸ (prepared_storage hp c).1
  have hslots : s.2.slots = 0 := by rw [hs]; rfl
  rw [← hs] at A R'
  have hmiddle := changed_walkProgram hslots hg A.instrumentation
  have hlate := changed_late R'.config A.instrumentation
  obtain ⟨hrun, r, hok⟩ := Pipeline.run_like p (.ofModule c tally)
  have hval := hrun.val
  rw [hok] at hval
  have hok : ((Pipeline.profiling c).run p (.ofModule c tally)).val = .ok r := hok
  refine ⟨r.1, hok.trans (congrArg Except.ok (Prod.ext rfl hval)), ?_⟩
  have hfirst : (Pipeline.runModules (Pipeline.profiling c).modulePasses p (.ofModule c tally)).val =
      ((Preserved.ofResult (p.prepare c).val.1).and .all, s) := by rw [hs]; rfl
  have htime : (Pipeline.runLoops (Pipeline.profiling c).loopPasses s.1 s.2).val =
      (Preserved.ofResult (walkProgram (Pipeline.walk timing) s.1 s.2).val.1, (timeProgram s).val) :=
    congrArg (Prod.mk _) (walkProgram_like Pipeline.walk_like s.1 s.2).val
  simp only [Pipeline.run, Pipeline.validate_profiling, Traced.val_bind, Traced.val_pure, hfirst,
    htime, Except.ok.injEq] at hok
  rw [← hok]
  dsimp only
  rw [Preserved.isAll_and, Preserved.isAll_and, Preserved.isAll_and, Preserved.isAll_ofResult,
    Preserved.isAll_ofResult, hmiddle, hlate, Program.changes, ← hs, A.slots]
  simp [Preserved.isAll, Bool.and_assoc]

end LoopClock
