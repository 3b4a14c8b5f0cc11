import LoopClock.Pass.Manager
import LoopClock.Proofs.Requirements
import LoopClock.Proofs.Source.Outcomes

/-! Runs of the passes of the profiler. Whatever names a manager is given, what it runs is a pipeline or a
schedule of these passes. -/
namespace LoopClock

namespace Profiler

def modulePasses : List ModulePass := [insertStorage, insertReport]

def loopPasses : List LoopPass := [countLoops, insertTimer]

end Profiler

/-- All passes are those of the profiler. -/
structure Pipeline.BuiltIn (l : Pipeline) : Prop where
  modules : ∀ a ∈ l.modulePasses, a ∈ Profiler.modulePasses
  loops : ∀ a ∈ l.loopPasses, a ∈ Profiler.loopPasses
  late : ∀ a ∈ l.latePasses, a ∈ Profiler.modulePasses

/-- All passes are those of the profiler. -/
def Schedule.BuiltIn (s : Schedule) : Prop := s.All (· ∈ Profiler.modulePasses) (· ∈ Profiler.loopPasses)

/-! ## Pipelines -/

namespace Pipeline

variable {l l' : Pipeline} {name : String}

theorem BuiltIn.addModule {a : ModulePass} (hl : l.BuiltIn) (ha : a ∈ Profiler.modulePasses) :
    (l.addModule a).BuiltIn := by
  rw [Pipeline.addModule]
  split
  · exact ⟨List.forall_mem_append.2 ⟨hl.modules, List.forall_mem_singleton.2 ha⟩, hl.loops, hl.late⟩
  · exact ⟨hl.modules, hl.loops, List.forall_mem_append.2 ⟨hl.late, List.forall_mem_singleton.2 ha⟩⟩

theorem BuiltIn.addLoop {a : LoopPass} (hl : l.BuiltIn) (ha : a ∈ Profiler.loopPasses) :
    (l.addLoop a).BuiltIn :=
  ⟨hl.modules, List.forall_mem_append.2 ⟨hl.loops, List.forall_mem_singleton.2 ha⟩, hl.late⟩

theorem builtIn_addNamed (hl : l.BuiltIn) (h : l.addNamed name = .ok l') : l'.BuiltIn := by
  unfold addNamed at h
  split at h
  · cases h
    exact hl.addLoop List.mem_cons_self
  split at h
  · cases h
    exact hl.addLoop (List.mem_cons_of_mem _ List.mem_cons_self)
  split at h
  · cases h
    exact hl.addModule List.mem_cons_self
  split at h
  · cases h
    exact hl.addModule (List.mem_cons_of_mem _ List.mem_cons_self)
  · cases h

theorem builtIn_ofNames {names : List String} (h : ofNames names = .ok l) : l.BuiltIn :=
  foldlM_ok (I := BuiltIn) (fun _ _ _ hl => builtIn_addNamed hl)
    ⟨List.forall_mem_nil _, List.forall_mem_nil _, List.forall_mem_nil _⟩ h

theorem builtIn_profiling (c : Config) : (profiling c).BuiltIn where
  modules := List.forall_mem_singleton.2 List.mem_cons_self
  loops := fun _ ha => ha
  late := by
    simp only [profiling]
    split
    · exact List.forall_mem_singleton.2 (List.mem_cons_of_mem _ List.mem_cons_self)
    · exact List.forall_mem_nil _

end Pipeline

/-! ## Schedules -/

theorem Registry.builtIn_profiler : ∀ e ∈ Registry.profiler,
    e.pass.All (· ∈ Profiler.modulePasses) (· ∈ Profiler.loopPasses) := by
  simp [Registry.profiler, Pass.All, Profiler.modulePasses, Profiler.loopPasses]

namespace Schedule

variable {s s' : Schedule}

theorem pushed_addAll {r : Registry} {ids : List String} (hs : Closed r s)
    (h : (addAll r ids s).val = .ok s') : Pushed r s s' := by
  induction ids generalizing s with
  | nil =>
    rw [addAll] at h
    cases h
    exact .refl
  | cons id ids ih =>
    have hadd := (resolved_add hs id).extended
    simp only [addAll, Traced.val_bind] at h
    generalize (add r s id).val = x at h hadd
    obtain ⟨failure, u⟩ := x
    cases failure with
    | some error => cases h
    | none => exact hadd.pushed.trans (ih hadd.closed h)

theorem builtIn_addAll {names : List String} (h : (addAll Registry.profiler names {}).val = .ok s) :
    s.BuiltIn := (pushed_addAll .nil h).all Registry.builtIn_profiler fun _ h => nomatch h

end Schedule

/-! ## Managers -/

namespace Manager

variable {names : Option (List String)} {p : Program} {c : Context} {r : Run}

theorem runPipeline_eq_ok (h : (runPipeline names p c).val = .ok r) : ∃ (l : Pipeline) (kept : Preserved),
    l.BuiltIn ∧ r.changed = !kept.isAll ∧ (l.run p c).val = .ok (kept, r.program, r.context) := by
  rw [runPipeline] at h
  cases hl : names.elim (.ok (.profiling c.config)) Pipeline.ofNames with
  | error e =>
    rw [hl] at h
    cases h
  | ok l =>
    have hbuiltIn : l.BuiltIn := by
      cases names with
      | none =>
        obtain rfl := Except.ok.inj hl
        exact Pipeline.builtIn_profiling c.config
      | some names => exact Pipeline.builtIn_ofNames hl
    rw [hl] at h
    simp only [Traced.val_bind] at h
    cases hrun : (l.run p c).val with
    | error e =>
      rw [hrun] at h
      cases h
    | ok x =>
      rw [hrun] at h
      cases h
      exact ⟨l, x.1, hbuiltIn, rfl, hrun⟩

theorem runSchedule_eq_ok (h : (runSchedule names p c).val = .ok r) : ∃ (s : Schedule) (result : PassResult),
    s.BuiltIn ∧ r.changed = result.isChanged ∧ (s.run p c).val = (result, r.program, r.context) := by
  have hval : Registry.setUp.val = Registry.profiler := rfl
  simp only [runSchedule, Traced.val_bind, hval] at h
  cases hs : (names.elim (Schedule.profiling Registry.profiler c.config) fun ns =>
      Schedule.addAll Registry.profiler (ns.map trimmed) {}).val with
  | error e =>
    rw [hs] at h
    cases h
  | ok s =>
    have hbuiltIn : s.BuiltIn := by
      cases names with
      | none => exact Schedule.builtIn_addAll hs
      | some names => exact Schedule.builtIn_addAll hs
    rw [hs] at h
    cases h
    exact ⟨s, (s.run p c).val.1, hbuiltIn, rfl, rfl⟩

end Manager

end LoopClock
