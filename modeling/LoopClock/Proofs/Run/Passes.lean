import LoopClock.Proofs.BuiltIn
import LoopClock.Proofs.Run.Edits
import LoopClock.Proofs.Run.Twins

/-! Runs of any passes that only make the known changes. It does not matter which passes are run, how often
and in which order, nor by which manager. -/
namespace LoopClock
open Graph Program Relation

variable {K : Config → Prop} {p₀ p q : Program} {s : Progress} {i : Nat} {l : Loop} {x : Vertex}

namespace Program

abbrev Edits (K : Config → Prop) : Program → Program → Prop := ReflTransGen (Edit K)

namespace Edits

variable (h : Edits K p q)
include h

theorem sound (hp : p.Sound) : q.Sound := by
  induction h with
  | refl => exact hp
  | tail _ h ih => exact h.sound ih

theorem proper (hp : p.Proper) : q.Proper := by
  induction h with
  | refl => exact hp
  | tail _ h ih => exact h.proper ih

/-- No block is lost. -/
theorem mem_ids (hp : p.Proper) {j : Int} (hj : j ∈ p.ids i) : j ∈ q.ids i := by
  induction h with
  | refl => exact hj
  | tail h k ih =>
    cases k with
    | around k => exact (Rebodied.of_funcs k.funcs).ids i ▸ ih
    | split _ S => exact S.mem_ids_iff.2 (.inl ih)
    | time _ T => exact (T.rebodied (Edits.proper h hp)).ids i ▸ ih
    | report _ k => exact k.rebodied.ids i ▸ ih

end Edits

/-! ## Timing a loop -/

theorem Beyond.edits (B : p.Beyond i l x) (hp : p.Proper) (b : Bool) :
    Edits K p (dedicateExit i l (p, b) x).val.1 := by
  have S := (B.cut hp).split
  rw [B.func] at S
  simp only [dedicateExit, List.partition_eq_filter_filter]
  split
  · exact .refl
  · exact .single (.split (B.cut hp) S)

theorem edits_foldlM_dedicateExit {xs : List Vertex} (hp : p.Proper) (hx : ∀ x ∈ xs, p.Beyond i l x)
    (b : Bool) : Edits K p (xs.foldlM (dedicateExit i l) (p, b)).val.1 := by
  induction xs generalizing p b with
  | nil => exact .refl
  | cons x xs ih =>
    obtain ⟨B, hxs⟩ := List.forall_mem_cons.1 hx
    have h : Edits K p (dedicateExit i l (p, b) x).val.1 := B.edits hp b
    exact h.trans (ih (h.proper hp)
      (fun y hy => ⟨(hxs y hy).func, h.mem_ids hp (hxs y hy).mem, (hxs y hy).outside⟩) _)

theorem edits_dedicateExits (hp : p.Proper) (hl : p.HasLoop i l) :
    Edits K p (p.dedicateExits i l).val.1 :=
  edits_foldlM_dedicateExit hp (fun _ => beyond_of_mem_exitBlocks hp hl) false

/-- The blocks that the members of a loop lead to can be timed, even if it is a loop no more. -/
theorem timable_exitBlocks (hp : p.Proper) (hl : ∀ v ∈ l.blocks, v.func = l.header.func)
    (hheader : l.header.id ∈ p.ids l.header.func) : p.Timable l.header (p.exitBlocks l) := by
  have heq := (hp.regular _).exitBlocks_eq_eraseDups hl
  have hexit : ∀ x ∈ p.exitBlocks l, ∃ v ∈ l.blocks, p.Edge v x := fun x hx => by
    rw [heq, List.mem_eraseDups] at hx
    exact List.mem_flatMap.1 (List.mem_of_mem_filter hx)
  refine ⟨fun x hx => ?_, hheader, fun x hx => ?_, heq ▸ nodup_eraseDups _⟩
  · obtain ⟨v, hv, he⟩ := hexit x hx
    exact (hp.func_eq v x he).trans (hl v hv)
  · obtain ⟨v, _, he⟩ := hexit x hx
    exact hp.mem_ids v x he

end Program

/-! ## Passes -/

/-- The configuration satisfies `K`, and the storage, if it is known, is that of one that does. -/
structure Context.Within (K : Config → Prop) (x : Context) : Prop where
  config : K x.config
  instrumentation : ∀ s, x.instrumentation = some s → ∃ c len, K c ∧ s = .ofConfig c len

/-- What has become of `p₀` by the known changes. -/
structure Edited (K : Config → Prop) (p₀ : Program) (s : Progress) : Prop where
  edits : Edits K p₀ s.1
  within : s.2.Within K

theorem Edited.tail (E : Edited K p₀ s) (h : Edits K s.1 q) : Edited K p₀ (q, s.2) :=
  ⟨E.edits.trans h, E.within⟩

/-- The pass makes known changes only. -/
def ModulePass.Editing (K : Config → Prop) (a : ModulePass) : Prop :=
  ∀ p₀ s, p₀.Proper → Edited K p₀ s → Edited K p₀ (a.run s.1 s.2).val.2

/-- The pass makes known changes only when it is shown a loop, and tells when it makes any. -/
structure LoopPass.Editing (K : Config → Prop) (a : LoopPass) : Prop where
  run : ∀ p₀ s i l, p₀.Proper → Edited K p₀ s → l ∈ (s.1.flow i).forest.loops →
    Edited K p₀ (a.run l i s.1 s.2).val.2
  quiet : ∀ l i p c, (a.run l i p c).val.1 = .noChange → (a.run l i p c).val.2.1 = p
  honest : a.usage.preservesAll = true → ∀ l i p c, (a.run l i p c).val.1 = .noChange

namespace Profiler

theorem editing_insertStorage : insertStorage.Editing K := by
  intro p₀ s _ E
  obtain ⟨h, -, len, hlen⟩ := around_prepare (p := s.1) (c := s.2.config)
  refine ⟨E.edits.tail (.around h), E.within.config, fun u hu => ?_⟩
  obtain rfl := Option.some.inj hu
  exact ⟨s.2.config, len, E.within.config, hlen⟩

theorem editing_insertReport : insertReport.Editing K := by
  intro p₀ s _ E
  simp only [insertReport]
  cases hu : s.2.instrumentation with
  | none => exact E
  | some u =>
    obtain ⟨c, len, hc, rfl⟩ := E.within.instrumentation u hu
    exact E.tail (.single (.report hc Report.reported_insert))

theorem editing_countLoops : countLoops.Editing K where
  run _ _ _ _ _ E _ := ⟨E.edits, E.within.config, E.within.instrumentation⟩
  quiet _ _ _ _ _ := rfl
  honest _ _ _ _ _ := rfl

theorem editing_insertTimer : insertTimer.Editing K where
  run p₀ s i l h₀ E hl := by
    have hp := E.edits.proper h₀
    have hn : s.1.HasLoop i l := hp.hasLoop hl
    simp only [insertTimer]
    cases hu : s.2.instrumentation with
    | none => exact E
    | some u =>
      obtain ⟨c, len, hc, rfl⟩ := E.within.instrumentation u hu
      have within : ∀ slots len', Context.Within K
          { s.2 with slots, instrumentation := some (.ofConfig c len') } := fun _ len' =>
        ⟨E.within.config, fun v hv => ⟨c, len', hc, (Option.some.inj hv).symm⟩⟩
      simp only [Traced.val_bind, Traced.val_pure]
      by_cases he : s.1.exitBlocks l = []
      · rw [(Timer.time_of_no_exits l i ⟨s.1, .ofConfig c len, s.2.slots⟩ he).1]
        exact ⟨E.edits, within _ _⟩
      · rw [Timer.val_time_of_exits l i ⟨s.1, .ofConfig c len, s.2.slots⟩ he]
        obtain ⟨len', hlen⟩ := ofConfig_require c len s.2.slots
        dsimp only
        rw [hlen]
        have hd : Edits K s.1 (s.1.dedicateExits i l).val.1 := edits_dedicateExits hp hn
        have hfunc : l.header.func = i := hp.reaches_func hn.header.reaches
        have T := timable_exitBlocks (hd.proper hp)
          (fun v hv => (HasLoop.func_eq hp hn hv).trans hfunc.symm)
          (hd.mem_ids hp (HasLoop.header_mem_ids hp hn))
        have hplace := @Edit.time K _ c len' s.2.slots _ _ hc T
        rw [hfunc] at hplace
        exact ⟨(E.edits.trans hd).tail hplace, within _ _⟩
  quiet l i p c h := by
    simp only [insertTimer] at h ⊢
    cases hu : c.instrumentation with
    | none => rfl
    | some u =>
      simp only [hu, Traced.val_bind, Traced.val_pure] at h ⊢
      exact congrArg TimerState.program (Timer.time_of_quiet (congrArg PassResult.isChanged h))
  honest h := nomatch h

theorem editing_modulePasses : ∀ a ∈ modulePasses, a.Editing K :=
  List.forall_mem_cons.2 ⟨editing_insertStorage, List.forall_mem_singleton.2 editing_insertReport⟩

theorem editing_loopPasses : ∀ a ∈ loopPasses, a.Editing K :=
  List.forall_mem_cons.2 ⟨editing_countLoops, List.forall_mem_singleton.2 editing_insertTimer⟩

end Profiler

/-! ## Pipelines -/

namespace Pipeline

variable {ms : List ModulePass} {ls : List LoopPass}

theorem visit_edited (h₀ : p₀.Proper) (hls : ∀ a ∈ ls, a.Editing K) (header : Int) {w : Walk}
    (hw : w.Current i) (E : Edited K p₀ w.progress) :
    (visit i header ls w).val.Current i ∧ Edited K p₀ (visit i header ls w).val.progress := by
  induction ls generalizing w with
  | nil => exact ⟨hw, E⟩
  | cons a ls ih =>
    obtain ⟨ha, hls⟩ := List.forall_mem_cons.1 hls
    rw [visit]
    split
    · exact ⟨hw, E⟩
    · next l hl =>
      have hmem : l ∈ (w.program.flow i).forest.loops := by
        rw [hw] at hl
        exact List.mem_of_find?_eq_some hl
      have hrun := ha.run p₀ w.progress i l h₀ E hmem
      have hquiet := ha.quiet l i w.program w.context
      simp only [Traced.val_bind]
      generalize (a.run l i w.program w.context).val = r at hrun hquiet
      obtain ⟨r, p', c'⟩ := r
      cases r with
      | noChange =>
        obtain rfl : p' = w.program := hquiet rfl
        exact ih hls hw hrun
      | changed => exact ih hls rfl hrun

theorem walk_edited (h₀ : p₀.Proper) (hls : ∀ a ∈ ls, a.Editing K) (E : Edited K p₀ s) :
    Edited K p₀ (walk ls i s.1 s.2).val.2 := by
  have hfold : ∀ (ks : List Int) (w : Walk), w.Current i → Edited K p₀ w.progress →
      Edited K p₀ (ks.foldlM (fun w header => visit i header ls w) w).val.progress := by
    intro ks
    induction ks with
    | nil => exact fun w _ E => E
    | cons k ks ih =>
      intro w hw E
      obtain ⟨hw, E⟩ := visit_edited h₀ hls k hw E
      rw [List.foldlM_cons]
      exact ih _ hw E
  simp only [walk, Traced.val_bind, Traced.val_pure]
  exact hfold _ ⟨s.1, s.2, (s.1.flow i).analyses, .all⟩ rfl E

theorem walkProgram_edited (h₀ : p₀.Proper) (hls : ∀ a ∈ ls, a.Editing K) (E : Edited K p₀ s) :
    Edited K p₀ (walkProgram (walk ls) s.1 s.2).val.2 := by
  have hfuncs : ∀ (is : List Nat) (s : Progress), Edited K p₀ s →
      Edited K p₀ (walkFuncs (walk ls) is s.1 s.2).val.2 := by
    intro is
    induction is with
    | nil => exact fun s E => E
    | cons i is ih =>
      intro s E
      simp only [walkFuncs, Traced.val_bind, Traced.val_pure]
      exact ih (walk ls i s.1 s.2).val.2 (walk_edited h₀ hls E)
  have E' := hfuncs (List.range s.1.funcs.length) s E
  simp only [walkProgram, Traced.val_bind]
  generalize (walkFuncs (walk ls) (List.range s.1.funcs.length) s.1 s.2).val = r at E'
  obtain ⟨r, p', c'⟩ := r
  dsimp only
  cases c'.instrumentation with
  | none => exact E'
  | some u => exact E'.tail (.single (.around around_syncStorage.1))

theorem runModules_edited (h₀ : p₀.Proper) (hms : ∀ a ∈ ms, a.Editing K) (E : Edited K p₀ s) :
    Edited K p₀ (runModules ms s.1 s.2).val.2 := by
  induction ms generalizing s with
  | nil => exact E
  | cons a ms ih =>
    obtain ⟨ha, hms⟩ := List.forall_mem_cons.1 hms
    exact ih hms (ha p₀ s h₀ E)

/-- All passes of the pipeline make known changes only. -/
structure Editing (K : Config → Prop) (l : Pipeline) : Prop where
  modules : ∀ a ∈ l.modulePasses, a.Editing K
  loops : ∀ a ∈ l.loopPasses, a.Editing K
  late : ∀ a ∈ l.latePasses, a.Editing K

theorem run_edited {l : Pipeline} {kept : Preserved} {t : Progress} (h₀ : p₀.Proper)
    (hl : l.Editing K) (E : Edited K p₀ s) (h : (l.run s.1 s.2).val = .ok (kept, t)) :
    Edited K p₀ t := by
  rw [run] at h
  split at h
  · cases h
  · have E₁ := runModules_edited h₀ hl.modules E
    have E₂ : Edited K p₀ (runLoops l.loopPasses (runModules l.modulePasses s.1 s.2).val.2.1
        (runModules l.modulePasses s.1 s.2).val.2.2).val.2 := by
      rw [runLoops]
      split
      · exact E₁
      · exact walkProgram_edited h₀ hl.loops E₁
    have E₃ := runModules_edited h₀ hl.late E₂
    cases h
    exact E₃

theorem BuiltIn.editing {l : Pipeline} (h : l.BuiltIn) : l.Editing K where
  modules a ha := Profiler.editing_modulePasses a (h.modules a ha)
  loops a ha := Profiler.editing_loopPasses a (h.loops a ha)
  late a ha := Profiler.editing_modulePasses a (h.late a ha)

end Pipeline

/-! ## Schedules -/

def Stage.Editing (K : Config → Prop) : Stage → Prop
  | .onModule a => a.Editing K
  | .onLoops as => ∀ a ∈ as, a.Editing K

namespace Schedule

/-- All passes of the schedule make known changes only. -/
def Editing (K : Config → Prop) (t : Schedule) : Prop := ∀ stage ∈ t.stages, stage.Editing K

theorem BuiltIn.editing {t : Schedule} (h : t.BuiltIn) : t.Editing K := by
  intro x hx
  cases x with
  | onModule a => exact Profiler.editing_modulePasses a (h _ hx)
  | onLoops as => exact fun a ha => Profiler.editing_loopPasses a (h _ hx a ha)

/-- A schedule walks over the loops as a pipeline does. -/
theorem walkProgram_edited {ls : List LoopPass} (h₀ : p₀.Proper) (hls : ∀ a ∈ ls, a.Editing K)
    (E : Edited K p₀ s) : Edited K p₀ (walkProgram (walk ls) s.1 s.2).val.2 := by
  have hview : Impartial (fun _ : Event => (none : Option Unit)) :=
    ⟨fun _ _ => rfl, fun _ _ => rfl, fun _ _ => rfl⟩
  have htwins : List.Forall₂ (LoopPass.Twin fun _ => (none : Option Unit)) ls ls :=
    List.forall₂_same.2 fun a ha => .refl (hls a ha).honest
  rw [← (walkProgram_simulated hview htwins s.1 s.2).val]
  exact Pipeline.walkProgram_edited h₀ hls E

theorem runStages_edited {xs : List Stage} (h₀ : p₀.Proper) (hxs : ∀ x ∈ xs, x.Editing K)
    (E : Edited K p₀ s) : Edited K p₀ (runStages xs s.1 s.2).val.2 := by
  induction xs generalizing s with
  | nil => exact E
  | cons x xs ih =>
    obtain ⟨hx, hxs⟩ := List.forall_mem_cons.1 hxs
    refine ih hxs (s := (runStage s.1 s.2 x).val.2) ?_
    cases x with
    | onModule a => exact hx p₀ s h₀ E
    | onLoops ls => exact walkProgram_edited h₀ hx E

end Schedule

/-! ## Runs -/

/-- Whatever passes are run by name, they make known changes only. -/
theorem Manager.run_edited {m : Manager} {names : Option (List String)} {r : Run} (h₀ : p₀.Proper)
    (E : Edited K p₀ s) (h : (m.run names s.1 s.2).val = .ok r) : Edited K p₀ (r.program, r.context) := by
  cases m with
  | pipeline =>
    obtain ⟨l, kept, hl, -, hrun⟩ := runPipeline_eq_ok h
    exact Pipeline.run_edited h₀ hl.editing E hrun
  | schedule =>
    obtain ⟨t, result, ht, -, hrun⟩ := runSchedule_eq_ok h
    have E' := Schedule.runStages_edited h₀ ht.editing E
    rw [← Schedule.run, hrun] at E'
    exact E'

end LoopClock
