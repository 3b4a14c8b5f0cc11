import LoopClock.Pass.Manager
import LoopClock.Proofs.Run.Alike
import LoopClock.Proofs.Source.Outcomes

/-! A pipeline that may run and the schedule of its names do the same, whatever the passes are. The
passes of the schedule come from a registry, and may be other forms of those in the pipeline. -/
namespace LoopClock

variable {ω : Type} {view : Event → Option ω}

/-- `view` is blind to what a schedule announces and a pipeline does not. -/
structure Impartial (view : Event → Option ω) : Prop where
  registered : ∀ kind pass, view (.registered kind pass) = none
  analysisUsed : ∀ pass a, view (.analysisUsed pass a) = none
  loopStarted : ∀ pass l, view (.loopStarted pass l) = none

/-! ## Two forms of a pass -/

/-- Two forms of a module pass require the same and do the same. -/
structure ModulePass.Twin (view : Event → Option ω) (a b : ModulePass) : Prop where
  name : a.name = b.name
  required : ∀ q, q ∈ a.usage.required ↔ q ∈ b.usage.required
  run : ∀ p c, (a.run p c).Like view id (b.run p c)

/-- Two forms of a loop pass. The second one claims to preserve everything only if it does. -/
structure LoopPass.Twin (view : Event → Option ω) (a b : LoopPass) : Prop where
  name : a.name = b.name
  required : ∀ q, q ∈ a.usage.required ↔ q ∈ b.usage.required
  run : ∀ l func p c, (a.run l func p c).Like view id (b.run l func p c)
  honest : b.usage.preservesAll = true → ∀ l func p c, (b.run l func p c).val.1 = .noChange

/-- The registry has the second form of a module pass. -/
structure ModulePass.Offered (view : Event → Option ω) (r : Registry) (a b : ModulePass) : Prop where
  registered : ∃ e, r.get? a.name = some e ∧ e.pass = .onModule b
  twin : a.Twin view b

structure LoopPass.Offered (view : Event → Option ω) (r : Registry) (a b : LoopPass) : Prop where
  registered : ∃ e, r.get? a.name = some e ∧ e.pass = .onLoops b
  twin : a.Twin view b

/-- Every pass of the pipeline is registered. -/
structure Registry.Offers (view : Event → Option ω) (r : Registry) (l : Pipeline) : Prop where
  modules : ∀ a ∈ l.modulePasses, ∃ b, a.Offered view r b
  loops : ∀ a ∈ l.loopPasses, ∃ b, a.Offered view r b
  late : ∀ a ∈ l.latePasses, ∃ b, a.Offered view r b

theorem exists_forall₂ {α β : Type} {R : α → β → Prop} {as : List α} (h : ∀ a ∈ as, ∃ b, R a b) :
    ∃ bs, List.Forall₂ R as bs := by
  induction as with
  | nil => exact ⟨[], .nil⟩
  | cons a as ih =>
    obtain ⟨b, hb⟩ := h a List.mem_cons_self
    obtain ⟨bs, hbs⟩ := ih fun a' ha => h a' (List.mem_cons_of_mem a ha)
    exact ⟨b :: bs, .cons hb hbs⟩

/-! ## Walks over loops -/

/-- The state that the same walk has in a schedule. -/
def Pipeline.Walk.scheduled (w : Pipeline.Walk) : Schedule.Walk :=
  ⟨w.program, w.context, w.analyses, !w.preserved.isAll⟩

section
variable {as bs : List LoopPass} (hview : Impartial view)
  (h : List.Forall₂ (LoopPass.Twin view) as bs)
include hview h

theorem visit_simulated (func : Nat) (header : Int) (w : Pipeline.Walk) :
    (Pipeline.visit func header as w).Like view Pipeline.Walk.scheduled
      (Schedule.visit func header bs w.scheduled) := by
  induction h generalizing w with
  | nil => exact ⟨rfl, rfl⟩
  | @cons a b as bs hab _ ih =>
    rw [Pipeline.visit, Schedule.visit]
    simp only [Pipeline.Walk.scheduled]
    cases w.analyses.forest.byHeader? header with
    | none => exact ⟨rfl, rfl⟩
    | some l =>
      have hrun := hab.run l func w.program w.context
      refine .unheard (by simp [Traced.tell, hview.loopStarted]) ?_
      refine .bind (f := id) (by rw [hab.name]; exact ⟨rfl, rfl⟩) ?_
      refine hrun.bind ?_
      have honest : b.usage.preservesAll = true →
          (a.run l func w.program w.context).val.1 = .noChange := fun hb => by
        rw [show (a.run l func w.program w.context).val = _ from hrun.val]
        exact hab.honest hb l func w.program w.context
      rw [← hrun.val]
      generalize (a.run l func w.program w.context).val = s at honest ⊢
      obtain ⟨r, p, c⟩ := s
      cases r with
      | noChange => exact ih { w with program := p, context := c }
      | changed =>
        have hb : b.usage.preservesAll = false := by
          cases hb : b.usage.preservesAll with
          | false => rfl
          | true => cases honest hb
        simp only [PassResult.isChanged, id_eq, hb]
        exact .bind (f := id) ⟨rfl, rfl⟩ (ih _)

theorem walk_simulated (func : Nat) (p : Program) (c : Context) :
    (Pipeline.walk as func p c).Like view id (Schedule.walk bs func p c) := by
  refine .bind (f := id) ⟨rfl, rfl⟩ (.bind (f := id) ⟨rfl, rfl⟩ ?_)
  have hw := Traced.Like.foldlM (I := fun _ => True) (f := Pipeline.Walk.scheduled)
    (k := fun w header => Pipeline.visit func header as w)
    (m := fun w header => Schedule.visit func header bs w) (p.flow func).analyses.forest.visitOrder
    (fun w header _ => ⟨visit_simulated hview h func header w, trivial⟩)
    ⟨p, c, (p.flow func).analyses, .all⟩ trivial
  refine hw.bind ?_
  rw [← hw.val]
  exact ⟨rfl, rfl⟩

theorem walkProgram_simulated (p : Program) (c : Context) :
    (walkProgram (Pipeline.walk as) p c).Like view id (walkProgram (Schedule.walk bs) p c) := by
  have hfuncs : ∀ funcs p c, (walkFuncs (Pipeline.walk as) funcs p c).Like view id
      (walkFuncs (Schedule.walk bs) funcs p c) := by
    intro funcs
    induction funcs with
    | nil => exact fun p c => ⟨rfl, rfl⟩
    | cons func funcs ih =>
      intro p c
      have hw := walk_simulated hview h func p c
      refine hw.bind ?_
      rw [← hw.val]
      refine (ih _ _).bind ?_
      rw [← (ih _ _).val]
      exact ⟨rfl, rfl⟩
  have hw := hfuncs (List.range p.funcs.length) p c
  refine hw.bind ?_
  rw [← hw.val]
  exact ⟨rfl, rfl⟩

end

/-! ## Stages -/

/-- A pipeline tells what was preserved where a schedule tells whether there was a change. -/
def Preserved.result (k : Preserved) : PassResult := .ofBool !k.isAll

theorem Preserved.result_and (k k' : Preserved) : (k.and k').result = k.result.or k'.result := by
  cases k <;> cases k' <;> rfl

theorem Preserved.result_ofResult (r : PassResult) : (Preserved.ofResult r).result = r := by
  cases r <;> rfl

theorem PassResult.or_assoc (r s t : PassResult) : (r.or s).or t = r.or (s.or t) := by
  cases r <;> cases s <;> cases t <;> rfl

theorem PassResult.or_noChange (r : PassResult) : r.or .noChange = r := by
  cases r <;> rfl

theorem PassResult.noChange_or (r : PassResult) : PassResult.noChange.or r = r := by
  cases r <;> rfl

namespace Pipeline

/-- What a part of a pipeline comes to in a schedule. -/
def reported (s : Preserved × Program × Context) : PassResult × Program × Context :=
  (s.1.result, s.2)

theorem runModules_simulated {as bs : List ModulePass}
    (h : List.Forall₂ (ModulePass.Twin view) as bs) (p : Program) (c : Context) :
    (runModules as p c).Like view reported (Schedule.runStages (bs.map .onModule) p c) := by
  induction h generalizing p c with
  | nil => exact ⟨rfl, rfl⟩
  | @cons a b as bs hab _ ih =>
    have hrun := hab.run p c
    rw [runModules, List.map_cons, Schedule.runStages, Schedule.runStage]
    simp only [bind_assoc]
    refine .bind (f := id) (by rw [hab.name]; exact ⟨rfl, rfl⟩) ?_
    refine .bind (f := id) (by rw [hab.name]; exact ⟨rfl, rfl⟩) (hrun.bind ?_)
    rw [← hrun.val]
    refine (ih _ _).bind ?_
    rw [← (ih _ _).val]
    refine ⟨?_, rfl⟩
    simp [reported, Preserved.result_and, Preserved.result_ofResult]

end Pipeline

namespace Schedule

/-- The stages that a list of loop passes takes: none, or one for all of them. -/
def grouped : List LoopPass → List Stage
  | [] => []
  | p :: ps => [.onLoops (p :: ps)]

theorem runStages_append (xs ys : List Stage) (p : Program) (c : Context) :
    runStages (xs ++ ys) p c = (do
      let (r, p, c) ← runStages xs p c
      let (r', p, c) ← runStages ys p c
      return (r.or r', p, c)) := by
  induction xs generalizing p c with
  | nil => simp [runStages, PassResult.noChange_or]
  | cons x xs ih => simp [runStages, ih, PassResult.or_assoc]

end Schedule

theorem runLoops_simulated (hview : Impartial view) {as bs : List LoopPass}
    (h : List.Forall₂ (LoopPass.Twin view) as bs) (p : Program) (c : Context) :
    (Pipeline.runLoops as p c).Like view Pipeline.reported
      (Schedule.runStages (Schedule.grouped bs) p c) := by
  cases h with
  | nil => exact ⟨rfl, rfl⟩
  | @cons a b as bs hab hs =>
    have hw := walkProgram_simulated hview (.cons hab hs) p c
    refine hw.bind ?_
    rw [← hw.val]
    refine ⟨?_, rfl⟩
    simp [Pipeline.reported, Schedule.runStages, Preserved.result_ofResult, PassResult.or_noChange]

end LoopClock
