import LoopClock.Proofs.Run.Simulation
import Mathlib.Data.List.Nodup

/-! Scheduling the passes of a pipeline by name, in the order in which the pipeline runs them. -/
namespace LoopClock

variable {ω : Type} {view : Event → Option ω} {r : Registry}

namespace Schedule

/-! ## Passes whose requirements are scheduled -/

theorem resolveAll_of_scheduled {path : List String} {pass : String} {s : Schedule}
    {qs : List String} (h : ∀ q ∈ qs, q ∈ s.order) :
    resolveAll r path pass qs s = pure (none, s) := by
  induction qs with
  | nil => rw [resolveAll]
  | cons q qs ih =>
    rw [resolveAll, if_pos (h q List.mem_cons_self)]
    exact ih fun q' hq => h q' (List.mem_cons_of_mem q hq)

/-- A pass whose requirements are all scheduled is scheduled itself. -/
theorem add_of_ready (hview : Impartial view) {s : Schedule} {id : String} {e : Entry}
    (hid : r.get? id = some e) (hnew : e.pass.name ∉ s.order)
    (hready : ∀ q ∈ e.pass.usage.required, q ∈ s.order) :
    (add r s id).val = (none, s.push e.pass) ∧ (add r s id).events.filterMap view = [] := by
  have hs : ∀ e', r.get? id = some e' → e' = e := fun e' h => Option.some.inj (h.symm.trans hid)
  rw [add, resolve]
  split
  · next h => rw [hid] at h; cases h
  · next e' h =>
    obtain rfl := hs e' h
    simp only [List.not_mem_nil, dite_false, hnew, if_false, resolveAll_of_scheduled hready]
    refine ⟨rfl, ?_⟩
    simp [Traced.tellAll, hview.analysisUsed]

/-- Adding the names takes one schedule to the other, without an error. -/
structure Adds (view : Event → Option ω) (r : Registry) (ids : List String) (s s' : Schedule) :
    Prop where
  val : (addAll r ids s).val = .ok s'
  seen : (addAll r ids s).events.filterMap view = []

namespace Adds

variable {s s' : Schedule} {ids : List String}

theorem nil : Adds view r [] s s := ⟨rfl, rfl⟩

theorem cons (hview : Impartial view) {id : String} {e : Entry} (hid : r.get? id = some e)
    (hnew : id ∉ s.order) (hready : ∀ q ∈ e.pass.usage.required, q ∈ s.order)
    (hrest : Adds view r ids (s.push e.pass) s') : Adds view r (id :: ids) s s' := by
  have hname : e.pass.name = id := by simpa using List.find?_some hid
  obtain ⟨hval, hseen⟩ := add_of_ready hview hid (hname ▸ hnew) hready
  constructor
  · rw [addAll]
    simp only [Traced.val_bind, hval, hrest.val]
  · rw [addAll]
    simp only [Traced.events_bind, hval, List.filterMap_append, hseen, hrest.seen, List.append_nil]

end Adds

/-! ## The stages of a pipeline -/

theorem order_append (xs ys : List Stage) :
    (⟨xs ++ ys⟩ : Schedule).order = (⟨xs⟩ : Schedule).order ++ (⟨ys⟩ : Schedule).order :=
  List.flatMap_append

theorem order_modules (bs : List ModulePass) :
    (⟨bs.map .onModule⟩ : Schedule).order = bs.map (·.name) := by
  induction bs with
  | nil => rfl
  | cons b bs ih => exact congrArg (b.name :: ·) ih

theorem order_grouped (bs : List LoopPass) :
    (⟨grouped bs⟩ : Schedule).order = bs.map (·.name) := by
  cases bs with
  | nil => rfl
  | cons b bs => exact List.append_nil _

theorem push_loops {xs : List Stage} (hlast : ∀ ps, xs.getLast? ≠ some (.onLoops ps))
    (bs : List LoopPass) (b : LoopPass) :
    (⟨xs ++ grouped bs⟩ : Schedule).push (.onLoops b) = ⟨xs ++ grouped (bs ++ [b])⟩ := by
  cases bs with
  | nil =>
    -- the other case of `push` needs a last stage of loop passes, which `hlast` excludes
    simp only [grouped, List.append_nil, push, List.nil_append]
  | cons b' bs => simp [grouped, push]

theorem modules_getLast? (bs : List ModulePass) (ps : List LoopPass) :
    (bs.map Stage.onModule).getLast? ≠ some (.onLoops ps) := by
  intro h
  obtain ⟨b, _, hb⟩ := List.mem_map.1 (List.mem_of_getLast? h)
  cases hb

end Schedule

namespace Pipeline

theorem check_eq_ok {done : List String} {name : String} {u : Usage} (h : check done name u = .ok ()) :
    ∀ q ∈ u.required, q ∈ done := by
  rw [check] at h
  split at h
  · cases h
  · next hnone =>
    intro q hq
    simpa using List.find?_eq_none.1 hnone q hq

theorem checkModules_eq_ok {as : List ModulePass} {done done' : List String}
    (h : checkModules done as = .ok done') : done' = done ++ as.map (·.name) := by
  induction as generalizing done with
  | nil => exact (pure_eq_ok.1 h).symm.trans (List.append_nil done).symm
  | cons a as ih =>
    obtain ⟨_, _, h⟩ := bind_eq_ok.1 h
    rw [ih h, List.append_assoc]
    rfl

theorem forIn_check {done : List String} {as : List LoopPass}
    (h : (forIn as PUnit.unit fun q _ => do
      check done q.name q.usage
      return ForInStep.yield PUnit.unit) = Except.ok PUnit.unit) :
    ∀ a ∈ as, check done a.name a.usage = .ok () := by
  induction as with
  | nil => exact fun a ha => nomatch ha
  | cons a as ih =>
    rw [List.forIn_cons] at h
    obtain ⟨s, hs, h⟩ := bind_eq_ok.1 h
    obtain ⟨_, ha, hs⟩ := bind_eq_ok.1 hs
    cases pure_eq_ok.1 hs
    intro a' ha'
    cases ha' with
    | head => exact ha
    | tail _ ha' => exact ih h a' ha'

/-- What it takes for a pipeline to run. -/
structure Valid (l : Pipeline) : Prop where
  modules : checkModules [] l.modulePasses = .ok (l.modulePasses.map (·.name))
  loops : ∀ a ∈ l.loopPasses, ∀ q ∈ a.usage.required, q ∈ l.modulePasses.map (·.name)
  late : ∃ done, checkModules (l.modulePasses.map (·.name)) l.latePasses = .ok done

theorem valid_of_validate {l : Pipeline} (h : l.validate = .ok ()) : l.Valid := by
  obtain ⟨done, hmodules, h⟩ := bind_eq_ok.1 h
  obtain rfl := checkModules_eq_ok hmodules
  obtain ⟨_, hloops, h⟩ := bind_eq_ok.1 h
  obtain ⟨done, hlate, _⟩ := map_eq_ok.1 h
  exact ⟨hmodules, fun a ha => check_eq_ok (forIn_check hloops a ha), done, hlate⟩

end Pipeline

namespace Schedule.Adds

variable {s s' : Schedule} {ids : List String} (hview : Impartial view)
include hview

theorem modules {as bs : List ModulePass} (h : List.Forall₂ (ModulePass.Offered view r) as bs)
    {done done' : List String} (hc : Pipeline.checkModules done as = .ok done')
    (hdone : ∀ q ∈ done, q ∈ s.order) (hnew : (s.order ++ as.map (·.name)).Nodup)
    (hrest : Adds view r ids ⟨s.stages ++ bs.map .onModule⟩ s') :
    Adds view r (as.map (·.name) ++ ids) s s' := by
  induction h generalizing s done with
  | nil => simpa using hrest
  | @cons a b as bs hab _ ih =>
    obtain ⟨⟨e, hid, he⟩, twin⟩ := hab
    obtain ⟨_, hcheck, hc⟩ := bind_eq_ok.1 hc
    have hready := Pipeline.check_eq_ok hcheck
    have horder : (⟨s.stages ++ [.onModule b]⟩ : Schedule).order = s.order ++ [a.name] := by
      rw [order_append, twin.name]
      rfl
    rw [List.map_cons, List.nodup_middle, List.nodup_cons] at hnew
    refine cons hview hid (fun hm => hnew.1 (List.mem_append_left _ hm)) ?_ ?_
    · rw [he]
      exact fun q hq => hdone q (hready q ((twin.required q).2 hq))
    · rw [he]
      refine ih (s := s.push (.onModule b)) hc ?_ ?_ ?_
      · intro q hq
        show q ∈ (⟨s.stages ++ [.onModule b]⟩ : Schedule).order
        rw [horder]
        exact (List.mem_append.1 hq).elim (fun h => List.mem_append_left _ (hdone q h))
          (List.mem_append_right _)
      · show ((⟨s.stages ++ [.onModule b]⟩ : Schedule).order ++ _).Nodup
        rw [horder, List.append_assoc, List.singleton_append, List.nodup_middle, List.nodup_cons]
        exact hnew
      · simpa [push] using hrest

theorem loops {as bs : List LoopPass} (h : List.Forall₂ (LoopPass.Offered view r) as bs)
    {xs : List Stage} {ps : List LoopPass} (hlast : ∀ qs, xs.getLast? ≠ some (.onLoops qs))
    (hready : ∀ a ∈ as, ∀ q ∈ a.usage.required, q ∈ (⟨xs⟩ : Schedule).order)
    (hnew : ((⟨xs ++ grouped ps⟩ : Schedule).order ++ as.map (·.name)).Nodup)
    (hrest : Adds view r ids ⟨xs ++ grouped (ps ++ bs)⟩ s') :
    Adds view r (as.map (·.name) ++ ids) ⟨xs ++ grouped ps⟩ s' := by
  induction h generalizing ps with
  | nil => simpa using hrest
  | @cons a b as bs hab _ ih =>
    obtain ⟨⟨e, hid, he⟩, twin⟩ := hab
    have horder : (⟨xs ++ grouped (ps ++ [b])⟩ : Schedule).order =
        (⟨xs ++ grouped ps⟩ : Schedule).order ++ [a.name] := by
      simp [order_append, order_grouped, twin.name]
    rw [List.map_cons, List.nodup_middle, List.nodup_cons] at hnew
    refine cons hview hid (fun hm => hnew.1 (List.mem_append_left _ hm)) ?_ ?_
    · rw [he, order_append]
      exact fun q hq => List.mem_append_left _
        (hready a List.mem_cons_self q ((twin.required q).2 hq))
    · rw [he, push_loops hlast]
      refine ih (fun a' ha => hready a' (List.mem_cons_of_mem a ha)) ?_ (by simpa using hrest)
      rw [horder, List.append_assoc, List.singleton_append, List.nodup_middle, List.nodup_cons]
      exact hnew

end Schedule.Adds

/-! ## The schedule of a pipeline -/

section
variable {l : Pipeline} {ms ns : List ModulePass} {ls : List LoopPass}
  (hms : List.Forall₂ (ModulePass.Offered view r) l.modulePasses ms)
  (hls : List.Forall₂ (LoopPass.Offered view r) l.loopPasses ls)
  (hns : List.Forall₂ (ModulePass.Offered view r) l.latePasses ns)
include hms hls hns

/-- The schedule of a pipeline whose passes have these other forms. -/
theorem stages_order : (⟨ms.map .onModule ++ Schedule.grouped ls ++ ns.map .onModule⟩ :
    Schedule).order = l.names := by
  have hmodules : ∀ {as bs}, List.Forall₂ (ModulePass.Offered view r) as bs →
      bs.map (·.name) = as.map (·.name) := fun h => by
    induction h with
    | nil => rfl
    | cons h _ ih => rw [List.map_cons, List.map_cons, ih, h.twin.name]
  have hloops : ls.map (·.name) = l.loopPasses.map (·.name) := by
    clear hms hns
    generalize l.loopPasses = as at hls
    induction hls with
    | nil => rfl
    | cons h _ ih => rw [List.map_cons, List.map_cons, ih, h.twin.name]
  rw [Schedule.order_append, Schedule.order_append, Schedule.order_modules,
    Schedule.order_modules, Schedule.order_grouped, hmodules hms, hmodules hns, hloops]
  rfl

theorem adds_names (hview : Impartial view) (hn : l.names.Nodup) (hv : l.Valid) :
    Schedule.Adds view r l.names {}
      ⟨ms.map .onModule ++ Schedule.grouped ls ++ ns.map .onModule⟩ := by
  obtain ⟨done, hlate⟩ := hv.late
  have hmodules : (⟨ms.map .onModule⟩ : Schedule).order = l.modulePasses.map (·.name) := by
    simpa [Schedule.order, Schedule.grouped, Pipeline.names] using
      stages_order (l := { l with loopPasses := [], latePasses := [] }) hms .nil .nil
  have hloops : (⟨ms.map .onModule ++ Schedule.grouped ls⟩ : Schedule).order =
      l.modulePasses.map (·.name) ++ l.loopPasses.map (·.name) := by
    simpa [Pipeline.names] using stages_order (l := { l with latePasses := [] }) hms hls .nil
  have hn' := hn
  rw [Pipeline.names, List.append_assoc] at hn'
  rw [Pipeline.names, List.append_assoc]
  refine .modules hview hms hv.modules (fun q hq => nomatch hq) hn'.of_append_left ?_
  have hstart : (⟨({} : Schedule).stages ++ ms.map .onModule⟩ : Schedule) =
      ⟨ms.map .onModule ++ Schedule.grouped []⟩ := congrArg Schedule.mk (List.append_nil _).symm
  rw [hstart]
  refine .loops hview hls (Schedule.modules_getLast? ms) ?_ ?_ ?_
  · rw [hmodules]
    exact hv.loops
  · rw [Schedule.grouped, List.append_nil, hmodules]
    rw [← List.append_assoc] at hn'
    exact hn'.of_append_left
  rw [← List.append_nil (l.latePasses.map _)]
  refine .modules hview hns hlate ?_ ?_ .nil
  · rw [List.nil_append, hloops]
    exact fun q hq => List.mem_append_left _ hq
  · rw [List.nil_append, hloops]
    exact hn

end

/-- A run of a pipeline ends without an error, and the run of a schedule does the same. -/
structure Simulated (view : Event → Option ω) (x : Traced (Except Error (Preserved × Program × Context)))
    (y : Traced (PassResult × Program × Context)) : Prop where
  val : ∃ kept p c, x.val = .ok (kept, p, c) ∧ y.val = (.ofBool !kept.isAll, p, c)
  seen : x.events.filterMap view = y.events.filterMap view

/-- A pipeline that may run is scheduled by its names, and the schedule does the same. -/
theorem exists_simulated (hview : Impartial view) {l : Pipeline} (hn : l.names.Nodup)
    (hr : r.Offers view l) (hv : l.validate = .ok ()) :
    ∃ s, Schedule.Adds view r l.names {} s ∧ s.order = l.names ∧
      ∀ p c, Simulated view (l.run p c) (s.run p c) := by
  obtain ⟨ms, hms⟩ := exists_forall₂ hr.modules
  obtain ⟨ls, hls⟩ := exists_forall₂ hr.loops
  obtain ⟨ns, hns⟩ := exists_forall₂ hr.late
  refine ⟨⟨ms.map .onModule ++ Schedule.grouped ls ++ ns.map .onModule⟩,
    adds_names hms hls hns hview hn (Pipeline.valid_of_validate hv), stages_order hms hls hns,
    fun p c => ?_⟩
  have hfirst := Pipeline.runModules_simulated (hms.imp fun _ _ h => h.twin)
  have hmiddle := runLoops_simulated hview (hls.imp fun _ _ h => h.twin)
  have hlast := Pipeline.runModules_simulated (hns.imp fun _ _ h => h.twin)
  have hrun : (l.run p c).Like view (Except.map Pipeline.reported) (Except.ok <$> Schedule.run
      ⟨ms.map .onModule ++ Schedule.grouped ls ++ ns.map .onModule⟩ p c) := by
    rw [Pipeline.run, hv, Schedule.run, Schedule.runStages_append, Schedule.runStages_append]
    simp only [bind_assoc, pure_bind, map_bind, map_pure]
    refine (hfirst p c).bind ?_
    rw [← (hfirst p c).val]
    refine (hmiddle _ _).bind ?_
    rw [← (hmiddle _ _).val]
    refine (hlast _ _).bind ?_
    rw [← (hlast _ _).val]
    refine ⟨?_, rfl⟩
    simp [Except.map, Pipeline.reported, Preserved.result_and]
  refine ⟨?_, hrun.seen.trans (by rw [Traced.events_map])⟩
  have hval := hrun.val
  rw [Traced.val_map] at hval
  cases hx : (l.run p c).val with
  | error e => rw [hx] at hval; cases hval
  | ok x =>
    rw [hx] at hval
    exact ⟨x.1, x.2.1, x.2.2, rfl, (Except.ok.inj hval).symm⟩

end LoopClock
