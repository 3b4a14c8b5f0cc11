import LoopClock.Proofs.BuiltIn
import LoopClock.Proofs.Run.Supply

/-! Declarations come before their uses. Whatever uses the symbols of the timers stands behind the pass that
provides them, in a pipeline that may run as in a schedule that was asked for, and is called after it. -/
namespace LoopClock
open Program

variable {p : Program} {c : Context} {s t : Progress} {r : Registry} {calls : List Call} {es : List Event}
  {xs : List Stage}

/-! ## The order of the names -/

/-- A name that uses the symbols stands behind the one that provides them, or these are there at the start. -/
def Backed (ready : Prop) (names : List String) : Prop := ∀ pre name post, names = pre ++ name :: post →
  name ∈ Profiler.users → ready ∨ Profiler.insertStorage.name ∈ pre

namespace Backed

variable {a b : Prop} {names more : List String} {name : String}

theorem nil : Backed a [] := fun pre name post h => by simp at h

theorem singleton (h : name ∈ Profiler.users → a) : Backed a [name] := by
  intro pre name' post heq huse
  obtain ⟨rfl, hlast⟩ := List.append_eq_singleton_iff.1 heq.symm |>.resolve_right (by simp)
  obtain ⟨rfl, -⟩ := List.cons.inj hlast
  exact .inl (h huse)

theorem mono (h : Backed a names) (hab : a → b) : Backed b names := fun pre name post heq huse =>
  (h pre name post heq huse).imp_left hab

theorem append (h : Backed a names) (h' : Backed (a ∨ Profiler.insertStorage.name ∈ names) more) :
    Backed a (names ++ more) := by
  intro pre name post heq huse
  rcases List.append_eq_append_iff.1 heq with ⟨pre', rfl, hmore⟩ | ⟨post', rfl, hpost⟩
  · rw [List.mem_append, ← or_assoc]
    exact h' pre' name post hmore huse
  · cases post' with
    | nil =>
      have hfirst := h' [] name post hpost.symm huse
      simpa using hfirst
    | cons name' post' =>
      obtain ⟨rfl, -⟩ := List.cons.inj hpost
      exact h pre name post' rfl huse

theorem of_append (h : Backed a (names ++ more)) :
    Backed a names ∧ Backed (a ∨ Profiler.insertStorage.name ∈ names) more := by
  constructor
  · intro pre name post heq huse
    exact h pre name (post ++ more) (by simp [heq]) huse
  · intro pre name post heq huse
    have hback := h (names ++ pre) name post (by simp [heq]) huse
    rwa [List.mem_append, ← or_assoc] at hback

/-- Where nothing provides the symbols, they are there if anything uses them. -/
theorem of_mem (h : Backed a names) (hnone : Profiler.insertStorage.name ∉ names) (hname : name ∈ names)
    (huse : name ∈ Profiler.users) : a := by
  obtain ⟨pre, post, rfl⟩ := List.append_of_mem hname
  exact (h pre name post rfl huse).resolve_right fun hpre => hnone (List.mem_append_left _ hpre)

end Backed

/-! ## The order of the calls -/

theorem Stage.Tame.not_mem {as : List LoopPass} (h : (Stage.onLoops as).Tame) :
    Profiler.insertStorage.name ∉ as.map (·.name) := by
  intro hmem
  obtain ⟨a, ha, hname⟩ := List.mem_map.1 hmem
  exact (h a ha).name_ne hname

theorem Call.Of.name_mem {as : List LoopPass} {k : Call} (h : k.Of (.onLoops as)) :
    k.name ∈ as.map (·.name) := by
  cases h with
  | onLoops ha => exact List.mem_map_of_mem ha

theorem Call.Of.name_eq {a : ModulePass} {k : Call} (h : k.Of (.onModule a)) : k.name = a.name := by
  cases h
  rfl

/-- The calls come in the order in which the passes stand. -/
theorem Staged.backed {ready : Prop} (h : Staged xs calls) (hxs : ∀ x ∈ xs, x.Tame)
    (hback : Backed ready (xs.flatMap Stage.names)) : Backed ready (calls.map Call.name) := by
  induction h generalizing ready with
  | nil => exact .nil
  | @onModule a xs k calls made _ ih =>
    obtain ⟨hone, hrest⟩ := Backed.of_append hback
    have hname : [k.name] = Stage.names (.onModule a) := congrArg ([·]) made.name_eq
    rw [← hname] at hone hrest
    exact hone.append (ih (List.forall_mem_cons.1 hxs).2 hrest)
  | @onLoops as xs visits calls made _ ih =>
    obtain ⟨hx, hxs⟩ := List.forall_mem_cons.1 hxs
    obtain ⟨hloops, hrest⟩ := Backed.of_append hback
    have hnone : Profiler.insertStorage.name ∉ as.map (·.name) := hx.not_mem
    rw [List.map_append]
    refine Backed.append (fun pre name post heq huse => .inl ?_) ?_
    · have hname : name ∈ visits.map Call.name := heq ▸ List.mem_append_right _ List.mem_cons_self
      obtain ⟨k, hk, rfl⟩ := List.mem_map.1 hname
      exact hloops.of_mem hnone (made k hk).name_mem huse
    · exact (ih hxs hrest).mono fun h => .inl (h.resolve_right hnone)

/-- The last of the calls that provide the symbols. -/
theorem exists_last_provider (h : Profiler.insertStorage.name ∈ calls.map Call.name) :
    ∃ earlier first between, calls = earlier ++ first :: between ∧ first.name = Profiler.insertStorage.name ∧
      ∀ i ∈ between, i.name ≠ Profiler.insertStorage.name := by
  induction calls with
  | nil => exact nomatch h
  | cons k calls ih =>
    by_cases hlater : Profiler.insertStorage.name ∈ calls.map Call.name
    · obtain ⟨earlier, first, between, rfl, hfirst⟩ := ih hlater
      exact ⟨k :: earlier, first, between, rfl, hfirst⟩
    · refine ⟨[], k, calls, rfl, ?_, fun i hi hname => hlater (hname ▸ List.mem_map_of_mem hi)⟩
      exact ((List.mem_cons.1 h).resolve_right hlater).symm

/-- Every call that uses the symbols comes after one that provides them, and finds what this one has left
and the calls between the two have made of it. -/
def Prepared (q : Program) (calls : List Call) : Prop :=
  ∀ pre k post, calls = pre ++ k :: post → k.name ∈ Profiler.users →
    ∃ earlier first between, pre = earlier ++ first :: between ∧
      first.name = Profiler.insertStorage.name ∧ (∀ i ∈ between, i.name ≠ Profiler.insertStorage.name) ∧
        k.Supplied q first between

theorem Calls.prepared (h : Calls s calls es t) (hstaged : Staged xs calls) (hxs : ∀ x ∈ xs, x.Tame)
    (hback : Backed False (xs.flatMap Stage.names)) : Prepared t.1 calls := by
  intro pre k post heq huse
  have htame : ∀ i ∈ calls, i.Tame := by
    intro i hi
    obtain ⟨x, hx, hof⟩ := hstaged.exists_of_mem hi
    exact hof.tame (hxs x hx)
  have hprovided := hstaged.backed hxs hback (pre.map Call.name) k.name (post.map Call.name)
    (by simp [heq]) huse
  obtain ⟨earlier, first, between, rfl, hname, hnew⟩ :=
    exists_last_provider (hprovided.resolve_left not_false)
  obtain ⟨⟨_, hbefore⟩, _, hafter⟩ := h.split heq
  obtain ⟨-, _, hbetween⟩ := hbefore.split rfl
  rw [heq] at htame
  simp only [List.forall_mem_append, List.forall_mem_cons] at htame
  obtain ⟨⟨-, hfirst, htamed⟩, hk, hpost⟩ := htame
  exact ⟨earlier, first, between, rfl, hname, hnew, hbetween.supplied hfirst hname htamed hnew hk huse
    (hafter.within chained_keeps fun i hi => (hpost i hi).keeps)⟩

/-! ## Pipelines -/

namespace Pipeline

variable {l : Pipeline}

/-- All passes are tame. -/
structure Tame (l : Pipeline) : Prop where
  modules : ∀ a ∈ l.modulePasses, a.Tame
  loops : ∀ a ∈ l.loopPasses, a.Tame
  late : ∀ a ∈ l.latePasses, a.Tame

end Pipeline

/-! ## Schedules -/

/-- All registered passes are tame. -/
def Registry.Tame (r : Registry) : Prop := ∀ e ∈ r, e.pass.All ModulePass.Tame LoopPass.Tame

theorem Registry.Tame.requires (hr : r.Tame) {name : String} (hname : name ∈ r.names)
    (huse : name ∈ Profiler.users) : r.Requires name Profiler.insertStorage.name := by
  obtain ⟨⟨text, pass⟩, he⟩ := mem_names_iff.1 hname
  have htame : pass.All ModulePass.Tame LoopPass.Tame := hr _ (List.mem_of_find?_eq_some he)
  obtain rfl : pass.name = name := name_of_get? he
  refine ⟨_, he, ?_⟩
  cases pass with
  | onModule a => exact ModulePass.Tame.requires htame huse
  | onLoops a => exact LoopPass.Tame.requires htame huse

namespace Schedule

end Schedule

/-! ## The passes of the profiler -/

theorem Prepared.ready {q : Program} (h : Prepared q calls)
    (hnames : ∀ i ∈ calls, i.name ∉ Profiler.reserved → i.KeepsState ∧ i.KeepsConfig) :
    ∀ k ∈ calls, k.name ∈ Profiler.users → k.Ready q := by
  intro k hk huse
  obtain ⟨pre, post, heq⟩ := List.append_of_mem hk
  obtain ⟨earlier, first, between, rfl, -, -, hsupplied⟩ := h pre k post heq huse
  exact hsupplied.ready fun i hi => hnames i (by simp [heq, hi])

/-- Passes of the profiler give no other names to the symbols. -/
theorem Staged.keepsNames (h : Staged xs calls)
    (hxs : ∀ x ∈ xs, x.All (· ∈ Profiler.modulePasses) (· ∈ Profiler.loopPasses)) :
    ∀ i ∈ calls, i.name ∉ Profiler.reserved → i.KeepsState ∧ i.KeepsConfig := by
  intro i hi hname
  obtain ⟨x, hx, hof⟩ := h.exists_of_mem hi
  have hall := hxs x hx
  cases hof with
  | onModule a p c =>
    have hreserved : ∀ a ∈ Profiler.modulePasses, a.name ∈ Profiler.reserved := by decide
    exact absurd (hreserved a hall) hname
  | @onLoops as a ha l p func found c =>
    have ha : a = Profiler.countLoops ∨ a = Profiler.insertTimer := by
      simpa [Profiler.loopPasses] using hall a ha
    rcases ha with rfl | rfl
    · exact Profiler.keepsNames_countLoops l func p c
    · exact absurd (by decide : Profiler.insertTimer.name ∈ Profiler.reserved) hname

theorem Profiler.tame_modulePasses : ∀ a ∈ modulePasses, a.Tame :=
  List.forall_mem_cons.2 ⟨.insertStorage, List.forall_mem_singleton.2 .insertReport⟩

theorem Profiler.tame_loopPasses : ∀ a ∈ loopPasses, a.Tame :=
  List.forall_mem_cons.2 ⟨.other (by decide) keeps_countLoops, List.forall_mem_singleton.2 .insertTimer⟩

theorem Pipeline.BuiltIn.tame {l : Pipeline} (h : l.BuiltIn) : l.Tame where
  modules a ha := Profiler.tame_modulePasses a (h.modules a ha)
  loops a ha := Profiler.tame_loopPasses a (h.loops a ha)
  late a ha := Profiler.tame_modulePasses a (h.late a ha)

end LoopClock
