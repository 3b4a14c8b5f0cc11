import LoopClock.Proofs.Requirements
import LoopClock.Proofs.Run.Invocations
import LoopClock.Proofs.Run.Symbols

/-! The symbols of the timers from the call that provides them to the calls that use them. The passes called
in between may do what they like, as long as they take no symbol away and leave an instrumentation. -/
namespace LoopClock
open Program

namespace Profiler

/-- The names of the passes that use the symbols. -/
def users : List String := [insertTimer.name, insertReport.name]

/-- The names that belong to the profiler: one pass provides the symbols, and the others use them. -/
def reserved : List String := insertStorage.name :: users

end Profiler

/-- A pass with a reserved name is the one of the profiler, and any other pass keeps the symbols. -/
inductive ModulePass.Tame : ModulePass → Prop
  | insertStorage : Tame Profiler.insertStorage
  | insertReport : Tame Profiler.insertReport
  | other {a : ModulePass} (name : a.name ∉ Profiler.reserved)
      (keeps : ∀ p c, Keeps (p, c) (a.run p c).val.2) : Tame a

inductive LoopPass.Tame : LoopPass → Prop
  | insertTimer : Tame Profiler.insertTimer
  | other {a : LoopPass} (name : a.name ∉ Profiler.reserved)
      (keeps : ∀ l func p c, Keeps (p, c) (a.run l func p c).val.2) : Tame a

def Stage.Tame (x : Stage) : Prop := x.All ModulePass.Tame LoopPass.Tame

theorem ModulePass.Tame.requires {a : ModulePass} (h : a.Tame) (hname : a.name ∈ Profiler.users) :
    Profiler.insertStorage.name ∈ a.usage.required := by
  cases h with
  | insertStorage => exact absurd hname (by decide)
  | insertReport => exact List.mem_cons_self
  | other name _ => exact absurd (List.mem_cons_of_mem _ hname) name

theorem LoopPass.Tame.requires {a : LoopPass} (h : a.Tame) (hname : a.name ∈ Profiler.users) :
    Profiler.insertStorage.name ∈ a.usage.required := by
  cases h with
  | insertTimer => exact List.mem_cons_self
  | other name _ => exact absurd (List.mem_cons_of_mem _ hname) name

theorem LoopPass.Tame.name_ne {a : LoopPass} (h : a.Tame) : a.name ≠ Profiler.insertStorage.name := by
  cases h with
  | insertTimer => decide
  | other name _ => exact fun hname => name (hname ▸ List.mem_cons_self)

variable {p q : Program} {c : Context} {s t : Progress} {k first : Call} {calls between : List Call}
  {es : List Event} {x : Stage} {u : Instrumentation}

/-! ## One call -/

namespace Call

/-- The names of the symbols are left alone where the instrumentation has them. -/
def KeepsState (k : Call) : Prop := k.context.KeepsState k.after.2

/-- The names of the symbols are left alone where the configuration has them. -/
def KeepsConfig (k : Call) : Prop := k.context.KeepsConfig k.after.2

/-- The call is one of a pass of the profiler, or one of another name that keeps the symbols. -/
inductive Tame : Call → Prop
  | insertStorage (p : Program) (c : Context) :
    Tame ⟨.onModule Profiler.insertStorage.name p, Profiler.insertStorage.run, c⟩
  | insertTimer (l : Loop) (p : Program) (func : Nat) (found : Analyses) (c : Context) :
    Tame ⟨.onLoop Profiler.insertTimer.name l p func found, Profiler.insertTimer.run l func, c⟩
  | insertReport (p : Program) (c : Context) :
    Tame ⟨.onModule Profiler.insertReport.name p, Profiler.insertReport.run, c⟩
  | other {k : Call} (name : k.name ∉ Profiler.reserved) (keeps : Keeps k.before k.after) : Tame k

theorem Of.tame (h : k.Of x) (hx : x.Tame) : k.Tame := by
  cases h with
  | onModule a p c =>
    have hx : a.Tame := hx
    cases hx with
    | insertStorage => exact .insertStorage p c
    | insertReport => exact .insertReport p c
    | other name keeps => exact .other name (keeps p c)
  | @onLoops as a ha l p func found c =>
    cases hx a ha with
    | insertTimer => exact .insertTimer l p func found c
    | other name keeps => exact .other name (keeps l func p c)

namespace Tame

variable (h : k.Tame)
include h

theorem keeps : Keeps k.before k.after := by
  cases h with
  | insertStorage p c => exact Profiler.keeps_insertStorage p c
  | insertTimer l p func found c => exact Profiler.keeps_insertTimer l func p c
  | insertReport p c => exact Profiler.keeps_insertReport p c
  | other _ keeps => exact keeps

/-- The call provides the symbols that the configuration names. -/
theorem settled (hname : k.name = Profiler.insertStorage.name) :
    k.after.1.Settled k.context.config ∧ k.after.2.config = k.context.config ∧
      ∃ len, k.after.2.instrumentation = some (.ofConfig k.context.config len) := by
  cases h with
  | insertStorage p c => exact Profiler.settled_insertStorage p c
  | insertTimer => exact absurd hname (by decide : Profiler.insertTimer.name ≠ _)
  | insertReport => exact absurd hname (by decide : Profiler.insertReport.name ≠ _)
  | other name _ => exact absurd (hname ▸ List.mem_cons_self) name

/-- Only what the instrumentation names is used. -/
theorem weaves (hname : k.name ∈ Profiler.users) (hu : k.context.instrumentation = some u) :
    k.program.Weaves u.Names k.after.1 := by
  cases h with
  | insertStorage => exact absurd hname (by decide : Profiler.insertStorage.name ∉ _)
  | insertTimer l p func found c => exact Profiler.weaves_insertTimer l func hu
  | insertReport p c => exact Profiler.weaves_insertReport hu
  | other name _ => exact absurd (List.mem_cons_of_mem _ hname) name

/-- A call that uses the symbols gives them no other names. -/
theorem keepsNames (hname : k.name ∈ Profiler.users) : k.KeepsState ∧ k.KeepsConfig := by
  cases h with
  | insertStorage => exact absurd hname (by decide : Profiler.insertStorage.name ∉ _)
  | insertTimer l p func found c => exact Profiler.keepsNames_insertTimer l func p c
  | insertReport p c => exact Profiler.keepsNames_insertReport p c
  | other name _ => exact absurd (List.mem_cons_of_mem _ hname) name

end Tame

/-- The pass finds an instrumentation with the names of the configuration and a module that has the symbols
of these names, and every instruction that it puts in names symbols of `q`. -/
structure Ready (q : Program) (k : Call) : Prop where
  state : ∃ u, k.context.instrumentation = some u ∧ u.reportFn = k.context.config.reportFn ∧
    u.clockFn = k.context.config.clockFn ∧ u.storage = ⟨k.context.config.storage, true, .i64Ptr⟩ ∧
      k.program.isDeclared u.reportFn = true ∧ k.program.isDeclared u.clockFn = true ∧
        (k.program.global? u.storage.name).isSome = true
  code : Woven (Instr.Resolved q) k.program.code k.after.1.code

/-- What a call finds if `first` provided the symbols and the calls `between` came after it. There is an
instrumentation in any case, and the module has what was asked for. Whether the names are still those that
were asked for is up to the passes that came between. -/
structure Supplied (q : Program) (k first : Call) (between : List Call) : Prop where
  state : ∃ u, k.context.instrumentation = some u
  settled : k.program.Settled first.context.config
  code : (∀ i ∈ between, i.name ∉ Profiler.reserved → i.KeepsState) →
    Woven (Instr.Resolved q) k.program.code k.after.1.code
  ready : (∀ i ∈ between, i.name ∉ Profiler.reserved → i.KeepsState ∧ i.KeepsConfig) → k.Ready q

end Call

/-! ## From one call to another -/

section
variable (hbetween : Calls first.after between es k.before) (hfirst : first.Tame)
  (hname : first.name = Profiler.insertStorage.name) (htame : ∀ i ∈ between, i.Tame)
  (hnew : ∀ i ∈ between, i.name ≠ Profiler.insertStorage.name)
include hbetween hfirst hname htame hnew

/-- Unless a pass of another name changes it, the instrumentation has the names asked for. -/
theorem Calls.state (h : ∀ i ∈ between, i.name ∉ Profiler.reserved → i.KeepsState) :
    ∃ len, k.context.instrumentation = some (.ofConfig first.context.config len) := by
  obtain ⟨-, -, len, hlen⟩ := hfirst.settled hname
  refine hbetween.within chained_keepsState (fun i hi => ?_) _ hlen
  by_cases hi' : i.name ∈ Profiler.reserved
  · exact ((htame i hi).keepsNames ((List.mem_cons.1 hi').resolve_left (hnew i hi))).1
  · exact h i hi hi'

theorem Calls.config (h : ∀ i ∈ between, i.name ∉ Profiler.reserved → i.KeepsConfig) (len : Nat) :
    Instrumentation.ofConfig k.context.config len = .ofConfig first.context.config len := by
  obtain ⟨-, hconfig, -⟩ := hfirst.settled hname
  rw [← hconfig]
  refine hbetween.within chained_keepsConfig (fun i hi => ?_) len
  by_cases hi' : i.name ∈ Profiler.reserved
  · exact ((htame i hi).keepsNames ((List.mem_cons.1 hi').resolve_left (hnew i hi))).2
  · exact h i hi hi'

theorem Calls.supplied (hk : k.Tame) (huse : k.name ∈ Profiler.users) (hrest : Keeps k.after t) :
    k.Supplied t.1 first between := by
  obtain ⟨hsettled, -, _, hlen⟩ := hfirst.settled hname
  have hkeeps : Keeps first.after k.before := hbetween.within chained_keeps fun i hi => (htame i hi).keeps
  have hthere : k.program.Settled first.context.config := hkeeps.settled hsettled
  have hend : t.1.Settled first.context.config := (hk.keeps.trans hrest).settled hthere
  have hcode : (∀ i ∈ between, i.name ∉ Profiler.reserved → i.KeepsState) →
      Woven (Instr.Resolved t.1) k.program.code k.after.1.code := by
    intro h
    obtain ⟨len, hstate⟩ := hbetween.state hfirst hname htame hnew h
    exact (hk.weaves huse hstate).code.mono fun x hx => hend.resolved hx
  refine ⟨Option.isSome_iff_exists.1 (hkeeps.instrumentation (Option.isSome_of_eq_some hlen)), hthere,
    hcode, fun h => ?_⟩
  have hsame : ∀ i ∈ between, i.name ∉ Profiler.reserved → i.KeepsState := fun i hi hi' => (h i hi hi').1
  obtain ⟨len, hstate⟩ := hbetween.state hfirst hname htame hnew hsame
  have hconfig := hbetween.config hfirst hname htame hnew (fun i hi hi' => (h i hi hi').2) len
  simp only [Instrumentation.ofConfig, Instrumentation.mk.injEq, Temp.mk.injEq] at hconfig
  obtain ⟨hreport, hclock, ⟨hstorage, -⟩, -⟩ := hconfig
  exact ⟨⟨_, hstate, hreport.symm, hclock.symm, by rw [hstorage]; rfl, hthere.report, hthere.clock,
    hthere.storage⟩, hcode hsame⟩

end

end LoopClock
