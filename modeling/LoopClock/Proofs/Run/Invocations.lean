import LoopClock.Proofs.Run.Calls

/-! The calls of passes that a whole run makes. Between two of them analyses are computed, and the storage is
made as long as it has to be. The calls come in the order of the stages that make them. -/
namespace LoopClock
open Program

namespace Invocation

def pass : Invocation → String
  | onModule a _ => a
  | onLoop a .. => a

def program : Invocation → Program
  | onModule _ p => p
  | onLoop _ _ p .. => p

end Invocation

/-- A call of a pass: what is on record about it, what the pass does, and the context that it is given. -/
structure Call where
  made : Invocation
  effect : Effect
  context : Context

namespace Call

def name (k : Call) : String := k.made.pass

def program (k : Call) : Program := k.made.program

def before (k : Call) : Progress := (k.program, k.context)

def outcome (k : Call) : Traced (PassResult × Program × Context) := k.effect k.program k.context

def after (k : Call) : Progress := k.outcome.val.2

/-- The call is one that the stage makes. -/
inductive Of : Stage → Call → Prop
  | onModule (a : ModulePass) (p : Program) (c : Context) :
    Of (.onModule a) ⟨.onModule a.name p, a.run, c⟩
  | onLoops {as : List LoopPass} {a : LoopPass} (ha : a ∈ as) (l : Loop) (p : Program) (func : Nat)
      (found : Analyses) (c : Context) :
    Of (.onLoops as) ⟨.onLoop a.name l p func found, a.run l func, c⟩

end Call

/-- The calls that lead from a state to a state, and all that is told on the way. -/
inductive Calls : Progress → List Call → List Event → Progress → Prop
  | none (s : Progress) : Calls s [] [] s
  | next (k : Call) {calls : List Call} {es : List Event} {t : Progress}
      (rest : Calls k.after calls es t) :
    Calls k.before (k :: calls) (.invoked k.made :: (k.outcome.events ++ es)) t
  | aside (told : List Event) {s t : Progress} {calls : List Call} {es : List Event}
      (silent : ∀ e ∈ told, ∀ k, e ≠ .invoked k) (rest : Calls s calls es t) : Calls s calls (told ++ es) t
  | grown {p : Program} {c : Context} {u : Instrumentation} {t : Progress} {calls : List Call}
      {es : List Event} (known : c.instrumentation = some u)
      (rest : Calls ((p.syncStorage u).val.2, c) calls es t) :
    Calls (p, c) calls ((p.syncStorage u).events ++ es) t

/-- Each module pass is called once, and the loop passes of a stage are called any number of times. -/
inductive Staged : List Stage → List Call → Prop
  | nil : Staged [] []
  | onModule {a : ModulePass} {xs : List Stage} {k : Call} {calls : List Call}
      (made : k.Of (.onModule a)) (rest : Staged xs calls) : Staged (.onModule a :: xs) (k :: calls)
  | onLoops {as : List LoopPass} {xs : List Stage} {visits calls : List Call}
      (made : ∀ k ∈ visits, k.Of (.onLoops as)) (rest : Staged xs calls) :
    Staged (.onLoops as :: xs) (visits ++ calls)

variable {s t u : Progress} {k : Call} {calls more : List Call} {es fs : List Event} {x : Stage}
  {xs ys : List Stage} {p : Program} {c : Context}

namespace Calls

theorem trans (h : Calls s calls es t) (h' : Calls t more fs u) : Calls s (calls ++ more) (es ++ fs) u := by
  induction h with
  | none => exact h'
  | next k _ ih =>
    have hnext := Calls.next k (ih h')
    rwa [← List.append_assoc] at hnext
  | aside told silent _ ih =>
    rw [List.append_assoc]
    exact .aside told silent (ih h')
  | grown known _ ih =>
    rw [List.append_assoc]
    exact .grown known (ih h')

/-- The run comes to each of its calls, and goes on from it. -/
theorem split (h : Calls s calls es t) {pre post : List Call} (heq : calls = pre ++ k :: post) :
    (∃ fs, Calls s pre fs k.before) ∧ ∃ fs, Calls k.after post fs t := by
  induction h generalizing pre with
  | none => simp at heq
  | next i hrest ih =>
    cases pre with
    | nil =>
      obtain ⟨rfl, rfl⟩ := List.cons.inj heq
      exact ⟨⟨_, .none _⟩, _, hrest⟩
    | cons j pre =>
      obtain ⟨rfl, htail⟩ := List.cons.inj heq
      obtain ⟨⟨_, hpre⟩, hpost⟩ := ih htail
      exact ⟨⟨_, .next i hpre⟩, hpost⟩
  | aside told silent _ ih =>
    obtain ⟨⟨_, hpre⟩, hpost⟩ := ih heq
    exact ⟨⟨_, .aside told silent hpre⟩, hpost⟩
  | grown known _ ih =>
    obtain ⟨⟨_, hpre⟩, hpost⟩ := ih heq
    exact ⟨⟨_, .grown known hpre⟩, hpost⟩

/-- What each call keeps, and growing the storage as well, is kept from the first to the last state. -/
theorem within {R : Progress → Progress → Prop} (hR : Chained fun _ => R) (h : Calls s calls es t)
    (hcalls : ∀ k ∈ calls, R k.before k.after) : R s t := by
  induction h with
  | none s => exact hR.refl s
  | next k _ ih =>
    obtain ⟨hk, hcalls⟩ := List.forall_mem_cons.1 hcalls
    exact @Chained.trans _ hR false false _ _ _ hk (ih hcalls)
  | aside _ _ _ ih => exact ih hcalls
  | @grown p c u _ _ _ known _ ih =>
    exact @Chained.trans _ hR false false _ _ _ (hR.sync p c u known) (ih hcalls)

end Calls

theorem Staged.append (h : Staged xs calls) (h' : Staged ys more) : Staged (xs ++ ys) (calls ++ more) := by
  induction h with
  | nil => exact h'
  | onModule made _ ih => exact .onModule made ih
  | onLoops made _ ih =>
    rw [List.append_assoc]
    exact .onLoops made ih

theorem Staged.exists_of_mem (h : Staged xs calls) (hk : k ∈ calls) : ∃ x ∈ xs, k.Of x := by
  induction h with
  | nil => exact nomatch hk
  | onModule made _ ih =>
    rcases List.mem_cons.1 hk with rfl | hk
    · exact ⟨_, List.mem_cons_self, made⟩
    · obtain ⟨x, hx, hof⟩ := ih hk
      exact ⟨x, List.mem_cons_of_mem _ hx, hof⟩
  | onLoops made _ ih =>
    rcases List.mem_append.1 hk with hk | hk
    · exact ⟨_, List.mem_cons_self, made k hk⟩
    · obtain ⟨x, hx, hof⟩ := ih hk
      exact ⟨x, List.mem_cons_of_mem _ hx, hof⟩

/-! ## Walks over loops -/

/-- All calls between the two states are those of one stage. -/
def Stage.Makes (x : Stage) (s : Progress) (es : List Event) (t : Progress) : Prop :=
  ∃ calls, Calls s calls es t ∧ ∀ k ∈ calls, k.Of x

namespace Stage.Makes

theorem none (x : Stage) (s : Progress) : x.Makes s [] s := ⟨[], .none s, fun _ h => nomatch h⟩

theorem trans (h : x.Makes s es t) (h' : x.Makes t fs u) : x.Makes s (es ++ fs) u := by
  obtain ⟨calls, hcalls, hof⟩ := h
  obtain ⟨more, hmore, hof'⟩ := h'
  exact ⟨calls ++ more, hcalls.trans hmore, List.forall_mem_append.2 ⟨hof, hof'⟩⟩

theorem call (hk : k.Of x) (h : x.Makes k.after es t) :
    x.Makes k.before (.invoked k.made :: (k.outcome.events ++ es)) t := by
  obtain ⟨calls, hcalls, hof⟩ := h
  exact ⟨k :: calls, .next k hcalls, List.forall_mem_cons.2 ⟨hk, hof⟩⟩

theorem aside (told : List Event) (silent : ∀ e ∈ told, ∀ k, e ≠ .invoked k) (h : x.Makes s es t) :
    x.Makes s (told ++ es) t := by
  obtain ⟨calls, hcalls, hof⟩ := h
  exact ⟨calls, .aside told silent hcalls, hof⟩

theorem grown {v : Instrumentation} (known : c.instrumentation = some v) :
    x.Makes (p, c) (p.syncStorage v).events ((p.syncStorage v).val.2, c) := by
  have hgrown := Calls.grown (p := p) known (.none _)
  rw [List.append_nil] at hgrown
  exact ⟨[], hgrown, fun _ h => nomatch h⟩

end Stage.Makes

section
variable {as xs : List LoopPass} {func : Nat}

end

section
variable {σ : Type} {f : σ → Progress} {visit : σ → Int → Traced σ}

end

section
variable (as : List LoopPass) (func : Nat) (p : Program) (c : Context)

end

section
variable {walk : Nat → Effect}
  (h : ∀ func p c, x.Makes (p, c) (walk func p c).events (walk func p c).val.2)
include h

end

/-! ## Whole runs -/

/-- The run makes the calls of these stages, and none besides. -/
def Stage.Runs (xs : List Stage) (s : Progress) (es : List Event) (t : Progress) : Prop :=
  ∃ calls, Calls s calls es t ∧ Staged xs calls

namespace Stage.Runs

theorem none (s : Progress) : Runs [] s [] s := ⟨[], .none s, .nil⟩

theorem trans (h : Runs xs s es t) (h' : Runs ys t fs u) : Runs (xs ++ ys) s (es ++ fs) u := by
  obtain ⟨calls, hcalls, hstaged⟩ := h
  obtain ⟨more, hmore, hstaged'⟩ := h'
  exact ⟨calls ++ more, hcalls.trans hmore, hstaged.append hstaged'⟩

theorem onModule (a : ModulePass) (p : Program) (c : Context) : Runs [.onModule a] (p, c)
    ([.moduleStarted a.name] ++ ([.invoked (.onModule a.name p)] ++ (a.run p c).events))
    (a.run p c).val.2 := by
  have hcall := Calls.next ⟨.onModule a.name p, a.run, c⟩ (.none _)
  rw [List.append_nil] at hcall
  exact ⟨_, .aside _ (by simp) hcall, .onModule (.onModule a p c) .nil⟩

theorem onLoops {as : List LoopPass} (h : (Stage.onLoops as).Makes s es t) : Runs [.onLoops as] s es t := by
  obtain ⟨calls, hcalls, hof⟩ := h
  refine ⟨calls, hcalls, ?_⟩
  have hstaged := Staged.onLoops hof .nil
  rwa [List.append_nil] at hstaged

end Stage.Runs

namespace Pipeline

/-- The stages that the passes make up. -/
def stages (l : Pipeline) : List Stage :=
  l.modulePasses.map .onModule ++ [.onLoops l.loopPasses] ++ l.latePasses.map .onModule

end Pipeline

namespace Schedule

end Schedule

end LoopClock
