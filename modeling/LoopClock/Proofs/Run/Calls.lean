import LoopClock.Proofs.Run.Chains

/-! The calls that a walk over the loops of a function makes. Both managers look a loop up in analyses that
they keep, and both compute them again when they are out of date, so that each call is made as if they had
been computed for it. -/
namespace LoopClock

/-- A call of a loop pass: the loop handed over, and what the pass was called on. -/
structure LoopCall where
  pass : LoopPass
  loop : Loop
  state : Progress
  analyses : Analyses

namespace LoopCall

def outcome (func : Nat) (k : LoopCall) : Traced (PassResult × Program × Context) :=
  k.pass.run k.loop func k.state.1 k.state.2

def invocation (func : Nat) (k : LoopCall) : Event :=
  .invoked (.onLoop k.pass.name k.loop k.state.1 func k.analyses)

/-- What computing the analyses after the call tells. -/
def renewal (func : Nat) (k : LoopCall) : List Event :=
  ((k.outcome func).val.2.1.tracedAnalyses func).events

/-- The calls of the passes for a header, from a state to a state. Each pass is handed the loop that the
header heads at that moment. Once it heads none, the rest is skipped. -/
inductive Visit (func : Nat) (header : Int) :
    List LoopPass → Progress → List LoopCall → Progress → Prop
  | done (s : Progress) : Visit func header [] s [] s
  | gone {x : LoopPass} {xs : List LoopPass} {s : Progress}
      (hnone : (s.1.flow func).analyses.forest.byHeader? header = none) :
      Visit func header (x :: xs) s [] s
  | call {x : LoopPass} {xs : List LoopPass} {s t : Progress} {l : Loop} {calls : List LoopCall}
      (hloop : (s.1.flow func).analyses.forest.byHeader? header = some l)
      (hrest : Visit func header xs (x.run l func s.1 s.2).val.2 calls t) :
      Visit func header (x :: xs) s (⟨x, l, s, (s.1.flow func).analyses⟩ :: calls) t

/-- The visits to headers, one after the other. -/
inductive Visits (func : Nat) (xs : List LoopPass) :
    List Int → Progress → List LoopCall → Progress → Prop
  | nil (s : Progress) : Visits func xs [] s [] s
  | cons {header : Int} {headers : List Int} {s t u : Progress} {calls rest : List LoopCall}
      (hvisit : Visit func header xs s calls t) (hrest : Visits func xs headers t rest u) :
      Visits func xs (header :: headers) s (calls ++ rest) u

variable {func : Nat} {header : Int} {headers : List Int} {xs : List LoopPass} {s t u : Progress}
  {calls rest : List LoopCall}

/-- Nothing is left open about the calls. -/
theorem Visit.unique (h : Visit func header xs s calls t) (k : Visit func header xs s rest u) :
    calls = rest ∧ t = u := by
  induction h generalizing rest with
  | done s =>
    cases k
    exact ⟨rfl, rfl⟩
  | gone hnone =>
    cases k with
    | gone _ => exact ⟨rfl, rfl⟩
    | call hloop _ => exact nomatch hnone.symm.trans hloop
  | call hloop _ ih =>
    cases k with
    | gone hnone => exact nomatch hnone.symm.trans hloop
    | call hloop' k =>
      obtain rfl := Option.some.inj (hloop.symm.trans hloop')
      obtain ⟨rfl, rfl⟩ := ih k
      exact ⟨rfl, rfl⟩

theorem Visits.unique (h : Visits func xs headers s calls t) (k : Visits func xs headers s rest u) :
    calls = rest ∧ t = u := by
  induction h generalizing rest with
  | nil s =>
    cases k
    exact ⟨rfl, rfl⟩
  | cons hvisit _ ih =>
    cases k with
    | cons kvisit k =>
      obtain ⟨rfl, rfl⟩ := hvisit.unique kvisit
      obtain ⟨rfl, rfl⟩ := ih k
      exact ⟨rfl, rfl⟩

/-- The analyses are those of the program that the pass is called on, and the loop is theirs. -/
def UpToDate (func : Nat) (k : LoopCall) : Prop :=
  k.analyses = (k.state.1.flow func).analyses ∧
    k.analyses.forest.byHeader? k.loop.header.id = some k.loop

theorem Visit.upToDate (h : Visit func header xs s calls t) : ∀ k ∈ calls, k.UpToDate func := by
  induction h with
  | done | gone => exact fun _ hk => nomatch hk
  | @call x xs s t l calls hloop _ ih =>
    have hid : l.header.id = header := by simpa using List.find?_some hloop
    rw [List.forall_mem_cons]
    exact ⟨⟨rfl, by rw [hid, hloop]⟩, ih⟩

theorem Visits.upToDate (h : Visits func xs headers s calls t) : ∀ k ∈ calls, k.UpToDate func := by
  induction h with
  | nil => exact fun _ hk => nomatch hk
  | cons hvisit _ ih =>
    rw [List.forall_mem_append]
    exact ⟨hvisit.upToDate, ih⟩

end LoopCall

namespace LoopPass

/-- The pass reports a change whenever it has changed the flow graph. -/
def Reports (x : LoopPass) : Prop := ∀ l func p c,
  (x.run l func p c).val.1 = .noChange → (x.run l func p c).val.2.1.flow func = p.flow func

/-- If the pass claims to preserve everything, it never changes the flow graph. -/
def Preserves (x : LoopPass) : Prop := x.usage.preservesAll = true →
  ∀ l func p c, (x.run l func p c).val.2.1.flow func = p.flow func

end LoopPass

variable {func : Nat} {header : Int} {xs : List LoopPass}

/-- The analyses in use are those of the function as it is. -/
def Schedule.Walk.Fresh (func : Nat) (w : Walk) : Prop := w.analyses = (w.program.flow func).analyses

/-- A walk goes on to another one with the calls for a header, whose events are `es`. -/
def LoopCall.Visited (told : LoopCall → List Event) (func : Nat) (header : Int) (xs : List LoopPass)
    (v w : Schedule.Walk) (es : List Event) : Prop :=
  w.Fresh func ∧ ∃ calls, Visit func header xs v.state calls w.state ∧ es = calls.flatMap told

open LoopCall

section
variable {told : LoopCall → List Event} {x : LoopPass} {l : Loop} {v w w' : Schedule.Walk} {es : List Event}

theorem LoopCall.Visited.skip (hw : w.Fresh func) (h : w.analyses.forest.byHeader? header = none) :
    Visited told func header (x :: xs) w w [] := ⟨hw, [], .gone (hw ▸ h), rfl⟩

/-- What was found in fresh analyses is handed over. -/
theorem LoopCall.Visited.call (hw : w.Fresh func) (hl : w.analyses.forest.byHeader? header = some l)
    (hstate : (x.run l func w.program w.context).val.2 = v.state)
    (hrest : Visited told func header xs v w' es) :
    Visited told func header (x :: xs) w w' (told ⟨x, l, w.state, w.analyses⟩ ++ es) := by
  obtain ⟨hfresh, calls, hvisit, rfl⟩ := hrest
  rw [hw] at hl
  have hcall : Visit func header (x :: xs) w.state _ w'.state := .call hl (hstate ▸ hvisit)
  refine ⟨hfresh, _, hcall, ?_⟩
  rw [hw, List.flatMap_cons]
  rfl

/-- A visit after which the analyses are fresh can be followed by the next one. -/
theorem LoopCall.visits_foldlM (told : LoopCall → List Event) {σ : Type} {f : σ → Schedule.Walk}
    {visit : σ → Int → Traced σ} (h : ∀ w header, (f w).Fresh func →
      Visited told func header xs (f w) (f (visit w header).val) (visit w header).events)
    (headers : List Int) {w : σ} (hw : (f w).Fresh func) : ∃ calls,
      Visits func xs headers (f w).state calls (f (headers.foldlM visit w).val).state ∧
        (headers.foldlM visit w).events = calls.flatMap told := by
  induction headers generalizing w with
  | nil => exact ⟨[], .nil _, rfl⟩
  | cons header headers ih =>
    obtain ⟨hfresh, calls, hvisit, hevents⟩ := h w header hw
    obtain ⟨rest, hrest, hevents'⟩ := ih hfresh
    rw [List.foldlM_cons, Traced.val_bind, Traced.events_bind]
    refine ⟨calls ++ rest, .cons hvisit hrest, ?_⟩
    rw [hevents, hevents', List.flatMap_append]

end

/-! ## Pipelines -/

namespace Pipeline

/-- What a call tells: that it is made, what the pass tells, and what the analyses tell that are computed
after a change. -/
def told (func : Nat) (k : LoopCall) : List Event :=
  k.invocation func :: ((k.outcome func).events ++
    if (k.outcome func).val.1.isChanged then k.renewal func else [])

/-- The walk after a call with that outcome. -/
def Walk.after (func : Nat) (w : Walk) (y : PassResult × Program × Context) : Walk :=
  if (Preserved.ofResult y.1).isAll then { w with program := y.2.1, context := y.2.2 }
  else ⟨y.2.1, y.2.2, (y.2.1.flow func).analyses, .none⟩

variable {x : LoopPass} {l : Loop} {w : Walk}

theorem visit_cons (hl : w.analyses.forest.byHeader? header = some l) :
    (visit func header (x :: xs) w).val =
        (visit func header xs (w.after func (x.run l func w.program w.context).val)).val ∧
      (visit func header (x :: xs) w).events = told func ⟨x, l, w.scheduled.state, w.analyses⟩ ++
        (visit func header xs (w.after func (x.run l func w.program w.context).val)).events := by
  rw [visit, hl]
  have hstate : w.scheduled.state = (w.program, w.context) := rfl
  have hanalyses : ∀ q : Program, (q.tracedAnalyses func).val = (q.flow func).analyses := fun _ => rfl
  cases hr : (x.run l func w.program w.context).val.1 <;>
    simp [hr, hstate, hanalyses, told, LoopCall.outcome, LoopCall.renewal, LoopCall.invocation, Walk.after,
      PassResult.isChanged, Traced.tell]

theorem fresh_after (hx : x.Reports) (hw : w.scheduled.Fresh func) :
    (w.after func (x.run l func w.program w.context).val).scheduled.Fresh func := by
  have hx := hx l func w.program w.context
  unfold Walk.after
  split
  · next hall =>
    rw [Preserved.isAll_ofResult] at hall
    cases hr : (x.run l func w.program w.context).val.1 with
    | noChange => exact hw.trans (congrArg Flow.analyses (hx hr).symm)
    | changed => simp [hr, PassResult.isChanged] at hall
  · rfl

theorem state_after (func : Nat) (w : Walk) (y : PassResult × Program × Context) :
    (w.after func y).scheduled.state = y.2 := by
  unfold Walk.after
  split <;> rfl

theorem visited_visit (hxs : ∀ x ∈ xs, x.Reports) (hw : w.scheduled.Fresh func) :
    Visited (told func) func header xs w.scheduled (visit func header xs w).val.scheduled
      (visit func header xs w).events := by
  induction xs generalizing w with
  | nil => exact ⟨hw, [], .done _, rfl⟩
  | cons x xs ih =>
    obtain ⟨hx, hxs⟩ := List.forall_mem_cons.1 hxs
    cases hl : w.analyses.forest.byHeader? header with
    | none =>
      rw [visit, hl]
      exact .skip hw hl
    | some l =>
      obtain ⟨hval, hevents⟩ := @visit_cons func header xs x l w hl
      rw [hval, hevents]
      exact LoopCall.Visited.call hw hl (state_after ..).symm (ih hxs (fresh_after hx hw))

theorem walk_calls (hxs : ∀ x ∈ xs, x.Reports) (func : Nat) (p : Program) (c : Context) : ∃ calls,
    Visits func xs (p.flow func).analyses.forest.visitOrder (p, c) calls (walk xs func p c).val.2 ∧
      (walk xs func p c).events = (p.tracedAnalyses func).events ++
        .loopsEntered (p.flow func).analyses.forest.loops.length (p.funcName func) ::
          calls.flatMap (told func) := by
  obtain ⟨calls, hvisits, hevents⟩ := visits_foldlM (told func) (f := Walk.scheduled)
    (fun w header hw => visited_visit hxs hw) (p.flow func).analyses.forest.visitOrder
    (w := ⟨p, c, (p.flow func).analyses, .all⟩) rfl
  refine ⟨calls, hvisits, ?_⟩
  rw [← hevents]
  simp [walk, Traced.tell, Program.tracedAnalyses]

end Pipeline

/-! ## Schedules -/

namespace Schedule

/-- What a call tells. The analyses are not computed after a change by a pass that claims to preserve them. -/
def told (func : Nat) (k : LoopCall) : List Event :=
  .loopStarted k.pass.name k.loop :: k.invocation func :: ((k.outcome func).events ++
    if (k.outcome func).val.1.isChanged && !k.pass.usage.preservesAll then k.renewal func else [])

/-- The walk after a call with that outcome. -/
def Walk.after (func : Nat) (keeps : Bool) (w : Walk) (y : PassResult × Program × Context) : Walk :=
  if y.1.isChanged && !keeps then ⟨y.2.1, y.2.2, (y.2.1.flow func).analyses, true⟩
  else ⟨y.2.1, y.2.2, w.analyses, w.changed || y.1.isChanged⟩

variable {x : LoopPass} {l : Loop} {w : Walk}

theorem visit_cons (hl : w.analyses.forest.byHeader? header = some l) :
    let next := w.after func x.usage.preservesAll (x.run l func w.program w.context).val
    (visit func header (x :: xs) w).val = (visit func header xs next).val ∧
      (visit func header (x :: xs) w).events =
        told func ⟨x, l, w.state, w.analyses⟩ ++ (visit func header xs next).events := by
  rw [visit, hl]
  have hstate : w.state = (w.program, w.context) := rfl
  have hanalyses : ∀ q : Program, (q.tracedAnalyses func).val = (q.flow func).analyses := fun _ => rfl
  cases hr : (x.run l func w.program w.context).val.1 <;> cases hk : x.usage.preservesAll <;>
    simp [hr, hk, hstate, hanalyses, told, LoopCall.outcome, LoopCall.renewal, LoopCall.invocation,
      Walk.after, PassResult.isChanged, Traced.tell]

theorem fresh_after (hx : x.Reports) (hk : x.Preserves) (hw : w.Fresh func) :
    (w.after func x.usage.preservesAll (x.run l func w.program w.context).val).Fresh func := by
  unfold Walk.after
  split
  · rfl
  · next hkept =>
    have hsame : (x.run l func w.program w.context).val.2.1.flow func = w.program.flow func := by
      cases hr : (x.run l func w.program w.context).val.1 with
      | noChange => exact hx l func w.program w.context hr
      | changed =>
        rw [hr] at hkept
        exact hk (by simpa [PassResult.isChanged] using hkept) l func w.program w.context
    exact hw.trans (congrArg Flow.analyses hsame.symm)

theorem state_after (func : Nat) (keeps : Bool) (w : Walk) (y : PassResult × Program × Context) :
    (w.after func keeps y).state = y.2 := by
  unfold Walk.after
  split <;> rfl

theorem visited_visit (hxs : ∀ x ∈ xs, x.Reports) (hks : ∀ x ∈ xs, x.Preserves) (hw : w.Fresh func) :
    Visited (told func) func header xs w (visit func header xs w).val (visit func header xs w).events := by
  induction xs generalizing w with
  | nil => exact ⟨hw, [], .done _, rfl⟩
  | cons x xs ih =>
    obtain ⟨hx, hxs⟩ := List.forall_mem_cons.1 hxs
    obtain ⟨hk, hks⟩ := List.forall_mem_cons.1 hks
    cases hl : w.analyses.forest.byHeader? header with
    | none =>
      rw [visit, hl]
      exact .skip hw hl
    | some l =>
      obtain ⟨hval, hevents⟩ := @visit_cons func header xs x l w hl
      rw [hval, hevents]
      exact LoopCall.Visited.call hw hl (state_after ..).symm (ih hxs hks (fresh_after hx hk hw))

theorem walk_calls (hxs : ∀ x ∈ xs, x.Reports) (hks : ∀ x ∈ xs, x.Preserves) (func : Nat) (p : Program)
    (c : Context) : ∃ calls,
    Visits func xs (p.flow func).analyses.forest.visitOrder (p, c) calls (walk xs func p c).val.2 ∧
      (walk xs func p c).events = (p.tracedAnalyses func).events ++
        .loopsEntered (p.flow func).analyses.forest.loops.length (p.funcName func) ::
          calls.flatMap (told func) := by
  obtain ⟨calls, hvisits, hevents⟩ := visits_foldlM (told func) (f := id)
    (fun w header hw => visited_visit hxs hks hw) (p.flow func).analyses.forest.visitOrder
    (w := ⟨p, c, (p.flow func).analyses, false⟩) rfl
  refine ⟨calls, hvisits, ?_⟩
  rw [← hevents]
  simp [walk, Traced.tell, Program.tracedAnalyses]

end Schedule

end LoopClock
