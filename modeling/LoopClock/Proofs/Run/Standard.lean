import LoopClock.Proofs.Run.Walk
import LoopClock.Proofs.Source.Wellformed

/-! The standard run from end to end: declaring the storage, timing all loops, reporting. -/
namespace LoopClock
open Graph Program

variable {c : Config} {p₀ p q : Program} {ts : List Timing}

/-- Block ids and numbers of temporaries are within the ranges of their types. -/
def Program.Fits (p : Program) : Prop :=
  (∀ f ∈ p.funcs, f.total < 0x80000000) ∧ p.temps < 0x100000000

instance (p : Program) : Decidable p.Fits := inferInstanceAs (Decidable (_ ∧ _))

theorem Program.total_lt_of_forall (h : ∀ f ∈ p.funcs, f.total < 0x80000000) (i : Nat) :
    p.total i < 0x80000000 := by
  unfold total
  cases hf : p.funcs[i]? with
  | none => decide
  | some f => exact h f (List.mem_of_getElem? hf)

theorem Program.Fits.total_lt (h : p.Fits) : ∀ i, p.total i < 0x80000000 := total_lt_of_forall h.1

/-! ## What stands around the functions -/

/-- Neither functions nor temporaries are touched. -/
structure Program.Around (p q : Program) : Prop where
  funcs : q.funcs = p.funcs
  temps : q.temps = p.temps

theorem Program.Around.trans {r : Program} (h : Around p q) (k : Around q r) : Around p r :=
  ⟨k.funcs.trans h.funcs, k.temps.trans h.temps⟩

theorem Program.Around.refl : Around p p := ⟨rfl, rfl⟩

theorem around_updateGlobal {name : String} {f : Global → Global} :
    Around p (p.updateGlobal name f) := by
  rw [updateGlobal]
  split <;> exact ⟨rfl, rfl⟩

theorem around_syncStorage {s : Instrumentation} : Around p (p.syncStorage s).val.2 ∧
    timers (p.syncStorage s).events = [] := by
  have hg : Around p (p.growGlobal s.storage.name s.len).2 := by
    rw [growGlobal]
    split
    · exact around_updateGlobal
    · exact Around.refl
  simp only [syncStorage]
  split
  · exact ⟨hg, rfl⟩
  · exact ⟨hg, rfl⟩

theorem around_declare {d : Decl} : Around p (p.declare d).val.2 ∧
    works (p.declare d).events = [] := by
  rw [declare]
  split <;> exact ⟨⟨rfl, rfl⟩, rfl⟩

theorem works_countLoops : works p.countLoops.events = [] := by
  rw [Program.countLoops]
  generalize List.range p.funcs.length = is
  generalize 0 = n
  induction is generalizing n with
  | nil => rfl
  | cons i is ih =>
    rw [List.foldlM_cons, Traced.events_bind, works_append, ih, List.append_nil]
    exact (works_append _ _).trans (by rw [works_tracedAnalyses]; rfl)

theorem around_defineStorage : Around p (p.defineStorage c).val.2.2 ∧
    works (p.defineStorage c).events = [] := by
  rw [defineStorage]
  split
  · exact ⟨⟨rfl, rfl⟩, rfl⟩
  · refine ⟨⟨rfl, rfl⟩, ?_⟩
    rw [Traced.events_bind, works_append, works_countLoops]
    rfl

theorem around_prepare : Around p (p.prepare c).val.2.2 ∧ works (p.prepare c).events = [] ∧
    ∃ len, (p.prepare c).val.2.1 = .ofConfig c len := by
  rw [prepare]
  split
  · next s hs =>
    refine ⟨Around.refl, rfl, ?_⟩
    rw [instrumentation?] at hs
    split at hs
    · obtain ⟨g, _, rfl⟩ := Option.map_eq_some_iff.1 hs
      exact ⟨g.len, rfl⟩
    · cases hs
  · obtain ⟨h₁, t₁⟩ := around_declare (p := p) (d := reportDecl c)
    obtain ⟨h₂, t₂⟩ := around_declare (p := (p.declare (reportDecl c)).val.2) (d := clockDecl c)
    obtain ⟨h₃, t₃⟩ := around_defineStorage (c := c)
      (p := ((p.declare (reportDecl c)).val.2.declare (clockDecl c)).val.2)
    refine ⟨(h₁.trans h₂).trans h₃, ?_, ⟨_, rfl⟩⟩
    simp only [Traced.events_bind, works_append, t₁, t₂, t₃]
    rfl

/-! ## The whole run -/

theorem works_reportTo (s : Progress) : works (reportTo s).events = [] := by
  simp only [reportTo]
  split
  · rfl
  · simp only [Report.insert, Traced.events_bind, works_append]
    split
    · rfl
    split
    · simp [Traced.tellAll, works, Event.work?]
    · rfl

/-- What a standard run does is known change by change, and each timer is announced. -/
structure Instrumented (c : Config) (p q : Program) (slots : Nat) (es : List Announced)
    (ts : List Timing) : Prop where
  changes : ∃ p', Steps c p p' ts ∧ Reported (Report.call (.ofConfig c 0) slots) p' q
  announced : es = ts.map (·.announced p)
  slots : ts.map (·.slot) = List.range slots

namespace Instrumented

variable {slots : Nat} {es : List Announced} (I : Instrumented c p q slots es ts)
include I

theorem slot_lt {t : Timing} (ht : t ∈ ts) : t.slot < slots := by
  rw [← List.mem_range, ← I.slots]
  exact List.mem_map_of_mem ht

variable (hp : p.Proper)
include hp

theorem proper : q.Proper := by
  obtain ⟨p', hsteps, hreport⟩ := I.changes
  exact hreport.rebodied.proper (hsteps.proper hp)

theorem signatures : q.signatures = p.signatures := by
  obtain ⟨p', hsteps, hreport⟩ := I.changes
  exact hreport.rebodied.signatures.trans (hsteps.signatures hp)

/-- Every slot has taken two temporaries at least. -/
theorem two_mul_slots_le : 2 * slots ≤ q.temps := by
  obtain ⟨p', hsteps, hreport⟩ := I.changes
  have hlen : ts.length = slots := by
    rw [← List.length_range (n := slots), ← I.slots, List.length_map]
  rw [hreport.temps, ← hlen]
  exact hsteps.two_mul_length_le hp

end Instrumented

theorem untouched_of_funcs (h : q.funcs = p.funcs) : Untouched p q 0 [] :=
  ⟨fun j _ => total_eq ((Revised.of_funcs h).bare j), fun _ ht => nomatch ht⟩

theorem steps_timeProgram {s : Progress} (h₀ : p₀.Proper) (hs : s.1.funcs = p₀.funcs)
    (h : Steps c p₀ s.1 []) (R : Ready c s []) :
    ∃ ts, timers (timeProgram s).events = ts.map (·.announced p₀) ∧
      Steps c p₀ (timeProgram s).val.1 ts ∧ Ready c (timeProgram s).val ts := by
  have T := untouched_of_funcs hs
  obtain ⟨ts, he, h', R', _⟩ := steps_timeFuncs (i := 0) (n := p₀.funcs.length) h₀ h R (by omega) T
  rw [← List.range_eq_range', ← hs] at he h' R'
  obtain ⟨len, hlen⟩ := R'.instrumentation
  refine ⟨ts, ?_, ?_, ?_⟩
  · simp only [timeProgram, Traced.events_bind, timers_append, he, hlen, around_syncStorage.2]
    exact List.append_nil _
  · simp only [timeProgram, Traced.val_bind, hlen]
    have ha := (around_syncStorage (p := ((List.range s.1.funcs.length).foldlM timeFunc s).val.1)
      (s := .ofConfig c len)).1
    exact .declare h' ha.funcs ha.temps
  · simp only [timeProgram, Traced.val_bind, hlen]
    exact ⟨R'.config, ⟨len, hlen⟩, R'.slots⟩

theorem steps_provideStorage (c : Config) (tally : Nat) (p : Program) :
    Steps c p (provideStorage (p, .ofModule c tally)).val.1 [] ∧
      Ready c (provideStorage (p, .ofModule c tally)).val [] ∧
      (provideStorage (p, .ofModule c tally)).val.1.funcs = p.funcs ∧
      timers (provideStorage (p, .ofModule c tally)).events = [] := by
  obtain ⟨ha, he, len, hlen⟩ := around_prepare (p := p) (c := c)
  refine ⟨.declare .start ha.funcs ha.temps, ⟨rfl, ⟨len, congrArg some hlen⟩, rfl⟩, ha.funcs, ?_⟩
  refine timers_of_works ?_
  simp only [provideStorage, Traced.events_bind, works_append, Context.ofModule, he]
  rfl

theorem reported_reportTo {s : Progress} (R : Ready c s ts) :
    Reported (Report.call (.ofConfig c 0) s.2.slots) s.1 (reportTo s).val.1 ∧
      (reportTo s).val.2.slots = s.2.slots := by
  obtain ⟨len, hlen⟩ := R.instrumentation
  simp only [reportTo, hlen, Traced.val_bind]
  exact ⟨Report.reported_insert, rfl⟩

theorem instrumented_instrument (hp : p.Proper) (c : Config) (tally : Nat) :
    ∃ ts, Instrumented c p (instrument p (.ofModule c tally)).val.1
      (instrument p (.ofModule c tally)).val.2.slots
      (timers (instrument p (.ofModule c tally)).events) ts := by
  obtain ⟨h₁, R₁, hf, e₁⟩ := steps_provideStorage c tally p
  obtain ⟨ts, e₂, h₂, R₂⟩ := steps_timeProgram hp hf h₁ R₁
  refine ⟨ts, ?_⟩
  simp only [instrument, Traced.val_bind, Traced.events_bind, timers_append, e₁, e₂,
    List.nil_append]
  split
  · obtain ⟨h₃, hslots⟩ := reported_reportTo R₂
    rw [← hslots] at h₃
    exact ⟨⟨_, h₂, h₃⟩, by rw [timers_of_works (works_reportTo _), List.append_nil], hslots ▸ R₂.slots⟩
  · exact ⟨⟨_, h₂, Reported.refl⟩, List.append_nil _, R₂.slots⟩

/-- The outcome of a standard run, under either way of ordering the passes. -/
theorem exists_run (m : Manager) (c : Config) (tally : Nat) (hp : p.Proper) :
    ∃ r ts, (m.run none p (.ofModule c tally)).val = .ok r ∧
      Instrumented c p r.program r.context.slots
        (timers (m.run none p (.ofModule c tally)).events) ts := by
  have hrun := m.completes p (.ofModule c tally)
  obtain ⟨ts, hi⟩ := instrumented_instrument hp c tally
  obtain ⟨r, hok, hr⟩ := hrun.ok
  rw [← hrun.timers, ← hr] at hi
  exact ⟨r, ts, hok, hi⟩

/-! ## An instance -/

namespace Source

/-- A loop that is left by two edges for a block that is entered from elsewhere too. -/
def sharedExitText : String :=
  "define i32 @main(i32 %1) \x7b
entry:
br i32 %1, label %B1, label %B2
B1:
br i32 %1, label %B3, label %B2
B3:
%2 = add i32 %1, 1
br i32 %2, label %B1, label %B2
B2:
%3 = phi i32 [0, %entry], [1, %B1], [%2, %B3]
ret i32 %3
\x7d
"

def sharedExit : Program where
  funcs := [⟨"main", .i32, [⟨"1", false, .i32⟩], 3,
    [{ id := 0, succ := [⟨0, 1⟩, ⟨0, 2⟩],
       jump := some (.branch .i32 (.temp ⟨"1", false, .i32⟩) "B1" "B2") },
     { id := 1, prev := [⟨0, 0⟩, ⟨0, 3⟩], succ := [⟨0, 3⟩, ⟨0, 2⟩],
       jump := some (.branch .i32 (.temp ⟨"1", false, .i32⟩) "B3" "B2") },
     { id := 3, prev := [⟨0, 1⟩], succ := [⟨0, 1⟩, ⟨0, 2⟩],
       body := [.arith ⟨"2", false, .i32⟩ .add .i32 (.temp ⟨"1", false, .i32⟩) (.int 1)],
       jump := some (.branch .i32 (.temp ⟨"2", false, .i32⟩) "B1" "B2") },
     { id := 2, prev := [⟨0, 0⟩, ⟨0, 1⟩, ⟨0, 3⟩],
       phis := [⟨⟨"3", false, .i32⟩,
         [(.int 0, "entry"), (.int 1, "B1"), (.temp ⟨"2", false, .i32⟩, "B3")]⟩],
       jump := some (.ret (some (.temp ⟨"3", false, .i32⟩))) }]⟩]
  temps := 3

theorem parse_ofList (cs : List Char) : parse (String.ofList cs) =
    (tree cs >>= fun items => (program items).mapError .fault) := by
  rw [parse, String.toList_ofList]

-- the text is matched with a list of characters one by one
set_option maxRecDepth 4000 in
theorem parse_sharedExit : parse sharedExitText = .ok sharedExit := by
  refine (parse_ofList _).trans ?_
  decide +kernel

theorem fits_sharedExit {r : Run}
    (hr : (Manager.pipeline.run none sharedExit (.ofModule {} 0)).val = .ok r) :
    r.program.Fits :=
  of_toOption_all (fun r => r.program.Fits) hr (by decide +kernel)

end Source

end LoopClock
