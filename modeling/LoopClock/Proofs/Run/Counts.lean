import LoopClock.Proofs.Flow.VisitOrder
import LoopClock.Proofs.Program.Globals
import LoopClock.Proofs.Run.Kept
import LoopClock.Proofs.Run.Standard
import Mathlib.Data.List.Induction

/-! How many loops a run counts and which of them get a slot. All is told by the program that the run
starts with: what is done for a loop does not depend on what was done for those before it. -/
namespace LoopClock
open Graph Program

/-- The loops of all functions in the order of visits, each with the place of its function. -/
def Program.visits (p : Program) : List (Nat × Loop) :=
  (List.range p.funcs.length).flatMap fun i => (p.flow i).forest.postOrder.map (i, ·)

/-- Those of the loops that can be left. -/
def Program.leavable (p : Program) (vs : List (Nat × Loop)) : List (Nat × Loop) :=
  vs.filter fun v => p.exitBlocks v.2 ≠ []

/-- What is announced for loops that get the slots from 0 on. -/
def Program.announcements (p : Program) (vs : List (Nat × Loop)) : List Announced :=
  vs.zipIdx.map fun v => (v.1.2.header.id, p.funcName v.1.1, v.2)

variable {c : Config} {p₀ p q : Program} {i tally len : Nat} {ts : List Timing} {l : Loop}
  {vs : List (Nat × Loop)} {s : Progress} {es fs : List Event}

/-- What the context and the events tell of a run that has come by the loops `vs`. -/
structure Tallied (c : Config) (p₀ : Program) (tally len : Nat) (vs : List (Nat × Loop))
    (x : Context) (es : List Event) : Prop where
  config : x.config = c
  tally : x.tally = tally + vs.length
  slots : x.slots = (p₀.leavable vs).length
  instrumentation : x.instrumentation = some (.ofConfig c (max len x.slots))
  timers : timers es = p₀.announcements (p₀.leavable vs)
  ungrown : ∀ storage n, .storageGrown storage n ∉ es

/-- Whether a loop can be left is the same at every point of a run. -/
theorem exitBlocks_iff (h₀ : p₀.Proper) (h : Steps c p₀ p ts) {l' : Loop} (hl : p₀.HasLoop i l)
    (hl' : p.HasLoop i l') (hh : l'.header = l.header) :
    p.exitBlocks l' ≠ [] ↔ p₀.exitBlocks l ≠ [] := by
  have key : ∀ {q : Program} {m : Loop}, q.Proper → q.HasLoop i m →
      (q.exitBlocks m ≠ [] ↔ ∃ x, IsExit q.Edge (root i) m.header x) := fun hq hm => by
    constructor
    · intro hne
      obtain ⟨x, hx⟩ := List.exists_mem_of_ne_nil _ hne
      exact ⟨x, (HasLoop.mem_exitBlocks hq hm).1 hx⟩
    · rintro ⟨x, hx⟩
      exact List.ne_nil_of_mem ((HasLoop.mem_exitBlocks hq hm).2 hx)
  rw [key (h.proper h₀) hl', key h₀ hl, hh]
  exact h.exists_isExit_iff h₀ hl.header

theorem ofConfig_require_max (c : Config) (len slot : Nat) :
    ((Instrumentation.ofConfig c (max len slot)).require slot).2 =
      .ofConfig c (max len (slot + 1)) := by
  have hlen : (Instrumentation.ofConfig c (max len slot)).len = max len slot := rfl
  rw [Instrumentation.require, hlen]
  split
  · next h => rw [show max len slot = max len (slot + 1) by omega]
  · next h => rw [show max len (slot + 1) = slot + 1 by omega]; rfl

theorem mem_works_grown {storage : Temp} {n : Nat} :
    .storageGrown storage n ∈ works es ↔ .storageGrown storage n ∈ es := by
  rw [works, List.mem_filterMap]
  constructor
  · rintro ⟨e, he, hw⟩
    cases e <;> cases hw
    exact he
  · exact fun h => ⟨_, h, rfl⟩

theorem ungrown_append (h : ∀ storage n, .storageGrown storage n ∉ es)
    (hf : works fs = [] ∨ ∃ header func slot exits, works fs = [.loopTimed header func slot exits]) :
    ∀ storage n, .storageGrown storage n ∉ es ++ fs := by
  intro storage n hmem
  rcases List.mem_append.1 hmem with hmem | hmem
  · exact h storage n hmem
  · rw [← mem_works_grown] at hmem
    rcases hf with hf | ⟨_, _, _, _, hf⟩
    · rw [hf] at hmem
      cases hmem
    · rw [hf] at hmem
      cases List.mem_singleton.1 hmem

namespace Tallied

variable {x : Context}

/-- A loop without exits is counted only. -/
theorem skip (T : Tallied c p₀ tally len vs x es) (he : p₀.exitBlocks l = [])
    (hf : works fs = []) :
    Tallied c p₀ tally len (vs ++ [(i, l)]) { x with tally := x.tally + 1 } (es ++ fs) := by
  have hsame : p₀.leavable (vs ++ [(i, l)]) = p₀.leavable vs := by
    simp [leavable, List.filter_append, he]
  refine ⟨T.config, ?_, ?_, T.instrumentation, ?_, ungrown_append T.ungrown (.inl hf)⟩
  · rw [T.tally, List.length_append]
    rfl
  · rw [hsame, T.slots]
  · rw [timers_append, timers_of_works hf, List.append_nil, hsame, T.timers]

/-- A loop with exits gets the next slot. -/
theorem time (T : Tallied c p₀ tally len vs x es) (he : p₀.exitBlocks l ≠ []) {exits : Nat}
    (hf : works fs = [.loopTimed l.header.id (p₀.funcName i) x.slots exits]) :
    Tallied c p₀ tally len (vs ++ [(i, l)]) { x with
      tally := x.tally + 1
      slots := x.slots + 1
      instrumentation := some (.ofConfig c (max len (x.slots + 1))) } (es ++ fs) := by
  have hmore : p₀.leavable (vs ++ [(i, l)]) = p₀.leavable vs ++ [(i, l)] := by
    simp [leavable, List.filter_append, he]
  refine ⟨T.config, ?_, ?_, rfl, ?_, ungrown_append T.ungrown (.inr ⟨_, _, _, _, hf⟩)⟩
  · rw [T.tally, List.length_append]
    rfl
  · rw [hmore, List.length_append, ← T.slots]
    rfl
  · rw [timers_append, T.timers, ← timers_works fs, hf, hmore, announcements, announcements,
      List.zipIdx_append, List.map_append, T.slots]
    simp only [List.zipIdx_singleton, List.map_cons, List.map_nil, Nat.zero_add]
    rfl

end Tallied

theorem tallied_timeLoop (h₀ : p₀.Proper) (h : Steps c p₀ s.1 ts) (hi : i < p₀.funcs.length)
    (hl : l ∈ (p₀.flow i).forest.loops) (T : Tallied c p₀ tally len vs s.2 es) :
    Tallied c p₀ tally len (vs ++ [(i, l)]) (timeLoop i s l.header.id).val.2
      (es ++ (timeLoop i s l.header.id).events) := by
  have hp := h.proper h₀
  have hn := (h₀.sound hi).natural_of_mem_loops hl
  have hs := hp.sound (h.length_eq h₀ ▸ hi)
  obtain ⟨l', hl', hfind, hh⟩ := hs.exists_byHeader? ((h.isHeader_iff h₀).2 hn.header)
  have hiff := exitBlocks_iff h₀ h hn (hs.natural_of_mem_loops hl') hh
  have hname := h.name_eq h₀ i
  obtain ⟨hval, hevents⟩ := timeLoop_some hfind T.instrumentation
  rw [hval, hevents]
  by_cases he : p₀.exitBlocks l = []
  · obtain ⟨ht, hw⟩ := Timer.time_of_no_exits l' i ⟨s.1, .ofConfig c (max len s.2.slots), s.2.slots⟩
      (not_not.1 fun hne => hiff.1 hne he)
    rw [ht]
    dsimp only
    rw [← T.instrumentation]
    exact T.skip he hw
  · have hne : s.1.exitBlocks l' ≠ [] := hiff.2 he
    have ht := Timer.val_time_of_exits l' i ⟨s.1, .ofConfig c (max len s.2.slots), s.2.slots⟩ hne
    have hw := Timer.works_time_of_exits l' i ⟨s.1, .ofConfig c (max len s.2.slots), s.2.slots⟩ hne
    rw [ht]
    dsimp only
    rw [ofConfig_require_max]
    rw [hh, hname] at hw
    exact T.time he hw

/-! ## Functions -/

theorem tallied_timeFunc (h₀ : p₀.Proper) (h : Steps c p₀ s.1 ts) (R : Ready c s ts)
    (hi : i < p₀.funcs.length) (U : Untouched p₀ s.1 i ts)
    (T : Tallied c p₀ tally len vs s.2 es) :
    Tallied c p₀ tally len (vs ++ (p₀.flow i).forest.postOrder.map (i, ·)) (timeFunc s i).val.2
      (es ++ (timeFunc s i).events) := by
  obtain ⟨W₀, W⟩ := U.walked h₀ h hi
  have hforest := h.forest_eq h₀ hi W₀.total
  have hout := visitOrder_pairwise W₀.proper W₀.func
  rw [timeFunc, LoopForest.visitOrder, hforest]
  rw [LoopForest.visitOrder, hforest] at hout
  have hmem : ∀ l ∈ (p₀.flow i).forest.postOrder, l ∈ (p₀.flow i).forest.loops :=
    fun l => (h₀.sound hi).mem_postOrder.1
  -- the last loop of a part of the walk is timed after the rest of it
  generalize (p₀.flow i).forest.postOrder = ls at hout hmem
  induction ls using List.reverseRecOn with
  | nil => simpa using T
  | append_singleton ls l ih =>
    rw [List.map_append, List.map_append] at hout
    obtain ⟨ts', _, W', _⟩ := walked_timeLoops W₀ W R (List.pairwise_append.1 hout).1
    have T' := ih (List.pairwise_append.1 hout).1 fun m hm => hmem m (List.mem_append_left _ hm)
    have T'' := tallied_timeLoop h₀ W'.steps hi (hmem l (by simp)) T'
    simpa using T''

theorem tallied_timeFuncs (h₀ : p₀.Proper) (h : Steps c p₀ s.1 ts) (R : Ready c s ts)
    (U : Untouched p₀ s.1 0 ts) (T : Tallied c p₀ tally len [] s.2 es) {n : Nat}
    (hn : n ≤ p₀.funcs.length) :
    Tallied c p₀ tally len
      ((List.range n).flatMap fun i => (p₀.flow i).forest.postOrder.map (i, ·))
      ((List.range n).foldlM timeFunc s).val.2 (es ++ ((List.range n).foldlM timeFunc s).events) := by
  induction n with
  | zero => simpa using T
  | succ n ih =>
    obtain ⟨ts', _, h', R', U'⟩ := steps_timeFuncs (i := 0) (n := n) h₀ h R (by omega) U
    rw [← List.range_eq_range', Nat.zero_add] at U'
    rw [← List.range_eq_range'] at h' R'
    have T' := tallied_timeFunc h₀ h' R' (by omega) U' (ih (by omega))
    simpa [List.range_succ] using T'

/-! ## Whole runs -/

theorem val_countLoops (h₀ : p.Proper) : p.countLoops.val = p.visits.length := by
  have hsum : ∀ is : List Nat, (∀ i ∈ is, i < p.funcs.length) → ∀ n,
      (is.foldlM (fun n func => do return n + (← p.tracedAnalyses func).forest.loops.length)
        n : Traced Nat).val =
        n + (is.flatMap fun i => (p.flow i).forest.postOrder.map (i, ·)).length := by
    intro is
    induction is with
    | nil => exact fun _ _ => rfl
    | cons i is ih =>
      intro hlt n
      have hperm := (h₀.sound (hlt i List.mem_cons_self)).postOrder_perm.length_eq
      rw [List.foldlM_cons, Traced.val_bind, ih fun j hj => hlt j (List.mem_cons_of_mem i hj)]
      show n + (p.flow i).forest.loops.length + _ = _
      rw [List.flatMap_cons, List.length_append, List.length_map, hperm, Nat.add_assoc]
  rw [countLoops, hsum _ (fun i hi => List.mem_range.1 hi) 0, visits, Nat.zero_add]

/-- The storage that the timers of a run write into, before it is grown. -/
def Program.storageFor (p : Program) (c : Config) : Global :=
  (p.global? c.storage).getD (.zeroed c.storage (max p.visits.length c.minSlots) slotBits)

theorem visits_of_funcs (h : q.funcs = p.funcs) : q.visits = p.visits := by
  cases p
  cases q
  cases h
  rfl

theorem storageFor_congr (hf : q.funcs = p.funcs) (hg : q.globals = p.globals) :
    q.storageFor c = p.storageFor c := by
  rw [storageFor, storageFor, global?, global?, hg, visits_of_funcs hf]

theorem inside_declare {d : Decl} :
    (p.declare d).val.2.funcs = p.funcs ∧ (p.declare d).val.2.globals = p.globals := by
  rw [declare]
  split <;> exact ⟨rfl, rfl⟩

theorem defined_storage (hp : p.Proper) (c : Config) :
    (p.defineStorage c).val.2.2.global? c.storage = some (p.storageFor c) ∧
      (p.defineStorage c).val.2.1 = (p.storageFor c).len := by
  rw [defineStorage, storageFor]
  cases hs : p.global? c.storage with
  | some g => exact ⟨hs, rfl⟩
  | none =>
    simp only [Traced.val_bind, Traced.val_pure, Option.getD_none, val_countLoops hp]
    refine ⟨?_, rfl⟩
    rw [global?] at hs ⊢
    rw [List.find?_append, hs]
    simp [Global.zeroed]

theorem prepared_storage (hp : p.Proper) (c : Config) :
    (p.prepare c).val.2.2.global? c.storage = some (p.storageFor c) ∧
      (p.prepare c).val.2.1 = .ofConfig c (p.storageFor c).len := by
  rw [prepare]
  split
  · next s hs =>
    rw [instrumentation?] at hs
    split at hs
    · obtain ⟨g, hg, rfl⟩ := Option.map_eq_some_iff.1 hs
      rw [storageFor, hg]
      exact ⟨hg, rfl⟩
    · cases hs
  · simp only [Traced.val_bind, Traced.val_pure]
    obtain ⟨hf₁, hg₁⟩ := inside_declare (p := p) (d := reportDecl c)
    obtain ⟨hf₂, hg₂⟩ := inside_declare (p := (p.declare (reportDecl c)).val.2) (d := clockDecl c)
    have hf := hf₂.trans hf₁
    have hg := hg₂.trans hg₁
    have hq := (Rebodied.of_funcs hf).proper hp
    obtain ⟨h, hlen⟩ := defined_storage hq c
    rw [storageFor_congr hf hg] at h hlen
    exact ⟨h, congrArg (Instrumentation.ofConfig c) hlen⟩

theorem inside_timeLoop (func : Nat) (s : Progress) (k : Int) : s.1.Inside (timeLoop func s k).val.1 := by
  rw [timeLoop]
  split
  · exact .refl
  · next l _ =>
    dsimp only
    split
    · exact .refl
    · next u _ =>
      by_cases he : s.1.exitBlocks l = []
      · rw [Traced.val_bind, (Timer.time_of_no_exits l func ⟨s.1, u, s.2.slots⟩ he).1]
        exact .refl
      · rw [Traced.val_bind, Timer.val_time_of_exits l func ⟨s.1, u, s.2.slots⟩ he]
        exact inside_dedicateExits.trans Timer.inside_place

theorem inside_foldlM {α : Type} {step : Progress → α → Traced Progress}
    (h : ∀ (s : Progress) a, s.1.Inside (step s a).val.1) (as : List α) (s : Progress) :
    s.1.Inside (as.foldlM step s).val.1 := by
  induction as generalizing s with
  | nil => exact .refl
  | cons a as ih =>
    rw [List.foldlM_cons, Traced.val_bind]
    exact (h s a).trans (ih _)

theorem inside_timeFunc (s : Progress) (func : Nat) : s.1.Inside (timeFunc s func).val.1 :=
  inside_foldlM (inside_timeLoop func) _ s

/-- What a run amounts to, as far as counts go. -/
structure Accounted (c : Config) (p : Program) (tally : Nat) (x : Progress) (es : List Event) :
    Prop where
  tally : x.2.tally = tally + p.visits.length
  slots : x.2.slots = (p.leavable p.visits).length
  timers : timers es = p.announcements (p.leavable p.visits)
  instrumentation : x.2.instrumentation = some (.ofConfig c (max (p.storageFor c).len x.2.slots))
  storage : x.1.global? c.storage = some ((p.storageFor c).growTo x.2.slots).2
  ungrown : x.2.slots ≤ (p.storageFor c).len → ∀ storage n, .storageGrown storage n ∉ es

theorem growTo_max (g : Global) (n : Nat) : (g.growTo (max g.len n)).2 = (g.growTo n).2 := by
  by_cases h : n ≤ g.len
  · rw [Nat.max_eq_left h, Global.growTo_of_le (Nat.le_refl _), Global.growTo_of_le h]
  · rw [Nat.max_eq_right (Nat.le_of_not_le h)]

theorem synced_storage {u : Instrumentation} {g : Global} (h : p.global? u.storage.name = some g) :
    (p.syncStorage u).val.2.global? u.storage.name = some (g.growTo u.len).2 ∧
      (u.len ≤ g.len → (p.syncStorage u).events = []) := by
  simp only [syncStorage, growGlobal, h]
  have hglobal : (p.updateGlobal u.storage.name fun g => (g.growTo u.len).2).global?
      u.storage.name = some (g.growTo u.len).2 := by
    rw [global?_updateGlobal fun g => g.name_growTo u.len, h]
    rfl
  constructor
  · split <;> exact hglobal
  · intro hle
    rw [Global.growTo_of_le hle]
    rfl

theorem accounted_timeProgram (hp : p.Proper) (hs : s.1.funcs = p.funcs) (h : Steps c p s.1 [])
    (R : Ready c s []) (T : Tallied c p tally (p.storageFor c).len [] s.2 es)
    (hg : s.1.global? c.storage = some (p.storageFor c)) :
    Accounted c p tally (timeProgram s).val (es ++ (timeProgram s).events) := by
  have T' := tallied_timeFuncs hp h R (untouched_of_funcs hs) T (Nat.le_refl _)
  have hin := inside_foldlM inside_timeFunc (List.range p.funcs.length) s
  have hlen : s.1.funcs.length = p.funcs.length := congrArg List.length hs
  rw [timeProgram, hlen]
  generalize (List.range p.funcs.length).foldlM timeFunc s = y at T' hin
  have hy : y.val.1.global? c.storage = some (p.storageFor c) := (hin.global? _).trans hg
  obtain ⟨hglobal, hquiet⟩ := synced_storage
    (u := .ofConfig c (max (p.storageFor c).len y.val.2.slots)) hy
  simp only [Traced.val_bind, Traced.events_bind, T'.instrumentation, Traced.val_pure,
    Traced.events_pure, List.append_nil]
  refine ⟨T'.tally, T'.slots, ?_, T'.instrumentation, ?_, fun hle storage n hmem => ?_⟩
  · rw [← List.append_assoc, timers_append, T'.timers, around_syncStorage.2, List.append_nil]
    rfl
  · exact hglobal.trans (congrArg some (growTo_max _ _))
  · rw [hquiet (Nat.le_of_eq (Nat.max_eq_left hle)), List.append_nil] at hmem
    exact T'.ungrown storage n hmem

theorem Accounted.reported {x : Progress} (A : Accounted c p tally x es) :
    Accounted c p tally (reportTo x).val (es ++ (reportTo x).events) := by
  have hw := works_reportTo x
  have hsame : (reportTo x).val.2 = x.2 ∧ x.1.Inside (reportTo x).val.1 := by
    simp only [reportTo, A.instrumentation]
    exact ⟨rfl, Report.inside_insert⟩
  refine ⟨hsame.1 ▸ A.tally, hsame.1 ▸ A.slots, ?_, hsame.1 ▸ A.instrumentation, ?_,
    fun hle => ungrown_append (A.ungrown (hsame.1 ▸ hle)) (.inl hw)⟩
  · rw [timers_append, timers_of_works hw, List.append_nil, A.timers]
  · rw [hsame.1, hsame.2.global?, A.storage]

/-- Before the report is made, all is counted. -/
theorem accounted_timed (hp : p.Proper) (c : Config) (tally : Nat) :
    Accounted c p tally (timeProgram (provideStorage (p, .ofModule c tally)).val).val
      ((provideStorage (p, .ofModule c tally)).events ++
        (timeProgram (provideStorage (p, .ofModule c tally)).val).events) := by
  obtain ⟨h, R, hf, _⟩ := steps_provideStorage c tally p
  obtain ⟨hg, hlen⟩ := prepared_storage hp c
  have hw : works (provideStorage (p, .ofModule c tally)).events = [] := by
    simp only [provideStorage, Traced.events_bind, works_append, Context.ofModule, around_prepare.2.1]
    rfl
  have T : Tallied c p tally (p.storageFor c).len [] (provideStorage (p, .ofModule c tally)).val.2
      (provideStorage (p, .ofModule c tally)).events := by
    refine ⟨rfl, rfl, rfl, ?_, timers_of_works hw, fun storage n hmem => ?_⟩
    · simp [provideStorage, Context.ofModule, hlen]
    · rw [← mem_works_grown, hw] at hmem
      cases hmem
  exact accounted_timeProgram hp hf h R T hg

theorem accounted_instrument (hp : p.Proper) (c : Config) (tally : Nat) :
    Accounted c p tally (instrument p (.ofModule c tally)).val
      (instrument p (.ofModule c tally)).events := by
  have A := accounted_timed hp c tally
  rw [instrument]
  simp only [Traced.val_bind, Traced.events_bind]
  rw [← List.append_assoc]
  split
  · exact A.reported
  · exact ⟨A.tally, A.slots, by simpa using A.timers, A.instrumentation, A.storage,
      by simpa using A.ungrown⟩

end LoopClock
