import LoopClock.Proofs.Flow.VisitOrder
import LoopClock.Proofs.Run.Exits
import LoopClock.Proofs.Run.Plain

/-! A standard run is made of the known changes, and it announces exactly the timers that it places. -/
namespace LoopClock
open Graph Program

variable {c : Config} {p₀ pₛ p q : Program} {i : Nat} {ts : List Timing} {hs : List Vertex}

def Timing.announced (p : Program) (t : Timing) : Announced := (t.header.id, p.funcName t.func, t.slot)

namespace Steps

/-- Each timer takes two temporaries besides those of its records. -/
theorem two_mul_length_le (h : Steps c p₀ p ts) (h₀ : p₀.Proper) : 2 * ts.length ≤ p.temps := by
  induction h with
  | start => exact Nat.zero_le _
  | declare _ _ temps ih => omega
  | split steps site split ih =>
    have := ((site.cut (steps.proper h₀)).grows split).le
    omega
  | place =>
    rw [Timer.temps_place, List.length_append, List.length_singleton]
    omega

theorem name_eq (h : Steps c p₀ p ts) (h₀ : p₀.Proper) (j : Nat) :
    p.funcName j = p₀.funcName j :=
  congrArg (Option.getD · "") (name?_of_signatures (h.signatures h₀) j)

end Steps

/-! ## One loop -/

/-- What the passes know about the timers placed so far. -/
structure Ready (c : Config) (s : Progress) (ts : List Timing) : Prop where
  config : s.2.config = c
  instrumentation : ∃ len, s.2.instrumentation = some (.ofConfig c len)
  slots : ts.map (·.slot) = List.range s.2.slots

namespace Walked

theorem mono (W : Walked c p₀ pₛ i p ts hs) (h : Vertex) : Walked c p₀ pₛ i p ts (hs ++ [h]) where
  steps := W.steps
  func := W.func
  header := W.header
  inLoop := W.inLoop
  visited t ht hf := List.mem_append_left _ (W.visited t ht hf)
  claimed v hf hv hnew := by
    obtain ⟨k, hk, hd⟩ := W.claimed v hf hv hnew
    exact ⟨k, List.mem_append_left _ hk, hd⟩
  placed := W.placed
  others := W.others

theorem place {l : Loop} {len slot : Nat} (h₀ : p₀.Proper) (W : Walked c p₀ pₛ i p ts hs)
    (hl : p.HasLoop i l) (own : OwnExits p i l.header) (hmem : l.header ∈ hs) :
    Walked c p₀ pₛ i (Timer.place p i (.ofConfig c len) slot l.header (p.exitBlocks l))
      (ts ++ [⟨i, l.header, slot, p.temps⟩]) hs := by
  have hr : Rebodied p (Timer.place p i (.ofConfig c len) slot l.header (p.exitBlocks l)) :=
    Timer.rebodied_place (W.steps.proper h₀) W.func
  constructor
  · exact .place W.steps W.func hl own
  · exact hr.length ▸ W.func
  · rw [hr.edge]
    exact W.header
  · rw [hr.edge]
    exact W.inLoop
  · intro t ht hf
    rcases List.mem_append.1 ht with ht | ht
    · exact W.visited t ht hf
    · obtain rfl := List.mem_singleton.1 ht
      exact hmem
  · rw [hr.edge, hr.ids]
    exact W.claimed
  · intro t ht
    rcases List.mem_append.1 ht with ht | ht
    · exact W.placed t ht
    · obtain rfl := List.mem_singleton.1 ht
      exact Nat.le_refl i
  · intro j hj
    rw [hr.total]
    exact W.others j hj

end Walked

theorem ofConfig_require (c : Config) (len slot : Nat) :
    ∃ len', ((Instrumentation.ofConfig c len).require slot).2 = .ofConfig c len' := by
  rw [Instrumentation.require]
  split
  · exact ⟨len, rfl⟩
  · exact ⟨slot + 1, rfl⟩

theorem timeLoop_none {s : Progress} {k : Int} (hl : (s.1.flow i).forest.byHeader? k = none) :
    timeLoop i s k = pure s := by
  rw [timeLoop, hl]

theorem timeLoop_some {s : Progress} {k : Int} {l : Loop} {u : Instrumentation}
    (hl : (s.1.flow i).forest.byHeader? k = some l) (hu : s.2.instrumentation = some u) :
    (timeLoop i s k).val =
      (let t := (Timer.time l i ⟨s.1, u, s.2.slots⟩).val.2
       (t.program, { s.2 with
          tally := s.2.tally + 1, slots := t.slots, instrumentation := some t.instrumentation })) ∧
      (timeLoop i s k).events = (Timer.time l i ⟨s.1, u, s.2.slots⟩).events := by
  simp only [timeLoop, hl, hu]
  exact ⟨rfl, List.append_nil _⟩

/-- Timing one loop of the walk. Earlier loops do not lie around it. -/
theorem walked_timeLoop {s : Progress} {k : Int} (U : Unwalked p₀ pₛ i)
    (W : Walked c p₀ pₛ i s.1 ts hs) (R : Ready c s ts)
    (hout : ∀ h ∈ hs, ¬ InLoop pₛ.Edge (root i) h ⟨i, k⟩) :
    ∃ ts', timers (timeLoop i s k).events = ts'.map (·.announced p₀) ∧
      Walked c p₀ pₛ i (timeLoop i s k).val.1 (ts ++ ts') (hs ++ [⟨i, k⟩]) ∧
      Ready c (timeLoop i s k).val (ts ++ ts') := by
  have hp := W.steps.proper U.origin
  cases hl : (s.1.flow i).forest.byHeader? k with
  | none =>
    rw [timeLoop_none hl]
    exact ⟨[], rfl, by simpa using W.mono ⟨i, k⟩, by simpa using R⟩
  | some l =>
    obtain ⟨len, hlen⟩ := R.instrumentation
    have hn : s.1.HasLoop i l :=
      (hp.sound W.func).natural_of_mem_loops (List.mem_of_find?_eq_some hl)
    have hid : l.header.id = k := by simpa using List.find?_some hl
    have hh : l.header = ⟨i, k⟩ :=
      Vertex.ext (U.old_header ((W.header _).1 hn.header)).1 hid
    obtain ⟨hval, hevents⟩ := timeLoop_some hl hlen
    rw [hval, hevents]
    by_cases he : s.1.exitBlocks l = []
    · obtain ⟨ht, he⟩ := Timer.time_of_no_exits l i ⟨s.1, .ofConfig c len, s.2.slots⟩ he
      rw [ht, timers_of_works he]
      exact ⟨[], rfl, by simpa using W.mono ⟨i, k⟩,
        ⟨R.config, ⟨len, rfl⟩, by simpa using R.slots⟩⟩
    · have ht := Timer.val_time_of_exits l i ⟨s.1, .ofConfig c len, s.2.slots⟩ he
      have he := Timer.timers_time_of_exits l i ⟨s.1, .ofConfig c len, s.2.slots⟩ he
      obtain ⟨W', hn', own⟩ := walked_dedicateExits U W hn (hh ▸ hout)
      obtain ⟨len', hlen'⟩ := ofConfig_require c len s.2.slots
      rw [ht, he]
      dsimp only
      rw [hlen']
      let t : Timing := ⟨i, l.header, s.2.slots, (s.1.dedicateExits i l).val.1.temps⟩
      refine ⟨[t], ?_, ?_, ?_⟩
      · rw [W.steps.name_eq U.origin]
        rfl
      · rw [← hh]
        exact W'.place U.origin hn' own (List.mem_append_right _ (List.mem_singleton_self _))
      · refine ⟨R.config, ⟨len', rfl⟩, ?_⟩
        rw [List.map_append, R.slots, List.range_succ]
        rfl

/-- Timing all loops of a list in which no loop lies around a later one. -/
theorem walked_timeLoops {s : Progress} {ks : List Int} (U : Unwalked p₀ pₛ i)
    (W : Walked c p₀ pₛ i s.1 ts hs) (R : Ready c s ts)
    (hout : (hs ++ ks.map (Vertex.mk i)).Pairwise fun h k => ¬ InLoop pₛ.Edge (root i) h k) :
    ∃ ts', timers (ks.foldlM (timeLoop i) s).events = ts'.map (·.announced p₀) ∧
      Walked c p₀ pₛ i (ks.foldlM (timeLoop i) s).val.1 (ts ++ ts') (hs ++ ks.map (Vertex.mk i)) ∧
      Ready c (ks.foldlM (timeLoop i) s).val (ts ++ ts') := by
  induction ks generalizing s ts hs with
  | nil => exact ⟨[], rfl, by simpa using W, by simpa using R⟩
  | cons k ks ih =>
    have hfirst : ∀ h ∈ hs, ¬ InLoop pₛ.Edge (root i) h ⟨i, k⟩ := fun h hh =>
      (List.pairwise_append.1 hout).2.2 h hh _ List.mem_cons_self
    obtain ⟨ts₁, he₁, W₁, R₁⟩ := walked_timeLoop U W R hfirst
    obtain ⟨ts₂, he₂, W₂, R₂⟩ := ih W₁ R₁ (by simpa using hout)
    refine ⟨ts₁ ++ ts₂, ?_, ?_, ?_⟩
    · rw [List.foldlM_cons, Traced.events_bind, timers_append, he₁, he₂, List.map_append]
    · simpa [List.foldlM_cons] using W₂
    · simpa [List.foldlM_cons] using R₂

/-! ## Functions -/

/-- The headers of a function in the order of visits. -/
theorem visitOrder_pairwise (hp : pₛ.Proper) (hi : i < pₛ.funcs.length) :
    ((pₛ.flow i).forest.visitOrder.map (Vertex.mk i)).Pairwise
      fun h k => ¬ InLoop pₛ.Edge (root i) h k := by
  have hs := hp.sound hi
  have hv : ∀ l ∈ (pₛ.flow i).forest.postOrder, (⟨i, l.header.id⟩ : Vertex) = l.header := by
    intro l hl
    have hn := hs.natural_of_mem_loops (hs.mem_postOrder.1 hl)
    exact Vertex.ext (hp.reaches_func hn.header.reaches).symm rfl
  rw [LoopForest.visitOrder, List.map_map, List.pairwise_map]
  refine hs.postOrder_pairwise.imp_of_mem fun {l m} hl hm h => ?_
  rw [Function.comp_apply, Function.comp_apply, hv l hl, hv m hm]
  exact h

/-- Functions from number `i` on are as they were, and have no timers. -/
structure Untouched (p₀ p : Program) (i : Nat) (ts : List Timing) : Prop where
  total : ∀ j, i ≤ j → p.total j = p₀.total j
  timers : ∀ t ∈ ts, t.func < i

/-- The walk over the loops of a function starts where the functions before it have been timed. -/
theorem Untouched.walked {s : Progress} (h₀ : p₀.Proper) (h : Steps c p₀ s.1 ts)
    (hi : i < p₀.funcs.length) (T : Untouched p₀ s.1 i ts) :
    Unwalked p₀ s.1 i ∧ Walked c p₀ s.1 i s.1 ts [] := by
  have hp := h.proper h₀
  have hlt : i < s.1.funcs.length := h.length_eq h₀ ▸ hi
  have U : Unwalked p₀ s.1 i := ⟨h₀, hp, hlt, T.total i (Nat.le_refl i)⟩
  refine ⟨U, h, hlt, fun _ => Iff.rfl, fun _ _ _ _ => Iff.rfl, fun t ht hf => ?_,
    fun v _ hv hnew => ?_, fun t ht => Nat.le_of_lt (T.timers t ht), fun _ _ => rfl⟩
  · exact absurd (T.timers t ht) (by omega)
  · have := (hp.bound i v.id hv).2
    have := U.total
    omega

theorem steps_timeFunc {s : Progress} (h₀ : p₀.Proper) (h : Steps c p₀ s.1 ts) (R : Ready c s ts)
    (hi : i < p₀.funcs.length) (T : Untouched p₀ s.1 i ts) :
    ∃ ts', timers (timeFunc s i).events = ts'.map (·.announced p₀) ∧
      Steps c p₀ (timeFunc s i).val.1 (ts ++ ts') ∧ Ready c (timeFunc s i).val (ts ++ ts') ∧
      Untouched p₀ (timeFunc s i).val.1 (i + 1) (ts ++ ts') := by
  obtain ⟨U, W⟩ := T.walked h₀ h hi
  obtain ⟨ts', he, W', R'⟩ := walked_timeLoops U W R (visitOrder_pairwise U.proper U.func)
  refine ⟨ts', he, W'.steps, R', fun j hj => ?_, fun t ht => Nat.lt_succ_of_le (W'.placed t ht)⟩
  have hji : j ≠ i := by omega
  exact (W'.others j hji).trans (T.total j (by omega))

theorem steps_timeFuncs {s : Progress} {n : Nat} (h₀ : p₀.Proper) (h : Steps c p₀ s.1 ts)
    (R : Ready c s ts) (hn : i + n ≤ p₀.funcs.length) (T : Untouched p₀ s.1 i ts) :
    ∃ ts', timers ((List.range' i n).foldlM timeFunc s).events = ts'.map (·.announced p₀) ∧
      Steps c p₀ ((List.range' i n).foldlM timeFunc s).val.1 (ts ++ ts') ∧
      Ready c ((List.range' i n).foldlM timeFunc s).val (ts ++ ts') ∧
      Untouched p₀ ((List.range' i n).foldlM timeFunc s).val.1 (i + n) (ts ++ ts') := by
  induction n generalizing i s ts with
  | zero => exact ⟨[], rfl, by simpa using h, by simpa using R, by simpa using T⟩
  | succ n ih =>
    obtain ⟨ts₁, he₁, h₁, R₁, T₁⟩ := steps_timeFunc h₀ h R (by omega) T
    obtain ⟨ts₂, he₂, h₂, R₂, T₂⟩ := ih h₁ R₁ (by omega) T₁
    rw [List.range'_succ, List.foldlM_cons]
    refine ⟨ts₁ ++ ts₂, ?_, ?_, ?_, ?_⟩
    · rw [Traced.events_bind, timers_append, he₁, he₂, List.map_append]
    · simpa using h₂
    · simpa using R₂
    · rw [show i + (n + 1) = i + 1 + n by omega]
      simpa using T₂

end LoopClock
