import LoopClock.Proofs.Run.Standard
import LoopClock.Proofs.Run.Tracks

/-! The branches that are printed, and the edges of the flow graph. They agree after any number of runs but
for moved edges whose labels are in another spelling than the usual one. -/
namespace LoopClock
open Graph Program

variable {p₀ p q : Program} {v : Vertex} {dest : Int → Int} {l : Label}

namespace Program

/-- The edges that a block of `p` makes by labels in another spelling than the usual one are still there. -/
def Kept (p q : Program) (v : Vertex) : Prop :=
  ∀ t, p.jump v = some t → ∀ l ∈ t.targets, ∀ j, l.id? = some j →
    l = Label.ofId j ∨ ⟨v.func, j⟩ ∈ q.succ v

namespace Tracks

variable (T : Tracks p q)
include T

theorem kept_of_printed (h : ∀ w ∈ q.printed v, w ∈ q.succ v) : Kept p q v := by
  intro t ht l hl j hj
  by_cases hu : l = Label.ofId j
  · exact .inl hu
  obtain ⟨s, dest, ho, _, F⟩ := T.follows v
  rcases ho with rfl | ⟨hnone, _⟩
  · have hno : ∀ k, l.id? = some k → l ≠ Label.ofId k := fun k hk => by
      rw [hj] at hk
      exact Option.some.inj hk ▸ hu
    have hjump : q.jump v = some (t.relabel (Label.follow dest)) := by rw [F.jump, ht]; rfl
    have hmem : j ∈ named (q.jump v) := mem_named.2 ⟨_, hjump, l,
      Terminator.mem_targets_relabel.2 ⟨l, hl, Label.follow_of_ne hno⟩, hj⟩
    exact .inr (h _ (List.mem_map_of_mem (List.mem_eraseDups.2 hmem)))
  · rw [hnone] at ht
    cases ht

section
variable (W : Source.Wellformed p) (hq : q.Proper) (hfit : ∀ i, q.total i < 0x80000000)
include W

omit T in
theorem followed_of_kept {t : Option Terminator} {dest : Int → Int} (F : Follows q v t dest)
    (ho : Origin p v t) (hfar : ∀ j, dest j = j ∨ p.total v.func < dest j) (hk : Kept p q v) :
    ∀ s, t = some s → ∀ l ∈ s.targets, Followed dest l := by
  intro s hs l hl j hj
  rcases ho with rfl | ⟨_, k, rfl, hid⟩
  · refine (hk s hs l hl j hj).imp_right fun hmem => ?_
    obtain ⟨k, _, hkj⟩ := F.mem_succ.1 hmem
    have hjk : j = dest k := congrArg Vertex.id hkj
    obtain ⟨j', hj', hid⟩ := W.resolved v s hs l hl
    obtain rfl := Option.some.inj (hj.symm.trans hid)
    have hb := (W.proper.bound _ _ hj').2
    rcases hfar k with h | h
    · rw [hjk, h, h]
    · omega
  · obtain rfl := Option.some.inj hs
    obtain rfl := List.mem_singleton.1 hl
    rw [hid] at hj
    exact .inl (Option.some.inj hj ▸ rfl)

include hq hfit

/-- The edges of a block are those that its terminator makes exactly if it keeps the edges that cannot be
moved in the terminator. -/
theorem succ_eq_printed_iff : q.succ v = q.printed v ↔ Kept p q v := by
  constructor
  · exact fun h => T.kept_of_printed fun w hw => h ▸ hw
  · intro hk
    obtain ⟨t, dest, ho, hfar, F⟩ := T.follows v
    exact F.succ_eq_printed hq hfit (followed_of_kept W F ho hfar hk)

theorem mem_printed_iff : (∀ w, w ∈ q.printed v ↔ v ∈ q.prev w) ↔ Kept p q v := by
  constructor
  · exact fun h => T.kept_of_printed fun w hw => (hq.mem_prev v w).1 ((h w).1 hw)
  · intro hk w
    rw [← (T.succ_eq_printed_iff W hq hfit).2 hk]
    exact (hq.mem_prev v w).symm

end

end Tracks

/-! ## Runs -/

/-- Standard runs one after the other, each with a context of its own. -/
def runs : List (Manager × Config × Nat) → Program → Except Error Program
  | [], p => .ok p
  | (m, c, tally) :: rest, p => do
    let r ← (m.run none p (.ofModule c tally)).val
    r.program.runs rest

theorem exists_runs (rs : List (Manager × Config × Nat)) (hp : p.Proper)
    (T : (∀ i, p.total i < 0x80000000) → Tracks p₀ p) :
    ∃ q, p.runs rs = .ok q ∧ q.Proper ∧ ((∀ i, q.total i < 0x80000000) → Tracks p₀ q) := by
  induction rs generalizing p with
  | nil => exact ⟨p, rfl, hp, T⟩
  | cons run rs ih =>
    obtain ⟨m, c, tally⟩ := run
    obtain ⟨r, ts, hok, hi⟩ := exists_run m c tally hp
    obtain ⟨p', hsteps, hrep⟩ := hi.changes
    have hr := hrep.rebodied
    have hp' := hsteps.proper hp
    obtain ⟨q, hq, h⟩ := ih (hr.proper hp') fun hfit => by
      have hfit' : ∀ i, p'.total i < 0x80000000 := fun i => hr.total i ▸ hfit i
      have T := T fun i => Int.lt_of_le_of_lt (hsteps.total_le hp i) (hfit' i)
      exact (T.steps hp hsteps hfit').rebodied hr
    refine ⟨q, ?_, h⟩
    rw [runs, hok]
    exact hq

end Program

/-- After any number of runs the labels name blocks, and the branches of a block make the edges that it has
in the flow graph exactly if no edge was moved that the program spells in another way than usual. -/
theorem exists_printed (rs : List (Manager × Config × Nat)) {txt : String} {p : Program}
    (h : Source.parse txt = .ok p) :
    ∃ q, p.runs rs = .ok q ∧ ((∀ f ∈ q.funcs, f.total < 0x80000000) → ∀ v,
      (∀ t, q.jump v = some t → ∀ l ∈ t.targets, ∃ j ∈ q.ids v.func, l.id? = some j) ∧
      (q.succ v = q.printed v ↔ Kept p q v) ∧
      ((∀ w, w ∈ q.printed v ↔ v ∈ q.prev w) ↔ Kept p q v)) := by
  have W := Source.wellformed_of_parse h
  obtain ⟨q, hok, hq, T⟩ := exists_runs rs W.proper fun _ => tracks_start W.printed
  refine ⟨q, hok, fun hfit v => ?_⟩
  have htotal := total_lt_of_forall hfit
  have T := T htotal
  exact ⟨fun t ht l hl => T.resolved W hq htotal ht hl, T.succ_eq_printed_iff W hq htotal,
    T.mem_printed_iff W hq htotal⟩

/-! ## An instance -/

namespace Source

/-- A loop that shares its exit and leaves for it by a label in another spelling. -/
def respelledText : String :=
  "define i32 @main(i32 %1) \x7b
entry:
br i32 %1, label %B1, label %B2
B1:
br i32 %1, label %B1, label %B02
B2:
ret i32 0
\x7d
"

def respelled : Program where
  funcs := [⟨"main", .i32, [⟨"1", false, .i32⟩], 2,
    [{ id := 0, succ := [⟨0, 1⟩, ⟨0, 2⟩],
       jump := some (.branch .i32 (.temp ⟨"1", false, .i32⟩) "B1" "B2") },
     { id := 1, prev := [⟨0, 0⟩, ⟨0, 1⟩], succ := [⟨0, 1⟩, ⟨0, 2⟩],
       jump := some (.branch .i32 (.temp ⟨"1", false, .i32⟩) "B1" "B02") },
     { id := 2, prev := [⟨0, 0⟩, ⟨0, 1⟩], jump := some (.ret (some (.int 0))) }]⟩]
  temps := 1

-- the text is matched with a list of characters one by one
set_option maxRecDepth 4000 in
theorem parse_respelled : parse respelledText = .ok respelled := by
  refine (parse_ofList _).trans ?_
  decide +kernel

end Source

theorem exists_printed_respelled :
    ∃ q, Source.respelled.runs [(.pipeline, {}, 0)] = .ok q ∧
      (∀ f ∈ q.funcs, f.total < 0x80000000) ∧
      (q.succ ⟨0, 0⟩ = q.printed ⟨0, 0⟩ ∧ Kept Source.respelled q ⟨0, 0⟩) ∧
      (q.succ ⟨0, 1⟩ = [⟨0, 1⟩, ⟨0, 3⟩] ∧ q.printed ⟨0, 1⟩ = [⟨0, 1⟩, ⟨0, 2⟩] ∧
        ¬ Kept Source.respelled q ⟨0, 1⟩) := by
  obtain ⟨q, hq, h⟩ := exists_printed [(.pipeline, {}, 0)] Source.parse_respelled
  obtain ⟨hfit, h0, hsucc, hprinted⟩ := of_toOption_all (fun q =>
    (∀ f ∈ q.funcs, f.total < 0x80000000) ∧ q.succ ⟨0, 0⟩ = q.printed ⟨0, 0⟩ ∧
      q.succ ⟨0, 1⟩ = [⟨0, 1⟩, ⟨0, 3⟩] ∧ q.printed ⟨0, 1⟩ = [⟨0, 1⟩, ⟨0, 2⟩])
    hq (by decide +kernel)
  have kept := fun v => (h hfit v).2.1
  have hne : q.succ ⟨0, 1⟩ ≠ q.printed ⟨0, 1⟩ := by
    rw [hsucc, hprinted]
    decide
  exact ⟨q, hq, hfit, ⟨h0, (kept _).1 h0⟩, hsucc, hprinted, fun hk => hne ((kept _).2 hk)⟩

end LoopClock
