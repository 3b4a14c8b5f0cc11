import LoopClock.Flow.Search
import LoopClock.Proofs.Graph.Dominance
import Mathlib.Data.List.TakeWhile

/-! What a search finds: exactly the nodes that the start leads to through nodes with marks in the
search space. In which order the work is done makes no difference. -/
namespace LoopClock
open Graph

/-- Joining two lists in any order, with nothing lost or added. -/
def Joins {α : Type} (merge : List α → List α → List α) : Prop :=
  ∀ as bs x, x ∈ merge as bs ↔ x ∈ as ∨ x ∈ bs

theorem joins_queue {α : Type} : Joins (queue : List α → List α → List α) := fun _ _ _ => by
  simp [queue]

theorem joins_stack {α : Type} : Joins (stack : List α → List α → List α) := fun _ _ _ => by
  simp [stack, or_comm]

section
variable {α β : Type} [DecidableEq β] {mark : α → β} {merge : List α → List α → List α}
  {step : α → List α}

/-- Nodes closed under `step` that are told apart by their marks. -/
structure Marked (mark : α → β) (step : α → List α) (C : α → Prop) : Prop where
  closed : ∀ a, C a → ∀ b ∈ step a, C b
  inj : ∀ a b, C a → C b → mark a = mark b → a = b

def Leads (step : α → List α) (a b : α) : Prop := b ∈ step a

/-- A path in the marks of `unmet` that leaves `a` behind goes on from `a` without it. -/
private theorem exists_after {C : α → Prop} (hC : Marked mark step C) {a w x : α}
    {unmet : List β} (hn : unmet.Nodup) (ha : C a) (hw : C w) (hx : mark x ≠ mark a)
    (h : Within (mark · ∈ unmet) (Leads step) w x) :
    Within (mark · ∈ unmet.erase (mark a)) (Leads step) w x ∨
      ∃ v ∈ step a, Within (mark · ∈ unmet.erase (mark a)) (Leads step) v x := by
  have hmem : ∀ m, m ∈ unmet.erase (mark a) ↔ m ≠ mark a ∧ m ∈ unmet := fun m => hn.mem_erase_iff
  refine h.head_induction (motive := fun u => C u →
    Within (mark · ∈ unmet.erase (mark a)) (Leads step) u x ∨
      ∃ v ∈ step a, Within (mark · ∈ unmet.erase (mark a)) (Leads step) v x) ?_ ?_ hw
  · intro hxu _
    exact .inl (.refl ((hmem _).2 ⟨hx, hxu⟩))
  · intro u v hu he _ ih hCu
    rcases ih (hC.closed u hCu v he) with hv | hv
    · by_cases hua : mark u = mark a
      · obtain rfl := hC.inj u a hCu ha hua
        exact .inr ⟨v, he, hv⟩
      · exact .inl (.head ((hmem _).2 ⟨hua, hu⟩) he hv)
    · exact .inr hv

private theorem mem_unreached {C : α → Prop} (hC : Marked mark step C) (hm : Joins merge)
    (work : List α) (unmet : List β) (hw : ∀ w ∈ work, C w) (hn : unmet.Nodup) {x : α}
    (hx : C x) :
    mark x ∈ unreached mark merge step work unmet ↔
      mark x ∈ unmet ∧ ¬ ∃ w ∈ work, Within (mark · ∈ unmet) (Leads step) w x := by
  induction work, unmet using unreached.induct mark merge step with
  | case1 work unmet h =>
    rw [unreached, h]
    have hall : ∀ w ∈ work, mark w ∉ unmet := by simpa using List.dropWhile_eq_nil_iff.1 h
    simp only [iff_self_and]
    rintro _ ⟨w, hww, hp⟩
    exact hall w hww hp.left
  | case2 work unmet a rest h ih =>
    have hsplit := List.takeWhile_append_dropWhile (p := (mark · ∉ unmet)) (l := work)
    rw [h] at hsplit
    have hskip : ∀ w ∈ work.takeWhile (mark · ∉ unmet), mark w ∉ unmet := fun w hw => by
      simpa using List.mem_takeWhile_imp hw
    have hau : mark a ∈ unmet := by
      have met := List.head?_dropWhile_not (mark · ∉ unmet) work
      simp only [h, List.head?_cons] at met
      simpa using met
    have ha : C a := hw a (hsplit ▸ by simp)
    have hmem : ∀ m, m ∈ unmet.erase (mark a) ↔ m ≠ mark a ∧ m ∈ unmet :=
      fun m => hn.mem_erase_iff
    have hw' : ∀ w ∈ merge rest (step a), C w := fun w hwm => by
      rcases (hm _ _ _).1 hwm with hwr | hwa
      · exact hw w (hsplit ▸ by simp [hwr])
      · exact hC.closed a ha w hwa
    rw [unreached, h]
    simp only
    rw [ih hw' (hn.erase _), hmem]
    constructor
    · rintro ⟨⟨hxa, hxu⟩, hno⟩
      refine ⟨hxu, ?_⟩
      rintro ⟨w, hww, hp⟩
      rcases exists_after hC hn ha (hw w hww) hxa hp with hp' | ⟨v, hva, hv⟩
      · rw [← hsplit, List.mem_append, List.mem_cons] at hww
        rcases hww with hskp | rfl | hrest
        · exact hskip w hskp hp.left
        · exact ((hmem _).1 hp'.left).1 rfl
        · exact hno ⟨w, (hm _ _ _).2 (.inl hrest), hp'⟩
      · exact hno ⟨v, (hm _ _ _).2 (.inr hva), hv⟩
    · rintro ⟨hxu, hno⟩
      have hxa : mark x ≠ mark a := fun hxa => by
        obtain rfl := hC.inj x a hx ha hxa
        exact hno ⟨x, hsplit ▸ by simp, .refl hxu⟩
      refine ⟨⟨hxa, hxu⟩, ?_⟩
      rintro ⟨w, hwm, hp⟩
      have hp' := hp.mono fun v hv => ((hmem _).1 hv).2
      rcases (hm _ _ _).1 hwm with hwr | hwa
      · exact hno ⟨w, hsplit ▸ by simp [hwr], hp'⟩
      · exact hno ⟨a, hsplit ▸ by simp, .head hau hwa hp'⟩

theorem mem_reached {C : α → Prop} (hC : Marked mark step C) (hm : Joins merge) {start : List α}
    {space : List β} (hs : ∀ w ∈ start, C w) (hn : space.Nodup) {x : α} (hx : C x) :
    mark x ∈ reached mark merge step start space ↔
      ∃ w ∈ start, Within (mark · ∈ space) (Leads step) w x := by
  simp only [reached, List.mem_filter, decide_eq_true_eq, mem_unreached hC hm start space hs hn hx]
  constructor
  · rintro ⟨hxs, hno⟩
    by_contra hex
    exact hno ⟨hxs, hex⟩
  · rintro ⟨w, hw, hp⟩
    exact ⟨hp.right, fun hno => hno.2 ⟨w, hw, hp⟩⟩

theorem mem_of_mem_reached {start : List α} {space : List β} {m : β}
    (h : m ∈ reached mark merge step start space) : m ∈ space := (List.mem_filter.1 h).1

theorem nodup_reached {start : List α} {space : List β} (hn : space.Nodup) :
    (reached mark merge step start space).Nodup := hn.filter _

end

/-! ## The smallest of a list -/

theorem leastBy_some {α : Type} {key : α → Nat} {as : List α} {a : α} (h : leastBy key as = some a) :
    a ∈ as ∧ ∀ b ∈ as, key a ≤ key b := by
  induction as generalizing a with
  | nil => cases h
  | cons c as ih =>
    rw [leastBy] at h
    cases hl : leastBy key as with
    | none =>
      rw [hl] at h
      obtain rfl := Option.some.inj h
      cases as with
      | nil => simp
      | cons d as =>
        rw [leastBy] at hl
        split at hl
        · cases hl
        · split at hl <;> cases hl
    | some d =>
      rw [hl] at h
      obtain ⟨hd, hmin⟩ := ih hl
      dsimp only at h
      split at h
      · obtain rfl := Option.some.inj h
        refine ⟨by simp [hd], fun b hb => ?_⟩
        rcases List.mem_cons.1 hb with rfl | hb
        · omega
        · exact hmin b hb
      · obtain rfl := Option.some.inj h
        refine ⟨by simp, fun b hb => ?_⟩
        rcases List.mem_cons.1 hb with rfl | hb
        · exact Nat.le_refl _
        · have := hmin b hb
          omega

theorem leastBy_none {α : Type} {key : α → Nat} {as : List α} (h : leastBy key as = none) :
    as = [] := by
  cases as with
  | nil => rfl
  | cons a as =>
    rw [leastBy] at h
    split at h
    · cases h
    · split at h <;> cases h

end LoopClock
