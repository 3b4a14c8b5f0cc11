import LoopClock.Flow.Search
import Mathlib.Data.List.Nodup
import Mathlib.Data.List.TakeWhile
import Mathlib.Data.Prod.Lex
import Mathlib.Logic.Relation

/-! A search, turn by turn: a stack of nodes still to look at, and the marks met so far. It comes to an
end from every state, for finitely many marks can be met. What it has met then is what the search that
keeps the unmet marks has struck out. -/
namespace LoopClock
open Relation

section
variable {α β : Type} [DecidableEq β] (mark : α → β) (step : α → List α)

/-- The node on top of the stack is dropped when its mark was met before. Otherwise its mark is added,
and what follows from it goes on the stack as far as its marks were not met. -/
inductive Turn : List β × List α → List β × List α → Prop
  | met {seen : List β} {a : α} {work : List α} (h : mark a ∈ seen) :
      Turn (seen, a :: work) (seen, work)
  | new {seen : List β} {a : α} {work : List α} (h : mark a ∉ seen) :
      Turn (seen, a :: work)
        (mark a :: seen, stack work ((step a).filter (mark · ∉ mark a :: seen)))

variable {mark step}

/-- The known marks still to be met, the nodes on the stack with other marks, and the whole stack. -/
private def remaining (mark : α → β) (known : List β) (s : List β × List α) : Nat ×ₗ Nat ×ₗ Nat :=
  toLex ((known.filter (· ∉ s.1)).length,
    toLex ((s.2.filter (mark · ∉ known)).length, s.2.length))

private theorem length_filter_cons_lt {known seen : List β} {b : β} (hb : b ∈ known)
    (hn : b ∉ seen) :
    (known.filter (· ∉ b :: seen)).length < (known.filter (· ∉ seen)).length := by
  have hsub : known.filter (· ∉ b :: seen) = (known.filter (· ∉ seen)).filter (· ≠ b) := by
    rw [List.filter_filter]
    exact List.filter_congr fun c _ => by simp
  rw [hsub]
  apply List.length_filter_lt_length_iff_exists.2
  exact ⟨b, List.mem_filter.2 ⟨hb, by simpa using hn⟩, by simp⟩

/-- From no state can a search go on for ever, if what follows from a node has one of finitely many
marks. -/
theorem wellFounded_turn {known : List β} (hk : ∀ a, ∀ b ∈ step a, mark b ∈ known) :
    WellFounded fun s s' => Turn mark step s' s := by
  refine Subrelation.wf (r := InvImage (· < ·) (remaining mark known)) (fun {s s'} h => ?_)
    (InvImage.wf _ wellFounded_lt)
  simp only [InvImage, remaining, Prod.Lex.toLex_lt_toLex]
  cases h with
  | @met seen a work h =>
    right
    refine ⟨rfl, ?_⟩
    by_cases ha : mark a ∈ known
    · right
      simp [ha]
    · left
      simp [ha]
  | @new seen a work h =>
    by_cases ha : mark a ∈ known
    · left
      exact length_filter_cons_lt ha h
    -- the new mark is none of the known ones, and all that goes on the stack has known marks
    have hseen : known.filter (· ∉ mark a :: seen) = known.filter (· ∉ seen) := by
      refine List.filter_congr fun b hb => ?_
      have hne : b ≠ mark a := fun h => ha (h ▸ hb)
      simp [hne]
    have hwork : (stack work ((step a).filter (mark · ∉ mark a :: seen))).filter
        (mark · ∉ known) = work.filter (mark · ∉ known) := by
      rw [stack, List.filter_append, List.filter_reverse, List.filter_filter]
      rw [List.filter_eq_nil_iff.2, List.reverse_nil, List.nil_append]
      intro b hb
      simp [hk a b hb]
    right
    refine ⟨congrArg _ hseen, .inl ?_⟩
    rw [hwork]
    simp [ha]

/-! ## What has been met -/

/-- A stack of nodes with marks that were met is worked off. -/
private theorem turns_met {seen : List β} {skip work : List α} (h : ∀ a ∈ skip, mark a ∈ seen) :
    ReflTransGen (Turn mark step) (seen, skip ++ work) (seen, work) := by
  induction skip with
  | nil => exact .refl
  | cons a skip ih =>
    obtain ⟨ha, h⟩ := List.forall_mem_cons.1 h
    exact .head (.met ha) (ih h)

theorem unreached_subset (merge : List α → List α → List α) (work : List α) (unmet : List β) :
    unreached mark merge step work unmet ⊆ unmet := by
  induction work, unmet using unreached.induct mark merge step with
  | case1 work unmet h =>
    rw [unreached, h]
    exact List.Subset.refl _
  | case2 work unmet a rest h ih =>
    rw [unreached, h]
    exact List.Subset.trans ih (List.erase_subset ..)

/-- Nodes with known marks that are not unmet any more are nodes whose marks were met. -/
private theorem filter_eq_nil_of_met {known seen unmet : List β} {work : List α}
    (hunmet : ∀ b ∈ known, b ∈ unmet ↔ b ∉ seen) (hwork : ∀ a ∈ work, mark a ∈ known)
    (hmet : ∀ a ∈ work, mark a ∉ unmet) : work.filter (mark · ∉ seen) = [] := by
  rw [List.filter_eq_nil_iff]
  intro a ha
  have hs := hmet a ha
  rw [hunmet _ (hwork a ha), not_not] at hs
  simpa using hs

/-- Where the topmost node with an unmet mark is `a`, it is the topmost whose mark was not met. -/
private theorem filter_eq_cons_of_dropWhile {known seen unmet : List β} {work rest : List α} {a : α}
    (hunmet : ∀ b ∈ known, b ∈ unmet ↔ b ∉ seen) (hwork : ∀ a ∈ work, mark a ∈ known)
    (h : work.dropWhile (mark · ∉ unmet) = a :: rest) :
    mark a ∈ unmet ∧ mark a ∉ seen ∧
      work.filter (mark · ∉ seen) = a :: rest.filter (mark · ∉ seen) := by
  have hsplit := List.takeWhile_append_dropWhile (p := (mark · ∉ unmet)) (l := work)
  rw [h] at hsplit
  have hau : mark a ∈ unmet := by
    have met := List.head?_dropWhile_not (mark · ∉ unmet) work
    simp only [h, List.head?_cons] at met
    simpa using met
  have has : mark a ∉ seen := (hunmet _ (hwork a (hsplit ▸ by simp))).1 hau
  have hskip : (work.takeWhile (mark · ∉ unmet)).filter (mark · ∉ seen) = [] := by
    refine filter_eq_nil_of_met hunmet (fun b hb => hwork b (List.takeWhile_subset _ hb)) fun b hb => ?_
    simpa using List.mem_takeWhile_imp hb
  refine ⟨hau, has, ?_⟩
  rw [← hsplit, List.filter_append, hskip, List.nil_append, List.filter_cons]
  simp [has]

/-- Stacks that agree on the unmet marks do so too when a mark has been met and what follows has been
put on both, on one of them without the nodes that are met already. -/
private theorem filter_stack {seen : List β} {todo rest : List α} (b : β) (next : List α)
    (h : todo.filter (mark · ∉ seen) = rest.filter (mark · ∉ seen)) :
    (stack todo (next.filter (mark · ∉ b :: seen))).filter (mark · ∉ b :: seen) =
      (stack rest next).filter (mark · ∉ b :: seen) := by
  have hne := congrArg (List.filter (mark · ≠ b)) h
  simp only [List.filter_filter] at hne
  simp only [stack, List.filter_append, List.filter_reverse, List.filter_filter, Bool.and_self,
    List.mem_cons, not_or, Bool.decide_and]
  exact congrArg _ hne

/-- The two searches need not have the same nodes on their stacks, only the same with unmet marks. -/
private theorem exists_turns_of_filter_eq {known seen unmet : List β} {work todo : List α}
    (hu : unmet.Nodup) (hunmet : ∀ b ∈ known, b ∈ unmet ↔ b ∉ seen)
    (hstep : ∀ a, ∀ b ∈ step a, mark b ∈ known) (hwork : ∀ a ∈ work, mark a ∈ known)
    (htodo : todo.filter (mark · ∉ seen) = work.filter (mark · ∉ seen)) :
    ∃ all, ReflTransGen (Turn mark step) (seen, todo) (all, []) ∧
      ∀ b, b ∈ all ↔ b ∈ seen ∨ b ∈ unmet ∧ b ∉ unreached mark stack step work unmet := by
  induction work, unmet using unreached.induct mark stack step generalizing seen todo with
  | case1 work unmet h =>
    have hmet : ∀ a ∈ work, mark a ∉ unmet := by simpa using List.dropWhile_eq_nil_iff.1 h
    rw [filter_eq_nil_of_met hunmet hwork hmet, List.filter_eq_nil_iff] at htodo
    have hseen : ∀ a ∈ todo, mark a ∈ seen := by simpa using htodo
    have hturns : ReflTransGen (Turn mark step) (seen, todo ++ []) (seen, []) := turns_met hseen
    refine ⟨seen, ?_, fun b => ?_⟩
    · rwa [List.append_nil] at hturns
    · rw [unreached, h]
      simp
  | case2 work unmet a rest h ih =>
    obtain ⟨hau, has, htop⟩ := filter_eq_cons_of_dropWhile hunmet hwork h
    -- what lies on top of `a` was met before
    obtain ⟨skip, todo', rfl, hmet, _, hrest⟩ := List.filter_eq_cons_iff.1 (htodo.trans htop)
    have hmem : ∀ b, b ∈ unmet.erase (mark a) ↔ b ≠ mark a ∧ b ∈ unmet := fun b => hu.mem_erase_iff
    have hunmet' : ∀ b ∈ known, b ∈ unmet.erase (mark a) ↔ b ∉ mark a :: seen := by
      intro b hb
      rw [hmem, hunmet b hb, List.mem_cons, not_or]
    have hknown : ∀ c ∈ stack rest (step a), mark c ∈ known := by
      intro c hc
      rcases List.mem_append.1 hc with hc | hc
      · exact hstep a c (List.mem_reverse.1 hc)
      · have hsub := List.dropWhile_subset (mark · ∉ unmet) (l := work)
        exact hwork c (hsub (h ▸ List.mem_cons_of_mem a hc))
    obtain ⟨all, hturns, hall⟩ :=
      ih (hu.erase _) hunmet' hknown (filter_stack (mark a) (step a) hrest)
    refine ⟨all, ?_, fun b => ?_⟩
    · have hskip : ∀ c ∈ skip, mark c ∈ seen := by simpa using hmet
      exact (turns_met hskip).trans (.head (.new has) hturns)
    · rw [unreached, h, hall, hmem, List.mem_cons]
      dsimp only
      by_cases hb : b = mark a
      · subst hb
        have hout : mark a ∉ unreached mark stack step (stack rest (step a))
            (unmet.erase (mark a)) := fun h => ((hmem _).1 (unreached_subset _ _ _ h)).1 rfl
        simp [hau, hout]
      · simp [hb]

/-- A search that has met the marks `seen` comes to its end. It has met then all marks but those that
are left over. -/
theorem exists_turns {known seen unmet : List β} {work : List α} (hu : unmet.Nodup)
    (hunmet : ∀ b ∈ known, b ∈ unmet ↔ b ∉ seen) (hstep : ∀ a, ∀ b ∈ step a, mark b ∈ known)
    (hwork : ∀ a ∈ work, mark a ∈ known) :
    ∃ all, ReflTransGen (Turn mark step) (seen, work) (all, []) ∧
      ∀ b, b ∈ all ↔ b ∈ seen ∨ b ∈ unmet ∧ b ∉ unreached mark stack step work unmet :=
  exists_turns_of_filter_eq hu hunmet hstep hwork rfl

end

end LoopClock
