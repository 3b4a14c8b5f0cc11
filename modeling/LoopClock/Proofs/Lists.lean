import Mathlib.Data.List.Nodup
import Mathlib.Order.MinMax

/-! Lists without repetitions, and the greatest of a list, as far as the library has nothing on them. -/
namespace LoopClock
variable {α β : Type}

theorem nodup_eraseDups [BEq α] [LawfulBEq α] (as : List α) : as.eraseDups.Nodup := by
  match as with
  | [] => exact List.nodup_nil
  | a :: as =>
    rw [List.eraseDups_cons, List.nodup_cons]
    refine ⟨fun h => ?_, nodup_eraseDups _⟩
    simp [List.mem_eraseDups] at h
termination_by as.length
decreasing_by exact Nat.lt_succ_of_le (List.length_filter_le ..)

/-- A map that tells the elements apart does not disturb the removal of repetitions. -/
theorem eraseDups_map [BEq α] [LawfulBEq α] [BEq β] [LawfulBEq β] {f : α → β} (as : List α)
    (hf : ∀ a ∈ as, ∀ b ∈ as, f a = f b → a = b) :
    (as.map f).eraseDups = as.eraseDups.map f := by
  match as with
  | [] => rfl
  | a :: as =>
    have hfilter : (as.map f).filter (fun b => !b == f a) = (as.filter fun b => !b == a).map f := by
      rw [List.filter_map]
      refine congrArg (List.map f) (List.filter_congr fun b hb => ?_)
      have h := hf b (List.mem_cons_of_mem a hb) a List.mem_cons_self
      by_cases hba : b = a
      · simp [hba]
      · have hfb : f b ≠ f a := fun hfb => hba (h hfb)
        simp [hba, hfb]
    rw [List.map_cons, List.eraseDups_cons, hfilter, eraseDups_map, List.eraseDups_cons,
      List.map_cons]
    intro b hb c hc
    exact hf b (List.mem_cons_of_mem a (List.mem_of_mem_filter hb)) c
      (List.mem_cons_of_mem a (List.mem_of_mem_filter hc))
termination_by as.length
decreasing_by exact Nat.lt_succ_of_le (List.length_filter_le ..)

/-- Telling the elements apart by keys makes no difference if the keys tell them apart. -/
theorem eraseDupsBy_eq [BEq α] [LawfulBEq α] [BEq β] [LawfulBEq β] {key : α → β} (as : List α)
    (hk : ∀ a ∈ as, ∀ b ∈ as, key a = key b → a = b) :
    as.eraseDupsBy (fun a b => key a == key b) = as.eraseDups := by
  match as with
  | [] => rfl
  | a :: as =>
    have hfilter : (as.filter fun b => (key b == key a) = false) = as.filter fun b => !b == a := by
      refine List.filter_congr fun b hb => ?_
      have h := hk b (List.mem_cons_of_mem a hb) a List.mem_cons_self
      by_cases hba : b = a
      · simp [hba]
      · have hkb : key b ≠ key a := fun hkb => hba (h hkb)
        simp [hba, hkb]
    rw [List.eraseDupsBy_cons, List.eraseDups_cons, hfilter, eraseDupsBy_eq]
    intro b hb c hc
    exact hk b (List.mem_cons_of_mem a (List.mem_of_mem_filter hb)) c
      (List.mem_cons_of_mem a (List.mem_of_mem_filter hc))
termination_by as.length
decreasing_by exact Nat.lt_succ_of_le (List.length_filter_le ..)

/-- In a list without repetitions, replacing an element changes one place. -/
theorem replace_eq_map [DecidableEq α] {as : List α} (h : as.Nodup) (a b : α) :
    as.replace a b = as.map fun x => if x = a then b else x := by
  induction as with
  | nil => rfl
  | cons x as ih =>
    obtain ⟨hx, h⟩ := List.nodup_cons.1 h
    by_cases hxa : x = a
    · subst hxa
      have hid : as.map (fun y => if y = x then b else y) = as.map id :=
        List.map_congr_left fun y hy => if_neg fun hyx : y = x => hx (hyx ▸ hy)
      simp [hid]
    · have hax : (a == x) = false := by simpa using Ne.symm hxa
      simp [List.replace_cons, hax, hxa, ih h]

/-- What a filter lets through tells the filter. -/
theorem filter_mem_filter [DecidableEq α] (as : List α) (keep : α → Bool) :
    as.filter (· ∈ as.filter keep) = as.filter keep :=
  List.filter_congr fun a ha => by simp [List.mem_filter, ha]

theorem filter_ite_of_pos {α : Type} {keep : α → Bool} {x : α} (h : keep x = true) (P : Prop)
    [Decidable P] : (if P then [x] else []).filter keep = if P then [x] else [] := by
  split
  · rw [List.filter_cons_of_pos h, List.filter_nil]
  · rfl

theorem filter_ite_of_neg {α : Type} {keep : α → Bool} {x : α} (h : keep x = false) (P : Prop)
    [Decidable P] : (if P then [x] else []).filter keep = [] := by
  split
  · rw [List.filter_cons_of_neg (by simp [h]), List.filter_nil]
  · rfl

section
variable [LinearOrder α]

theorem le_foldl_max (as : List α) (a : α) :
    a ≤ as.foldl max a ∧ ∀ b ∈ as, b ≤ as.foldl max a := by
  induction as generalizing a with
  | nil => simp
  | cons c as ih =>
    obtain ⟨h, hall⟩ := ih (max a c)
    obtain ⟨ha, hc⟩ := max_le_iff.1 h
    exact ⟨ha, List.forall_mem_cons.2 ⟨hc, hall⟩⟩

theorem foldl_max_mem (as : List α) (a : α) : as.foldl max a = a ∨ as.foldl max a ∈ as := by
  induction as generalizing a with
  | nil => exact .inl rfl
  | cons c as ih =>
    rw [List.foldl_cons, List.mem_cons]
    rcases ih (max a c) with h | h
    · rw [h]
      exact (max_choice a c).imp_right .inl
    · exact .inr (.inr h)

end

end LoopClock
