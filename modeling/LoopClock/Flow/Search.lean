/-! Searching a finite graph. Nodes carry marks, and of the nodes with one mark only the first one
that is met gets visited. The search keeps the marks it has not met yet; what it leaves over is
what cannot be reached. -/
namespace LoopClock

/-- First come, first served. -/
def queue {α : Type} (work more : List α) : List α := work ++ more

/-- Last come, first served. -/
def stack {α : Type} (work more : List α) : List α := more.reverse ++ work

section
variable {α β : Type} [DecidableEq β]

/-- Visits the nodes of `work` and all that follows from them by `step`, as far as their marks are
in `unmet`; `merge` says in which order to go on. The result is the part of `unmet` that was never
met. -/
def unreached (mark : α → β) (merge : List α → List α → List α) (step : α → List α)
    (work : List α) (unmet : List β) : List β :=
  match _h : work.dropWhile (mark · ∉ unmet) with
  | [] => unmet
  | a :: rest => unreached mark merge step (merge rest (step a)) (unmet.erase (mark a))
termination_by unmet.length
decreasing_by
  have met := List.head?_dropWhile_not (mark · ∉ unmet) work
  simp only [_h, List.head?_cons] at met
  have ha : mark a ∈ unmet := by simpa using met
  rw [List.length_erase_of_mem ha]
  exact Nat.sub_lt (List.length_pos_of_mem ha) Nat.one_pos

/-- The marks of `space` that can be reached from `start` without leaving `space`. -/
def reached (mark : α → β) (merge : List α → List α → List α) (step : α → List α)
    (start : List α) (space : List β) : List β :=
  let rest := unreached mark merge step start space
  space.filter (· ∉ rest)

end

/-- The first of the elements with the smallest key. -/
def leastBy {α : Type} (key : α → Nat) : List α → Option α
  | [] => none
  | a :: as =>
    match leastBy key as with
    | none => some a
    | some b => if key b < key a then some b else some a

end LoopClock
