import LoopClock.IR.Instr

/-! Changing the labels of a terminator. -/
namespace LoopClock.Terminator

variable {f g : Label → Label} {t : Terminator} {l m : Label}

def relabel (f : Label → Label) : Terminator → Terminator
  | jump l => jump (f l)
  | branch ty cond l m => branch ty cond (f l) (f m)
  | ret value => ret value

theorem retarget_eq_relabel (old new : Label) (t : Terminator) :
    t.retarget old new = t.relabel fun l => if l = old then new else l := by
  cases t <;> rfl

theorem relabel_relabel (f g : Label → Label) (t : Terminator) :
    (t.relabel f).relabel g = t.relabel fun l => g (f l) := by
  cases t <;> rfl

theorem mem_targets_branch {ty : Ty} {cond : Value} {k : Label} :
    k ∈ (branch ty cond l m).targets ↔ k = l ∨ k = m := by
  rw [targets]
  split
  · next h => simp [h]
  · simp

theorem relabel_congr (h : ∀ l ∈ t.targets, f l = g l) : t.relabel f = t.relabel g := by
  cases t with
  | jump l => rw [relabel, relabel, h l (List.mem_singleton_self l)]
  | branch ty cond l m =>
    rw [relabel, relabel, h l (mem_targets_branch.2 (.inl rfl)),
      h m (mem_targets_branch.2 (.inr rfl))]
  | ret value => rfl

theorem relabel_id (t : Terminator) : t.relabel (fun l => l) = t := by
  cases t <;> rfl

theorem mem_targets_relabel : m ∈ (t.relabel f).targets ↔ ∃ l ∈ t.targets, f l = m := by
  cases t with
  | jump l => simp [relabel, targets, eq_comm]
  | branch ty cond k l =>
    rw [relabel, mem_targets_branch]
    simp only [mem_targets_branch]
    constructor
    · rintro (rfl | rfl)
      · exact ⟨k, .inl rfl, rfl⟩
      · exact ⟨l, .inr rfl, rfl⟩
    · rintro ⟨_, rfl | rfl, rfl⟩
      · exact .inl rfl
      · exact .inr rfl
  | ret value => simp [relabel, targets]

end LoopClock.Terminator
