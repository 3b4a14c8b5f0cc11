import LoopClock.Proofs.Program.View

/-! Dedicating the exits of a loop is a long row of edits of few kinds. What holds between a program and
each of these edits of it holds between the program and all of them. -/
namespace LoopClock.Program

/-- `R` holds between a program and each edit of it that a split is made of. The block that is added has no
instructions and jumps on. -/
structure Persists (R : Program → Program → Prop) : Prop where
  refl (p : Program) : R p p
  trans {p q r : Program} : R p q → R q r → R p r
  rewire (p : Program) (v : Vertex) (change : Block → Block) :
    (∀ b, (change b).id = b.id ∧ (change b).body = b.body ∧ (change b).jump = b.jump) →
      R p (p.update v change)
  retarget (p : Program) (v old new : Vertex) : R p (p.retarget v old.label new.label)
  addBlock (p : Program) (v before : Vertex) (b : Block) (l : Label) :
    b.body = [] → b.jump = some (.jump l) → R p (p.addBlock v b before)
  temps (p : Program) (n : Nat) : R p { p with temps := n }

namespace Persists

variable {R : Program → Program → Prop} (h : Persists R)
include h

theorem foldl {α : Type} {step : Program → α → Program} (hstep : ∀ p a, R p (step p a)) (p : Program)
    (as : List α) : R p (as.foldl step p) := by
  induction as generalizing p with
  | nil => exact h.refl p
  | cons a as ih => exact h.trans (hstep p a) (ih _)

theorem link (p : Program) (a b : Vertex) : R p (p.link a b) := by
  unfold Program.link
  split
  · exact h.refl p
  · refine h.trans (h.rewire p a _ ?_) (h.rewire _ b _ ?_) <;> exact fun _ => ⟨rfl, rfl, rfl⟩

theorem redirect (p : Program) (a old new : Vertex) : R p (p.redirect a old new) := by
  unfold Program.redirect
  split
  · refine h.trans (h.trans (h.rewire p a _ ?_) (h.rewire _ old _ ?_)) (h.rewire _ new _ ?_) <;>
      exact fun _ => ⟨rfl, rfl, rfl⟩
  · exact h.refl p

theorem reroute (target via : Vertex) (p : Program) (pred : Vertex) : R p (p.reroute target via pred) :=
  h.trans (h.redirect p pred target via) (h.retarget _ pred _ _)

theorem splitPredecessors (p : Program) (func : Nat) (target : Vertex) (preds : List Vertex) :
    R p (p.splitPredecessors func target preds).1 := by
  have hmoved : ∀ (via : Vertex) (phis : List Phi), R p (preds.foldl (Program.reroute target via)
      (p.addBlock via ⟨via.id, [], [], phis, [], some (.jump target.label)⟩ target)) :=
    fun via phis => h.trans (h.addBlock p via target _ target.label rfl rfl)
      (h.foldl (fun q pred => h.reroute target via q pred) _ preds)
  have hphis : ∀ (q : Program) (phis : List Phi), R q (q.update target fun b => { b with phis }) :=
    fun q phis => h.rewire q target _ fun _ => ⟨rfl, rfl, rfl⟩
  exact h.trans (h.trans (h.trans (hmoved _ _) (hphis _ _)) (h.link _ _ target)) (h.temps _ _)

theorem dedicateExits (p : Program) (func : Nat) (l : Loop) : R p (p.dedicateExits func l).val.1 := by
  apply dedicateExits_induction (I := fun s => R p s.1)
  · exact h.refl p
  · intro s x hs
    rcases dedicateExit_cases func l s x with hval | hval <;> rw [hval]
    · exact hs
    · exact h.trans hs (h.splitPredecessors _ _ _ _)

end Persists

end LoopClock.Program
