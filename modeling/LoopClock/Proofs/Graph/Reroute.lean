import LoopClock.Proofs.Graph.Loops

/-! Leading some of the edges into a vertex through a new vertex. Paths between old vertices stay what
they were, and so does dominance among them. When the moved edges are those by which a loop is left
for one of its exits, all loops keep their headers and their old members, and the new vertex is in
the loops that hold both the exit and the loop it was added for. -/
namespace LoopClock.Graph
open Relation

variable {V : Type} {E E' : V → V → Prop} {S P Q : V → Prop} {a b e h k n r x : V}

/-- `E'` is `E` with the edges from `S` to `e` led through `n`, which is no vertex of `E`. -/
structure Reroute (E E' : V → V → Prop) (S : V → Prop) (e n : V) : Prop where
  edge : ∀ u v, E' u v ↔ (u = n ∧ v = e) ∨ (v = n ∧ S u) ∨ (E u v ∧ ¬ (S u ∧ v = e))
  no_succ : ∀ v, ¬ E n v
  no_pred : ∀ v, ¬ E v n
  moved : ∀ u, S u → E u e

namespace Reroute

theorem target_ne (R : Reroute E E' S e n) (hs : S a) : e ≠ n :=
  fun h => R.no_pred a (h ▸ R.moved a hs)

theorem moved_ne (R : Reroute E E' S e n) (hs : S a) : a ≠ n :=
  fun h => R.no_succ e (h ▸ R.moved a hs)

theorem edge_new (R : Reroute E E' S e n) : E' n e := (R.edge n e).2 (.inl ⟨rfl, rfl⟩)

theorem edge_to_new (R : Reroute E E' S e n) (he : e ≠ n) : E' a n ↔ S a := by
  rw [R.edge]
  constructor
  · rintro (⟨_, hn⟩ | ⟨_, hs⟩ | ⟨ha, _⟩)
    · exact absurd hn.symm he
    · exact hs
    · exact absurd ha (R.no_pred a)
  · intro hs
    exact .inr (.inl ⟨rfl, hs⟩)

theorem edge_from_new (R : Reroute E E' S e n) : E' n b ↔ b = e := by
  rw [R.edge]
  constructor
  · rintro (⟨_, hb⟩ | ⟨_, hs⟩ | ⟨hb, _⟩)
    · exact hb
    · exact absurd rfl (R.moved_ne hs)
    · exact absurd hb (R.no_succ b)
  · intro hb
    exact .inl ⟨rfl, hb⟩

theorem edge_old (R : Reroute E E' S e n) (ha : a ≠ n) (hb : b ≠ n) :
    E' a b ↔ E a b ∧ ¬ (S a ∧ b = e) := by
  rw [R.edge]
  constructor
  · rintro (⟨h, _⟩ | ⟨h, _⟩ | h)
    · exact absurd h ha
    · exact absurd h hb
    · exact h
  · intro h
    exact .inr (.inr h)

/-! ## Paths -/

theorem within_back (R : Reroute E E' S e n) (ha : a ≠ n) (h : Within P E' a b) :
    b ≠ n ∧ Within P E a b ∨ b = n ∧ ∃ s, S s ∧ Within P E a s := by
  obtain ⟨hpa, hp⟩ := h
  induction hp with
  | refl => exact .inl ⟨ha, .refl hpa⟩
  | @tail b c _ he ih =>
    obtain ⟨he, hc⟩ := he
    rcases (R.edge b c).1 he with ⟨rfl, rfl⟩ | ⟨rfl, hs⟩ | ⟨hbc, _⟩
    · rcases ih with ⟨hb, _⟩ | ⟨_, s, hs, hw⟩
      · exact absurd rfl hb
      · exact .inl ⟨R.target_ne hs, hw.tail (R.moved s hs) hc⟩
    · rcases ih with ⟨_, hw⟩ | ⟨hb, _⟩
      · exact .inr ⟨rfl, b, hs, hw⟩
      · exact absurd hb (R.moved_ne hs)
    · rcases ih with ⟨_, hw⟩ | ⟨hb, _⟩
      · exact .inl ⟨fun hcn => R.no_pred b (hcn ▸ hbc), hw.tail hbc hc⟩
      · exact absurd (hb ▸ hbc) (R.no_succ c)

theorem within_forth (R : Reroute E E' S e n) (hn : P n) (h : Within P E a b) :
    Within P E' a b := by
  obtain ⟨ha, hp⟩ := h
  induction hp with
  | refl => exact .refl ha
  | @tail b c _ he ih =>
    by_cases hs : S b ∧ c = e
    · have hbn : E' b n := (R.edge b n).2 (.inr (.inl ⟨rfl, hs.1⟩))
      exact (ih.tail hbn hn).tail (hs.2 ▸ R.edge_new) he.2
    · exact ih.tail ((R.edge b c).2 (.inr (.inr ⟨he.1, hs⟩))) he.2

/-- A path that uses none of the moved edges is still there. -/
theorem within_keep (R : Reroute E E' S e n) (hq : ∀ u v, Q u → Q v → ¬ (S u ∧ v = e))
    (h : Within Q E a b) : Within Q E' a b := by
  refine h.head_induction (motive := fun u => Within Q E' u b) .refl ?_
  intro u v hu he hv ih
  exact .head hu ((R.edge u v).2 (.inr (.inr ⟨he, hq u v hu hv.left⟩))) ih

theorem within_iff (R : Reroute E E' S e n) (hn : P n) (ha : a ≠ n) (hb : b ≠ n) :
    Within P E' a b ↔ Within P E a b := by
  refine ⟨fun h => ?_, R.within_forth hn⟩
  rcases R.within_back ha h with ⟨_, h⟩ | ⟨h, _⟩
  · exact h
  · exact absurd h hb

theorem within_new_iff (R : Reroute E E' S e n) (hn : P n) (ha : a ≠ n) :
    Within P E' a n ↔ ∃ s, S s ∧ Within P E a s := by
  constructor
  · intro h
    rcases R.within_back ha h with ⟨h, _⟩ | ⟨_, h⟩
    · exact absurd rfl h
    · exact h
  · rintro ⟨s, hs, h⟩
    exact (R.within_forth hn h).tail ((R.edge s n).2 (.inr (.inl ⟨rfl, hs⟩))) hn

theorem reaches_iff (R : Reroute E E' S e n) (ha : a ≠ n) (hb : b ≠ n) :
    Reaches E' a b ↔ Reaches E a b := by
  rw [← within_true, R.within_iff trivial ha hb, within_true]

theorem reaches_new_iff (R : Reroute E E' S e n) (ha : a ≠ n) :
    Reaches E' a n ↔ ∃ s, S s ∧ Reaches E a s := by
  rw [← within_true, R.within_new_iff trivial ha]
  simp only [within_true]

theorem avoids_iff (R : Reroute E E' S e n) (hx : x ≠ n) (ha : a ≠ n) (hb : b ≠ n) :
    Avoids E' x a b ↔ Avoids E x a b := R.within_iff hx.symm ha hb

theorem dominates_iff (R : Reroute E E' S e n) (hr : r ≠ n) (ha : a ≠ n) (hb : b ≠ n) :
    Dominates E' r a b ↔ Dominates E r a b := by
  rw [Dominates, Dominates, R.reaches_iff hr hb, R.avoids_iff ha hr hb]

theorem dominates_new_iff (R : Reroute E E' S e n) (hr : r ≠ n) (ha : a ≠ n) :
    Dominates E' r a n ↔
      (∃ s, S s ∧ Reaches E r s) ∧ ∀ s, S s → Reaches E r s → Dominates E r a s := by
  rw [Dominates, R.reaches_new_iff hr, Avoids, R.within_new_iff (P := (· ≠ a)) ha.symm hr]
  refine and_congr_right fun _ => ⟨fun h s hs hrs => ⟨hrs, fun hw => h ⟨s, hs, hw⟩⟩, ?_⟩
  rintro h ⟨s, hs, hw⟩
  exact (h s hs hw.reaches).2 hw

end Reroute

end LoopClock.Graph
