import LoopClock.Proofs.Graph.Loops

/-! Two graphs that agree on a part no edge enters or leaves have the same loops there. -/
namespace LoopClock.Graph
open Relation

variable {V : Type} {E E' : V → V → Prop} {C P : V → Prop} {r h a b x : V}

/-- No edge leads into `C` or out of it, and the edges in `C` are the same. -/
structure AgreeOn (C : V → Prop) (E E' : V → V → Prop) : Prop where
  left : ∀ u v, E u v → (C u ↔ C v)
  right : ∀ u v, E' u v → (C u ↔ C v)
  edge : ∀ u v, C u → (E' u v ↔ E u v)

namespace AgreeOn

variable (A : AgreeOn C E E')
include A

theorem swap : AgreeOn C E' E := ⟨A.right, A.left, fun u v hu => (A.edge u v hu).symm⟩

theorem edge_to (hv : C b) : E' a b ↔ E a b := by
  constructor
  · intro h
    exact (A.edge a b ((A.right a b h).2 hv)).1 h
  · intro h
    exact (A.edge a b ((A.left a b h).2 hv)).2 h

theorem reaches_mem (ha : C a) (h : Reaches E a b) : C b := by
  induction h with
  | refl => exact ha
  | tail _ he ih => exact (A.left _ _ he).1 ih

theorem within_of (ha : C a) (h : Within P E a b) : Within P E' a b := by
  have hc : Within (fun v => C v ∧ P v) E a b :=
    h.upgrade_left fun v hv => ⟨A.reaches_mem ha hv.reaches, hv.right⟩
  refine hc.head_induction (motive := fun u => Within P E' u b) (fun hb => .refl hb.2) ?_
  intro u v hu he _ ih
  exact .head hu.2 ((A.edge u v hu.1).2 he) ih

theorem within_iff (ha : C a) : Within P E' a b ↔ Within P E a b :=
  ⟨A.swap.within_of ha, A.within_of ha⟩

theorem reaches_iff (ha : C a) : Reaches E' a b ↔ Reaches E a b := by
  rw [← within_true, A.within_iff ha, within_true]

theorem dominates_iff (hr : C r) : Dominates E' r a b ↔ Dominates E r a b := by
  rw [Dominates, Dominates, A.reaches_iff hr, Avoids, A.within_iff hr, Avoids]

theorem latch_iff (hr : C r) : Latch E' r h a ↔ Latch E r h a := by
  rw [Latch, Latch, A.dominates_iff hr, and_congr_left_iff]
  intro hd
  exact A.edge a h (A.reaches_mem hr hd.reaches)

theorem isHeader_iff (hr : C r) : IsHeader E' r h ↔ IsHeader E r h :=
  exists_congr fun _ => A.latch_iff hr

theorem inLoop_iff (hr : C r) : InLoop E' r h b ↔ InLoop E r h b := by
  rw [InLoop, InLoop, A.reaches_iff hr]
  refine or_congr_right (and_congr_right fun hb => exists_congr fun p => ?_)
  rw [A.latch_iff hr, Avoids, A.within_iff (A.reaches_mem hr hb), Avoids]

theorem isExit_iff (hr : C r) (hh : IsHeader E r h) : IsExit E' r h x ↔ IsExit E r h x := by
  rw [IsExit, IsExit, A.inLoop_iff hr]
  refine and_congr_right fun _ => exists_congr fun u => ?_
  rw [A.inLoop_iff hr]
  refine and_congr_right fun hu => ?_
  exact A.edge u x (A.reaches_mem hr (hu.reaches hh))

theorem dedicated_iff (hr : C r) (hx : C x) : Dedicated E' r h x ↔ Dedicated E r h x := by
  rw [Dedicated, Dedicated]
  refine and_congr_right fun _ => forall_congr' fun u => ?_
  rw [A.edge_to hx, A.inLoop_iff hr]

end AgreeOn

end LoopClock.Graph
