import LoopClock.Proofs.Graph.Dominance

/-! Natural loops. A vertex with an edge back to it from a vertex that it dominates heads a loop; the
loop holds the header and all that reaches such a vertex around the header. Two loops that share a
vertex are nested. -/
namespace LoopClock.Graph
open Relation

variable {V : Type} {E : V → V → Prop} {r h k b u v x : V}

def Latch (E : V → V → Prop) (r h p : V) : Prop := E p h ∧ Dominates E r h p

def IsHeader (E : V → V → Prop) (r h : V) : Prop := ∃ p, Latch E r h p

/-- Membership in the loop with the header `h`. -/
def InLoop (E : V → V → Prop) (r h b : V) : Prop :=
  b = h ∨ Reaches E r b ∧ ∃ p, Latch E r h p ∧ Avoids E h b p

/-- A vertex outside the loop that an edge from inside leads to. -/
def IsExit (E : V → V → Prop) (r h x : V) : Prop := ¬ InLoop E r h x ∧ ∃ u, InLoop E r h u ∧ E u x

/-- A vertex that is entered from the loop only. The root is also entered from outside. -/
def Dedicated (E : V → V → Prop) (r h x : V) : Prop := x ≠ r ∧ ∀ u, E u x → InLoop E r h u

theorem inLoop_header : InLoop E r h h := .inl rfl

theorem IsHeader.reaches (hh : IsHeader E r h) : Reaches E r h := by
  obtain ⟨p, _, hp⟩ := hh
  exact hp.root_reaches

theorem InLoop.reaches (hh : IsHeader E r h) (hb : InLoop E r h b) : Reaches E r b := by
  rcases hb with rfl | hb
  · exact hh.reaches
  · exact hb.1

theorem InLoop.dominates (hh : IsHeader E r h) (hb : InLoop E r h b) : Dominates E r h b := by
  rcases hb with rfl | ⟨hb, p, hp, hbp⟩
  · exact .refl hh.reaches
  · exact hp.2.of_avoids hbp hb

/-- What leads to a member other than the header is a member. -/
theorem InLoop.pred (hb : InLoop E r h b) (hne : b ≠ h) (he : E u b) (hu : Reaches E r u) :
    InLoop E r h u := by
  rcases hb with hb | ⟨_, p, hp, hbp⟩
  · exact absurd hb hne
  · by_cases huh : u = h
    · exact .inl huh
    · exact .inr ⟨hu, p, hp, .head huh he hbp⟩

theorem InLoop.exists_succ (hh : IsHeader E r h) (hb : InLoop E r h b) :
    ∃ c, E b c ∧ InLoop E r h c := by
  rcases hb with rfl | ⟨hr, p, hp, hbp⟩
  · obtain ⟨p, hp⟩ := hh
    rcases hp.2.mem with ⟨hb, rfl | ⟨v, he, hv⟩⟩
    · exact ⟨b, hp.1, inLoop_header⟩
    · exact ⟨v, he, .inr ⟨hb.tail he, p, hp, hv⟩⟩
  · rcases hbp.cases_head with rfl | ⟨c, he, hc⟩
    · exact ⟨h, hp.1, inLoop_header⟩
    · exact ⟨c, he, .inr ⟨hr.tail he, p, hp, hc⟩⟩

/-- The header leads to every member by a path in the loop. -/
theorem InLoop.within (hh : IsHeader E r h) (hb : InLoop E r h b) :
    Within (InLoop E r h) E h b := by
  rcases hb with rfl | ⟨hr, p, hp, hbp⟩
  · exact .refl inLoop_header
  rcases (InLoop.dominates hh (.inr ⟨hr, p, hp, hbp⟩)).mem with ⟨_, rfl | ⟨v, he, hv⟩⟩
  · exact .refl inLoop_header
  · have hv : Within (fun w => Avoids E h w b) E v b := hv.upgrade fun _ hw => hw
    refine .head inLoop_header he (hv.upgrade_left fun w hw => .inr ⟨?_, p, hp, ?_⟩)
    · exact (hh.reaches.tail he).trans hw.reaches
    · exact Within.trans hw.right hbp

theorem InLoop.antisymm (hh : IsHeader E r h) (hk : IsHeader E r k) (hkh : InLoop E r h k)
    (hhk : InLoop E r k h) : h = k :=
  (hkh.dominates hh).antisymm (hhk.dominates hk)

/-- A loop whose header is in another loop lies in it altogether. -/
theorem InLoop.trans (hh : IsHeader E r h) (hk : IsHeader E r k) (hkh : InLoop E r h k)
    (hb : InLoop E r k b) : InLoop E r h b := by
  rcases hkh with rfl | ⟨hrk, q, hq, hkq⟩
  · exact hb
  rcases hb with rfl | ⟨hrb, p, hp, hbp⟩
  · exact .inr ⟨hrk, q, hq, hkq⟩
  -- the path around `k` does not meet `h`, which `k` would dominate there
  have hbp : Avoids E h b p := by
    refine hbp.upgrade fun v hv hvh => ?_
    have hkh : Dominates E r k h := hp.2.of_avoids (hvh ▸ hv) hh.reaches
    have hhk : Dominates E r h k := InLoop.dominates hh (.inr ⟨hrk, q, hq, hkq⟩)
    exact hkq.left (hkh.antisymm hhk)
  exact .inr ⟨hrb, q, hq, Within.trans (hbp.tail hp.1 hkq.left) hkq⟩

private theorem inLoop_of_dominates (hh : IsHeader E r h) (hk : IsHeader E r k)
    (hhb : InLoop E r h b) (hkb : InLoop E r k b) (hd : Dominates E r h k) : InLoop E r h k := by
  by_cases hne : h = k
  · exact .inl hne.symm
  have hkb' : Avoids E h k b := by
    refine (hkb.within hk).mono fun v hv hvh => ?_
    exact hne (hd.antisymm ((hvh ▸ hv).dominates hk))
  rcases hhb with rfl | ⟨_, p, hp, hbp⟩
  · exact absurd rfl hkb'.right
  · exact .inr ⟨hk.reaches, p, hp, hkb'.trans hbp⟩

/-- Loops that share a vertex are nested. -/
theorem InLoop.laminar (hh : IsHeader E r h) (hk : IsHeader E r k) (hhb : InLoop E r h b)
    (hkb : InLoop E r k b) : InLoop E r h k ∨ InLoop E r k h := by
  rcases (hhb.dominates hh).total (hkb.dominates hk) with hd | hd
  · exact .inl (inLoop_of_dominates hh hk hhb hkb hd)
  · exact .inr (inLoop_of_dominates hk hh hkb hhb hd)

/-- An exit that dominates one member of the loop dominates the header, and with it all members. -/
theorem Dominates.header_of_exit (hk : IsHeader E r k) (hx : ¬ InLoop E r k x)
    (hb : InLoop E r k b) (hd : Dominates E r x b) : Dominates E r x k := by
  rcases hd.total (hb.dominates hk) with hxk | hkx
  · exact hxk
  refine ⟨hk.reaches, fun hav => hd.2 (Within.trans hav ?_)⟩
  exact (hb.within hk).mono fun v hv hvx => hx (hvx ▸ hv)

end LoopClock.Graph
