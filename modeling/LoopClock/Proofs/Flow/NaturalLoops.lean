import LoopClock.Flow.Loops
import LoopClock.Proofs.Flow.Dominators
import LoopClock.Proofs.Graph.Loops
import LoopClock.Proofs.Lists

/-! The loops that are found are the natural loops of the flow graph: one for each header, with all
that belongs to it. -/
namespace LoopClock
open Graph Relation

namespace Flow.Sound

variable {g : Flow} {r v w p b h : Vertex} (hg : g.Sound r)
include hg

theorem mem_latches (hv : v ∈ g.layout) :
    p ∈ g.latches g.domTree v ↔ Latch g.Edge r v p := by
  rw [latches, List.mem_filter, Latch]
  constructor
  · rintro ⟨hp, hd⟩
    exact ⟨(hg.prev_mem p v hv).1 hp, (hg.dominates_iff hv (hg.prev_closed v hv p hp)).1 hd⟩
  · rintro ⟨he, hd⟩
    have hp := hg.layout_of_reaches hg.entry_mem hd.reaches
    exact ⟨(hg.prev_mem p v hv).2 he, (hg.dominates_iff hv hp).2 hd⟩

theorem isHeader_iff (hv : v ∈ g.layout) :
    g.domTree.isReachable v.id = true ∧ g.latches g.domTree v ≠ [] ↔ IsHeader g.Edge r v := by
  rw [hg.isReachable_iff hv]
  constructor
  · rintro ⟨_, hl⟩
    obtain ⟨p, hp⟩ := List.exists_mem_of_ne_nil _ hl
    exact ⟨p, (hg.mem_latches hv).1 hp⟩
  · intro hh
    refine ⟨hh.reaches, ?_⟩
    obtain ⟨p, hp⟩ := hh
    exact List.ne_nil_of_mem ((hg.mem_latches hv).2 hp)

theorem layout_of_isHeader (hh : IsHeader g.Edge r v) : v ∈ g.layout :=
  hg.layout_of_reaches hg.entry_mem hh.reaches

theorem layout_of_inLoop (hh : IsHeader g.Edge r h) (hb : InLoop g.Edge r h b) :
    b ∈ g.layout :=
  hg.layout_of_reaches hg.entry_mem (hb.reaches hh)

/-- Latches are dominated and thus reachable: the search space holds nothing else. -/
private theorem space_eq (hv : v ∈ g.layout) :
    g.domTree.reachable ++ (((g.latches g.domTree v).map (·.id)).filter
      (· ∉ g.domTree.reachable)).eraseDups = g.domTree.reachable := by
  have h : ((g.latches g.domTree v).map (·.id)).filter (· ∉ g.domTree.reachable) = [] := by
    simp only [List.filter_eq_nil_iff, List.mem_map, decide_eq_true_eq, not_not]
    rintro _ ⟨p, hp, rfl⟩
    have hd := ((hg.mem_latches hv).1 hp).2
    exact (hg.mem_reachable (hg.layout_of_reaches hg.entry_mem hd.reaches)).2 hd.reaches
  rw [h, List.eraseDups_nil, List.append_nil]

/-- Stepping backwards along edges between reachable blocks. -/
private def back (g : Flow) (v : Vertex) : List Vertex :=
  (g.prev v).filter (·.id ∈ g.domTree.reachable)

private theorem marked_back : Marked Vertex.id (back g) (· ∈ g.layout) :=
  ⟨fun v hv w hw => hg.prev_closed v hv w (List.mem_filter.1 hw).1,
    fun _ _ hv hw h => hg.inj hv hw h⟩

private theorem mem_back (hv : v ∈ g.layout) :
    w ∈ back g v ↔ g.Edge w v ∧ Reaches g.Edge r w := by
  rw [back, List.mem_filter, decide_eq_true_eq]
  constructor
  · rintro ⟨hw, hr⟩
    exact ⟨(hg.prev_mem w v hv).1 hw, (hg.mem_reachable (hg.prev_closed v hv w hw)).1 hr⟩
  · rintro ⟨he, hr⟩
    exact ⟨(hg.prev_mem w v hv).2 he,
      (hg.mem_reachable (hg.layout_of_reaches hg.entry_mem hr)).2 hr⟩

private theorem within_back_iff (hh : h ∈ g.layout) (hp : p ∈ g.layout) :
    Within (·.id ∈ g.domTree.reachable.filter (· ≠ h.id)) (Leads (back g)) p b ↔
      Reaches g.Edge r b ∧ Reaches g.Edge r p ∧ Avoids g.Edge h b p := by
  have hid : ∀ v ∈ g.layout, v.id ∈ g.domTree.reachable.filter (· ≠ h.id) ↔
      Reaches g.Edge r v ∧ v ≠ h := fun v hv => by
    rw [List.mem_filter, decide_eq_true_eq, hg.mem_reachable hv]
    exact and_congr_right fun _ => ⟨fun hi he => hi (he ▸ rfl), fun he hi => he (hg.inj hv hh hi)⟩
  constructor
  · intro hw
    -- all of the path lies in the layout
    have hl : Within (fun v => v ∈ g.layout ∧ Reaches g.Edge r v ∧ v ≠ h)
        (Leads (back g)) p b := by
      refine hw.upgrade_left fun v hv => ?_
      have hvl : v ∈ g.layout := by
        have hr := hv.reaches
        clear hw hv
        induction hr with
        | refl => exact hp
        | tail _ he ih => exact (marked_back hg).closed _ ih _ he
      exact ⟨hvl, (hid v hvl).1 hv.right⟩
    refine ⟨hl.right.2.1, hl.left.2.1, within_swap.1 ?_⟩
    refine hl.head_induction (motive := fun u => Within (· ≠ h) (fun u v => g.Edge v u) u b)
      (fun hb => .refl hb.2.2) ?_
    intro u v hu he _ ih
    exact .head hu.2.2 ((mem_back hg hu.1).1 he).1 ih
  · rintro ⟨hrb, hrp, hbp⟩
    have hl : Within (fun v => v ∈ g.layout ∧ Reaches g.Edge r v ∧ v ≠ h) g.Edge b p := by
      refine hbp.upgrade_left fun v hv => ?_
      have hrv := hrb.trans hv.reaches
      exact ⟨hg.layout_of_reaches hg.entry_mem hrv, hrv, hv.right⟩
    have hs := hl.swap
    refine hs.head_induction (motive := fun u => Within _ (Leads (back g)) u b)
      (fun hb => .refl ((hid b hb.1).2 hb.2)) ?_
    intro u v hu he hv ih
    exact .head ((hid u hu.1).2 hu.2) ((mem_back hg hu.1).2 ⟨he, hv.left.2.1⟩) ih

theorem mem_naturalLoop (hh : IsHeader g.Edge r h) (hb : b ∈ g.layout) :
    b.id ∈ g.naturalLoop g.domTree h.id (g.latches g.domTree h) ↔ InLoop g.Edge r h b := by
  have hhl := hg.layout_of_isHeader hh
  have hlatch : ∀ p ∈ (g.latches g.domTree h).reverse, p ∈ g.layout := fun p hp => by
    have hd := ((hg.mem_latches hhl).1 (List.mem_reverse.1 hp)).2
    exact hg.layout_of_reaches hg.entry_mem hd.reaches
  rw [naturalLoop, space_eq hg hhl, List.mem_filter, decide_eq_true_eq]
  rw [show (fun v => (g.prev v).filter (·.id ∈ g.domTree.reachable)) = back g from rfl]
  rw [mem_reached (marked_back hg) joins_stack hlatch (hg.nodup_reachable.filter _) hb,
    hg.mem_reachable hb]
  constructor
  · rintro ⟨hrb, hid | ⟨p, hp, hw⟩⟩
    · exact .inl (hg.inj hb hhl hid)
    · have hpl := hlatch p hp
      obtain ⟨_, _, hbp⟩ := (within_back_iff hg hhl hpl).1 hw
      exact .inr ⟨hrb, p, (hg.mem_latches hhl).1 (List.mem_reverse.1 hp), hbp⟩
  · rintro (rfl | ⟨hrb, p, hp, hbp⟩)
    · exact ⟨hh.reaches, .inl rfl⟩
    · have hpm := List.mem_reverse.2 ((hg.mem_latches hhl).2 hp)
      exact ⟨hrb, .inr ⟨p, hpm, (within_back_iff hg hhl (hlatch p hpm)).2
        ⟨hrb, hp.2.reaches, hbp⟩⟩⟩

theorem naturalLoop_nodup (hh : IsHeader g.Edge r h) :
    (g.naturalLoop g.domTree h.id (g.latches g.domTree h)).Nodup := by
  rw [naturalLoop, space_eq hg (hg.layout_of_isHeader hh)]
  exact hg.nodup_reachable.filter _

/-- The loop lists its members in the order of the dominator tree. -/
theorem naturalLoop_eq_filter (hh : IsHeader g.Edge r h) :
    g.naturalLoop g.domTree h.id (g.latches g.domTree h) = g.domTree.reachable.filter
      (· ∈ g.naturalLoop g.domTree h.id (g.latches g.domTree h)) := by
  rw [naturalLoop, space_eq hg (hg.layout_of_isHeader hh)]
  exact (filter_mem_filter _ _).symm

theorem naturalLoop_subset (hh : IsHeader g.Edge r h) :
    g.naturalLoop g.domTree h.id (g.latches g.domTree h) ⊆ g.ids := by
  intro i hi
  rw [naturalLoop, space_eq hg (hg.layout_of_isHeader hh), List.mem_filter] at hi
  have hi := hi.1
  rw [hg.reachable_domTree] at hi
  have hi := mem_of_mem_reached hi
  rw [List.mem_filter, hg.space] at hi
  exact hi.1

end Flow.Sound

/-- A body of a natural loop of `g`. -/
structure LoopBody.Natural (g : Flow) (r : Vertex) (b : LoopBody) : Prop where
  header : IsHeader g.Edge r b.header
  nodup : b.ids.Nodup
  subset : b.ids ⊆ g.ids
  mem : ∀ v ∈ g.layout, v.id ∈ b.ids ↔ InLoop g.Edge r b.header v

/-- A natural loop of `g` with its header and all its members. -/
structure Loop.Natural (g : Flow) (r : Vertex) (l : Loop) : Prop where
  header : IsHeader g.Edge r l.header
  mem : ∀ v, v ∈ l.blocks ↔ InLoop g.Edge r l.header v

namespace Flow.Sound

variable {g : Flow} {r v h : Vertex} (hg : g.Sound r)
include hg

theorem mem_loopBodies {b : LoopBody} : b ∈ g.loopBodies g.domTree ↔
    IsHeader g.Edge r b.header ∧
      b = ⟨b.header, g.naturalLoop g.domTree b.header.id (g.latches g.domTree b.header)⟩ := by
  rw [loopBodies, List.mem_filterMap]
  constructor
  · rintro ⟨v, hv, hb⟩
    by_cases hc : g.domTree.isReachable v.id = true ∧ g.latches g.domTree v ≠ []
    · simp only [hc, ne_eq, not_false_eq_true, and_self, if_true, Option.some.injEq] at hb
      subst hb
      exact ⟨(hg.isHeader_iff hv).1 hc, rfl⟩
    · simp [if_neg hc] at hb
  · rintro ⟨hh, hb⟩
    have hv := hg.layout_of_isHeader hh
    refine ⟨b.header, hv, ?_⟩
    rw [if_pos ((hg.isHeader_iff hv).2 hh)]
    exact congrArg some hb.symm

theorem natural_of_mem {b : LoopBody} (hb : b ∈ g.loopBodies g.domTree) : b.Natural g r := by
  obtain ⟨hh, hb⟩ := hg.mem_loopBodies.1 hb
  refine ⟨hh, ?_, ?_, fun v hv => ?_⟩
  · rw [hb]
    exact hg.naturalLoop_nodup hh
  · rw [hb]
    exact hg.naturalLoop_subset hh
  · rw [hb]
    exact hg.mem_naturalLoop hh hv

/-- No two bodies have the same header. -/
theorem nodup_headers : ((g.loopBodies g.domTree).map (·.header)).Nodup := by
  rw [List.Nodup, List.pairwise_map, loopBodies, List.pairwise_filterMap]
  have hn : g.layout.Nodup := List.Nodup.of_map _ hg.nodup
  refine hn.imp fun {v w} hvw b hb c hc => ?_
  dsimp only at hb hc
  have hv : b.header = v := by
    split at hb
    · exact congrArg LoopBody.header (Option.some.inj hb).symm
    · cases hb
  have hw : c.header = w := by
    split at hc
    · exact congrArg LoopBody.header (Option.some.inj hc).symm
    · cases hc
  rw [hv, hw]
  exact hvw

end Flow.Sound

end LoopClock
