import LoopClock.Proofs.Flow.LoopForest
import LoopClock.Proofs.Graph.Agreement

/-! Flows with the same blocks and the same edges have the same analyses. In which order a block lists
its predecessors and successors makes no difference. -/
namespace LoopClock
open Graph

/-- The laid out blocks are the same, and so are their edges. -/
structure Flow.Alike (g g' : Flow) : Prop where
  layout : g'.layout = g.layout
  edge : ∀ v ∈ g.layout, ∀ w, g'.Edge v w ↔ g.Edge v w

/-- No edge leads into a sound flow. -/
theorem Flow.Sound.layout_iff {g : Flow} {r v w : Vertex} (hg : g.Sound r) (he : g.Edge v w) :
    v ∈ g.layout ↔ w ∈ g.layout :=
  ⟨fun hv => hg.closed v hv w he,
    fun hw => hg.prev_closed w hw v ((hg.prev_mem v w hw).2 he)⟩

namespace Flow.Alike

variable {g g' : Flow} {r h : Vertex} (A : g.Alike g') (hg : g.Sound r) (hg' : g'.Sound r)
include A

theorem ids_eq : g'.ids = g.ids := by rw [Flow.ids, Flow.ids, A.layout]

include hg hg'

theorem agreeOn : AgreeOn (· ∈ g.layout) g.Edge g'.Edge where
  left _ _ := hg.layout_iff
  right v w he := by
    have h := hg'.layout_iff he
    rwa [A.layout] at h
  edge u v hu := A.edge u hu v

theorem reachableWithout_eq {removed : Option Int} (hr : ∀ b, removed = some b → b ∈ g.ids) :
    g'.reachableWithout removed = g.reachableWithout removed := by
  have hspace : g'.space = g.space := by rw [hg.space, hg'.space, A.ids_eq]
  have N := A.agreeOn hg hg'
  have hr' := hg.entry_mem
  have hmem : ∀ b ∈ g.ids, b ∈ g'.reachableWithout removed ↔ b ∈ g.reachableWithout removed := by
    intro b hb
    obtain ⟨v, hv, rfl⟩ := List.mem_map.1 hb
    have hv' : v ∈ g'.layout := A.layout ▸ hv
    cases removed with
    | none => rw [hg.mem_reachableWithout_none hv, hg'.mem_reachableWithout_none hv',
        N.reaches_iff hr']
    | some b =>
      obtain ⟨x, hx, rfl⟩ := List.mem_map.1 (hr b rfl)
      rw [hg.mem_reachableWithout_some hx hv, hg'.mem_reachableWithout_some (A.layout ▸ hx) hv',
        Avoids, N.within_iff hr', Avoids]
  have hself : ∀ f : Flow, f.reachableWithout removed =
      (f.space.filter (some · ≠ removed)).filter (· ∈ f.reachableWithout removed) := fun f =>
    (filter_mem_filter _ _).symm
  rw [hself g, hself g', hspace]
  refine List.filter_congr fun b hb => decide_eq_decide.2 (hmem b ?_)
  exact hg.space ▸ List.mem_of_mem_filter hb

theorem domTree_eq : g'.domTree = g.domTree := by
  have hnone : g'.reachableWithout none = g.reachableWithout none :=
    A.reachableWithout_eq hg hg' fun _ h => nomatch h
  rw [hg.domTree_eq, hg'.domTree_eq, hnone]
  refine congrArg DomTree.mk (List.map_congr_left fun b hb => ?_)
  have hb : b ∈ g.ids := by
    have hb := List.mem_of_mem_filter (mem_of_mem_reached hb)
    rwa [hg.space] at hb
  rw [A.reachableWithout_eq hg hg' fun c hc => Option.some.inj hc ▸ hb]

theorem naturalLoop_eq (hh : IsHeader g.Edge r h) :
    g'.naturalLoop g'.domTree h.id (g'.latches g'.domTree h) =
      g.naturalLoop g.domTree h.id (g.latches g.domTree h) := by
  have hh' : IsHeader g'.Edge r h := ((A.agreeOn hg hg').isHeader_iff hg.entry_mem).2 hh
  rw [hg.naturalLoop_eq_filter hh, hg'.naturalLoop_eq_filter hh', A.domTree_eq hg hg']
  refine List.filter_congr fun b hb => decide_eq_decide.2 ?_
  have hb : b ∈ g.ids := by
    rw [hg.reachable_domTree] at hb
    have hb := List.mem_of_mem_filter (mem_of_mem_reached hb)
    rwa [hg.space] at hb
  obtain ⟨v, hv, rfl⟩ := List.mem_map.1 hb
  have h := hg'.mem_naturalLoop hh' (A.layout ▸ hv)
  rw [A.domTree_eq hg hg', (A.agreeOn hg hg').inLoop_iff hg.entry_mem] at h
  rw [h, hg.mem_naturalLoop hh hv]

theorem loopBodies_eq : g'.loopBodies g'.domTree = g.loopBodies g.domTree := by
  rw [loopBodies, loopBodies, A.layout]
  refine List.filterMap_congr fun v hv => ?_
  have hiff := hg.isHeader_iff hv
  have hiff' := hg'.isHeader_iff (A.layout ▸ hv)
  rw [(A.agreeOn hg hg').isHeader_iff hg.entry_mem] at hiff'
  by_cases hh : IsHeader g.Edge r v
  · simp only [if_pos (hiff.2 hh), if_pos (hiff'.2 hh), A.naturalLoop_eq hg hg' hh]
  · simp only [if_neg fun h => hh (hiff.1 h), if_neg fun h => hh (hiff'.1 h)]

/-- The analyses see the blocks and the edges, and nothing else. -/
theorem analyses_eq : g'.analyses = g.analyses := by
  have hbodies := A.loopBodies_eq hg hg'
  rw [A.domTree_eq hg hg'] at hbodies
  simp only [Flow.analyses, loopForest, A.domTree_eq hg hg', hbodies, A.layout, A.ids_eq]

end Flow.Alike

end LoopClock
