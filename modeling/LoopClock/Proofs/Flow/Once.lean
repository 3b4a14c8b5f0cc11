import LoopClock.Proofs.Forest
import Mathlib.Data.List.Nodup

/-! No loop is visited twice, whatever the graph is. The loops met on the way outwards from a loop are
determined, and the visits to a loop all lead outwards through it. -/
namespace LoopClock

namespace LoopForest

variable {f : LoopForest} {o : Option Nat} {as bs : List Loop}

theorem Outward.unique (h : f.Outward o as) (k : f.Outward o bs) : as = bs := by
  induction h generalizing bs with
  | stop =>
    cases k
    rfl
  | step hl _ ih =>
    cases k with
    | step hm k =>
      obtain rfl := Option.some.inj (hl.symm.trans hm)
      rw [ih k]

end LoopForest

namespace Flow

variable {g : Flow} {l x : Loop} {ls chain : List Loop} {o : Option Nat} {depth : Nat}

/-- What is visited for a loop has that loop on the way outwards. -/
theorem outward_of_mem_postOrderFrom (hl : l ∈ g.forest.loops) (h : g.forest.Outward l.outer chain)
    (hx : x ∈ g.forest.postOrderFrom depth l) :
    x ∈ g.forest.loops ∧ ∃ way, g.forest.Outward x.outer way ∧ l :: chain <:+ x :: way := by
  induction depth generalizing l chain with
  | zero =>
    obtain rfl := List.mem_singleton.1 hx
    exact ⟨hl, chain, h, List.suffix_rfl⟩
  | succ depth ih =>
    rw [LoopForest.postOrderFrom, filterMap_subloops hl] at hx
    rcases List.mem_append.1 hx with hx | hx
    · obtain ⟨s, hs, hx⟩ := List.mem_flatMap.1 hx
      obtain ⟨hsl, hso⟩ := LoopForest.mem_children.1 hs
      have hout : g.forest.Outward s.outer (l :: chain) := hso ▸ .step (get?_eq_some_iff.2 ⟨hl, rfl⟩) h
      obtain ⟨hxl, way, hway, hsuffix⟩ := ih hsl hout hx
      exact ⟨hxl, way, hway, (List.suffix_cons s _).trans hsuffix⟩
    · obtain rfl := List.mem_singleton.1 hx
      exact ⟨hl, chain, h, List.suffix_rfl⟩

/-- Visits to loops with one parent are apart. -/
theorem nodup_flatMap_children (h : g.forest.Outward o chain)
    (each : ∀ l ∈ g.forest.children o, (g.forest.postOrderFrom depth l).Nodup) :
    ((g.forest.children o).flatMap (g.forest.postOrderFrom depth)).Nodup := by
  rw [List.nodup_flatMap]
  constructor
  · exact each
  · have hnodup : (g.forest.children o).Nodup := loops_nodup.filter _
    apply hnodup.imp_of_mem
    intro l m hl hm hne x hxl hxm
    obtain ⟨hl, hlo⟩ := LoopForest.mem_children.1 hl
    obtain ⟨hm, hmo⟩ := LoopForest.mem_children.1 hm
    obtain ⟨-, way, hway, hlx⟩ := outward_of_mem_postOrderFrom hl (hlo ▸ h) hxl
    obtain ⟨-, way', hway', hmx⟩ := outward_of_mem_postOrderFrom hm (hmo ▸ h) hxm
    obtain rfl := hway.unique hway'
    rw [List.suffix_iff_eq_drop] at hlx hmx
    exact hne (List.cons.inj (hlx.trans hmx.symm)).1

theorem nodup_postOrderFrom (hl : l ∈ g.forest.loops) (h : g.forest.Outward l.outer chain) :
    (g.forest.postOrderFrom depth l).Nodup := by
  induction depth generalizing l chain with
  | zero => exact List.nodup_singleton l
  | succ depth ih =>
    have hout : g.forest.Outward (some l.id) (l :: chain) := .step (get?_eq_some_iff.2 ⟨hl, rfl⟩) h
    rw [LoopForest.postOrderFrom, filterMap_subloops hl, List.nodup_append']
    refine ⟨?_, List.nodup_singleton l, ?_⟩
    · apply nodup_flatMap_children hout
      intro s hs
      obtain ⟨hsl, hso⟩ := LoopForest.mem_children.1 hs
      exact ih hsl (hso ▸ hout)
    · rw [List.disjoint_singleton]
      intro hmem
      obtain ⟨s, hs, hmem⟩ := List.mem_flatMap.1 hmem
      obtain ⟨hsl, hso⟩ := LoopForest.mem_children.1 hs
      obtain ⟨-, way, hway, hsuffix⟩ := outward_of_mem_postOrderFrom hsl (hso ▸ hout) hmem
      have hlength := hsuffix.length_le
      rw [hway.unique h] at hlength
      simp at hlength

theorem nodup_postOrder (g : Flow) : g.forest.postOrder.Nodup := by
  rw [LoopForest.postOrder, topLevel_eq]
  apply nodup_flatMap_children .stop
  intro l hl
  obtain ⟨hl, ho⟩ := LoopForest.mem_children.1 hl
  have hout : g.forest.Outward l.outer [] := ho ▸ .stop
  exact nodup_postOrderFrom hl hout

/-- Where no two blocks have one id, no header is visited twice. -/
theorem nodup_visitOrder (h : g.ids.Nodup) : g.forest.visitOrder.Nodup := by
  have hheaders : (g.forest.loops.map (·.header.id)).Nodup := by
    have hsub : (g.forest.loops.map (·.header)).Sublist g.layout := by
      rw [forest, map_header_loops, headers_loopBodies]
      exact List.filter_sublist
    apply List.Nodup.sublist _ h
    simpa [Flow.ids, Function.comp_def] using hsub.map (·.id)
  have hloops : ∀ x ∈ g.forest.postOrder, x ∈ g.forest.loops := by
    intro x hx
    rw [LoopForest.postOrder, topLevel_eq] at hx
    obtain ⟨l, hl, hx⟩ := List.mem_flatMap.1 hx
    obtain ⟨hl, ho⟩ := LoopForest.mem_children.1 hl
    have hout : g.forest.Outward l.outer [] := ho ▸ .stop
    exact (outward_of_mem_postOrderFrom hl hout hx).1
  apply (nodup_postOrder g).map_on
  intro x hx y hy heq
  exact List.inj_on_of_nodup_map hheaders (hloops x hx) (hloops y hy) heq

end Flow

end LoopClock
