import LoopClock.Proofs.Flow.NaturalLoops

/-! What the forest keeps: a loop for each body, under its number, with its header and its members. The parent
is the smallest other body around the header. Subloops and levels follow from the parents. -/
namespace LoopClock
open Graph

abbrev Flow.forest (g : Flow) : LoopForest := g.loopForest g.domTree

/-- The loops with the parent `o`, or without one, in the order of their numbers. -/
def LoopForest.children (f : LoopForest) (o : Option Nat) : List Loop := f.loops.filter (·.outer = o)

theorem LoopForest.mem_children {f : LoopForest} {o : Option Nat} {l : Loop} :
    l ∈ f.children o ↔ l ∈ f.loops ∧ l.outer = o := by
  rw [children, List.mem_filter, decide_eq_true_eq]

theorem LoopForest.children_subset (f : LoopForest) (o : Option Nat) : f.children o ⊆ f.loops :=
  List.filter_subset_self _

namespace Flow

/-! ## The smallest body -/

theorem smallestBody?_some {bodies : List LoopBody} {block : Int} {except : Option Nat} {k : Nat}
    (h : smallestBody? bodies block except = some k) :
    some k ≠ except ∧ ∃ b, bodies[k]? = some b ∧ block ∈ b.ids ∧
      ∀ j c, bodies[j]? = some c → some j ≠ except → block ∈ c.ids →
        b.ids.length ≤ c.ids.length := by
  rw [smallestBody?, Option.map_eq_some_iff] at h
  obtain ⟨⟨b, i⟩, hb, rfl⟩ := h
  obtain ⟨hmem, hmin⟩ := leastBy_some hb
  rw [List.mem_filter, List.mem_zipIdx_iff_getElem?, decide_eq_true_eq] at hmem
  refine ⟨hmem.2.1, b, hmem.1, hmem.2.2, fun j c hj hne hc => hmin (c, j) ?_⟩
  rw [List.mem_filter, List.mem_zipIdx_iff_getElem?, decide_eq_true_eq]
  exact ⟨hj, hne, hc⟩

theorem smallestBody?_none {bodies : List LoopBody} {block : Int} {except : Option Nat}
    (h : smallestBody? bodies block except = none) {j : Nat} {c : LoopBody}
    (hj : bodies[j]? = some c) (hne : some j ≠ except) : block ∉ c.ids := by
  rw [smallestBody?, Option.map_eq_none_iff] at h
  intro hc
  have hmem : (c, j) ∈ bodies.zipIdx.filter fun p => some p.2 ≠ except ∧ block ∈ p.1.ids := by
    rw [List.mem_filter, List.mem_zipIdx_iff_getElem?, decide_eq_true_eq]
    exact ⟨hj, hne, hc⟩
  rw [leastBy_none h] at hmem
  cases hmem

/-! ## Loops by their numbers -/

/-- The loops of the forest have the headers of the bodies. -/
theorem map_header_loops (g : Flow) (d : DomTree) :
    (g.loopForest d).loops.map (·.header) = (g.loopBodies d).map (·.header) := by
  conv_rhs => rw [← List.zipIdx_map_fst 0 (g.loopBodies d), List.map_map]
  simp only [loopForest, List.map_map]
  rfl

theorem headers_loopBodies (g : Flow) (d : DomTree) : (g.loopBodies d).map (·.header) =
    g.layout.filter fun v => d.isReachable v.id ∧ g.latches d v ≠ [] := by
  rw [loopBodies, List.map_filterMap, ← List.filterMap_eq_filter]
  refine List.filterMap_congr fun v _ => ?_
  by_cases h : d.isReachable v.id ∧ g.latches d v ≠ []
  · rw [if_pos h, Option.guard, if_pos (decide_eq_true h)]
    rfl
  · rw [if_neg h, Option.guard, if_neg (by simpa using h)]
    rfl

/-- For each body the number of the smallest other body around its header. -/
def outers (bodies : List LoopBody) : List (Option Nat) :=
  bodies.zipIdx.map fun (b, i) => smallestBody? bodies b.header.id (some i)

/-- The loops of the forest have the parents of the bodies. -/
theorem map_outer_loops (g : Flow) (d : DomTree) :
    (g.loopForest d).loops.map (·.outer) = outers (g.loopBodies d) := by
  refine List.ext_getElem? fun i => ?_
  simp only [loopForest, outers, List.map_map, List.getElem?_map, List.getElem?_zipIdx]
  cases hb : (g.loopBodies d)[i]? <;> simp [hb]

/-- Loops are kept under their numbers. -/
theorem map_id_loops (g : Flow) (d : DomTree) :
    (g.loopForest d).loops.map (·.id) = List.range (g.loopForest d).loops.length := by
  simp only [loopForest, List.map_map, List.length_map, List.length_zipIdx]
  exact (List.zipIdx_map_snd 0 (g.loopBodies d)).trans List.range_eq_range'.symm

theorem loops_nodup {g : Flow} : g.forest.loops.Nodup :=
  List.Nodup.of_map _ (map_id_loops g g.domTree ▸ List.nodup_range)

theorem pairwise_id {g : Flow} : g.forest.loops.Pairwise fun l m => l.id < m.id := by
  have h := map_id_loops g g.domTree ▸ List.pairwise_lt_range (n := g.forest.loops.length)
  rwa [List.pairwise_map] at h

/-- What the forest keeps of the loop with number `i`. -/
theorem loopForest_get {g : Flow} {d : DomTree} {i : Nat} {l : Loop}
    (h : (g.loopForest d).loops[i]? = some l) :
    ∃ b, (g.loopBodies d)[i]? = some b ∧ l.id = i ∧ l.header = b.header ∧
      l.blocks = g.layout.filter (·.id ∈ b.ids) ∧
      l.outer = smallestBody? (g.loopBodies d) b.header.id (some i) := by
  simp only [loopForest, List.getElem?_map, List.getElem?_zipIdx, Nat.zero_add,
    Option.map_eq_some_iff] at h
  obtain ⟨⟨b, j⟩, ⟨c, hc, hbj⟩, rfl⟩ := h
  obtain ⟨rfl, rfl⟩ := Prod.mk.inj hbj
  exact ⟨c, hc, rfl, rfl, rfl, by simp [hc]⟩

theorem get?_eq_some_iff {g : Flow} {k : Nat} {l : Loop} :
    g.forest.get? k = some l ↔ l ∈ g.forest.loops ∧ l.id = k := by
  constructor
  · intro h
    obtain ⟨_, _, hid, _⟩ := loopForest_get h
    exact ⟨List.mem_of_getElem? h, hid⟩
  · rintro ⟨hl, rfl⟩
    obtain ⟨i, hi⟩ := List.mem_iff_getElem?.1 hl
    obtain ⟨_, _, hid, _⟩ := loopForest_get hi
    exact hid ▸ hi

theorem blocks_sublist {g : Flow} {l : Loop} (hl : l ∈ g.forest.loops) :
    l.blocks.Sublist g.layout := by
  obtain ⟨_, _, _, _, hblocks, _⟩ := loopForest_get (get?_eq_some_iff.2 ⟨hl, rfl⟩)
  exact hblocks ▸ List.filter_sublist

theorem mem_layout_of_mem_blocks {g : Flow} {l : Loop} {x : Vertex} (hl : l ∈ g.forest.loops)
    (hx : x ∈ l.blocks) : x ∈ g.layout :=
  (blocks_sublist hl).subset hx

/-- Loops are found at the blocks of the layout. -/
theorem header_mem_layout {g : Flow} {l : Loop} (hl : l ∈ g.forest.loops) : l.header ∈ g.layout := by
  have h : l.header ∈ g.forest.loops.map (·.header) := List.mem_map_of_mem hl
  rw [forest, map_header_loops, headers_loopBodies] at h
  exact List.mem_of_mem_filter h

/-! ## Subloops and levels -/

theorem loopForest_outers {g : Flow} {l : Loop} (hl : l ∈ g.forest.loops) :
    l.subloops = (List.range g.forest.loops.length).filter
        (fun j => (g.forest.loops.map (·.outer))[j]?.join = some l.id) ∧
      l.level = levelOf (g.forest.loops.map (·.outer)) l.id := by
  have hlength : g.forest.loops.length = (g.loopBodies g.domTree).length := by
    simpa using congrArg List.length (map_header_loops g g.domTree)
  rw [hlength, map_outer_loops]
  obtain ⟨⟨b, i⟩, _, rfl⟩ := List.mem_map.1 hl
  exact ⟨rfl, rfl⟩

theorem getElem?_outer {g : Flow} {k : Nat} {l : Loop} (hl : g.forest.get? k = some l) :
    (g.forest.loops.map (·.outer))[k]?.join = l.outer := by
  rw [List.getElem?_map]
  exact congrArg (fun o => (o.map Loop.outer).join) hl

/-- The subloops are the loops with this parent. -/
theorem subloops_eq {g : Flow} {l : Loop} (hl : l ∈ g.forest.loops) :
    l.subloops = (g.forest.children (some l.id)).map (·.id) := by
  rw [(loopForest_outers hl).1, forest, ← map_id_loops, List.filter_map, LoopForest.children]
  refine congrArg (List.map _) (List.filter_congr fun s hs => ?_)
  have hget := getElem?_outer (get?_eq_some_iff.2 ⟨hs, rfl⟩)
  simp only [Function.comp_apply, hget]

theorem filterMap_subloops {g : Flow} {l : Loop} (hl : l ∈ g.forest.loops) :
    l.subloops.filterMap g.forest.get? = g.forest.children (some l.id) := by
  rw [subloops_eq hl, List.filterMap_map]
  have hget : ∀ s ∈ g.forest.children (some l.id), (g.forest.get? ∘ (·.id)) s = some s := by
    intro s hs
    exact get?_eq_some_iff.2 ⟨(LoopForest.mem_children.1 hs).1, rfl⟩
  rw [List.filterMap_congr hget, List.filterMap_some]

theorem topLevel_eq (g : Flow) : g.forest.topLevel = g.forest.children none :=
  List.filter_congr fun l _ => by cases l.outer <;> rfl

namespace Sound

variable {g : Flow} {r h : Vertex} (hg : g.Sound r)
include hg

/-! ## Loops of the forest -/

theorem natural_of_mem_loops {l : Loop} (hl : l ∈ g.forest.loops) : l.Natural g r := by
  obtain ⟨i, hi⟩ := List.mem_iff_getElem?.1 hl
  obtain ⟨b, hb, _, hh, hbs, _⟩ := loopForest_get hi
  have hn := hg.natural_of_mem (List.mem_of_getElem? hb)
  refine ⟨hh ▸ hn.header, fun v => ?_⟩
  rw [hbs, List.mem_filter, decide_eq_true_eq, hh]
  constructor
  · rintro ⟨hv, hvb⟩
    exact (hn.mem v hv).1 hvb
  · intro hv
    have hvl := hg.layout_of_inLoop hn.header hv
    exact ⟨hvl, (hn.mem v hvl).2 hv⟩

theorem nodup_map_header : (g.forest.loops.map (·.header)).Nodup := by
  rw [Flow.forest, map_header_loops]
  exact hg.nodup_headers

/-- No two loops have the same header. -/
theorem eq_of_header_eq {l m : Loop} (hl : l ∈ g.forest.loops) (hm : m ∈ g.forest.loops)
    (h : l.header = m.header) : l = m :=
  List.inj_on_of_nodup_map hg.nodup_map_header hl hm h

/-- Every header is found under its id. -/
theorem exists_byHeader? (hh : IsHeader g.Edge r h) :
    ∃ l ∈ g.forest.loops, g.forest.byHeader? h.id = some l ∧ l.header = h := by
  have hbody : (⟨h, g.naturalLoop g.domTree h.id (g.latches g.domTree h)⟩ : LoopBody) ∈
      g.loopBodies g.domTree := hg.mem_loopBodies.2 ⟨hh, rfl⟩
  have hmem : h ∈ g.forest.loops.map (·.header) := by
    rw [Flow.forest, map_header_loops]
    exact List.mem_map_of_mem hbody
  obtain ⟨l, hl, hlh⟩ := List.mem_map.1 hmem
  cases hf : g.forest.byHeader? h.id with
  | none =>
    have := List.find?_eq_none.1 hf l hl
    simp [hlh] at this
  | some m =>
    have hm := List.mem_of_find?_eq_some hf
    have hid : m.header.id = h.id := by simpa using List.find?_some hf
    exact ⟨m, hm, rfl, hg.inj (header_mem_layout hm) (hg.layout_of_isHeader hh) hid⟩

end Sound

end Flow

end LoopClock
