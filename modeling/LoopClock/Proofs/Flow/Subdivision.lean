import LoopClock.Proofs.Flow.Nesting

/-! Laying out further blocks. When they head no loops and leave the old blocks as they are to each other,
the analyses say of the old blocks what they said before: dominance, the loops and their nesting, and
the order of visits. -/
namespace LoopClock
open Graph

/-- A loop without its members: its number, its header and its place in the forest. -/
def Loop.bare (l : Loop) : Loop := { l with blocks := [] }

namespace LoopForest

variable {f f' : LoopForest}

theorem map_bare_postOrderFrom_bare (f : LoopForest) (depth : Nat) (l : Loop) :
    (f.postOrderFrom depth l.bare).map Loop.bare = (f.postOrderFrom depth l).map Loop.bare := by
  cases depth with
  | zero => rfl
  | succ depth =>
    rw [postOrderFrom, postOrderFrom, List.map_append, List.map_append]
    rfl

/-- Visits agree on lists of loops that agree, if they agree on every loop. -/
theorem map_bare_flatMap {depth : Nat} {ls ls' : List Loop}
    (hpost : ∀ s, (f'.postOrderFrom depth s).map Loop.bare = (f.postOrderFrom depth s).map Loop.bare)
    (hls : ls'.map Loop.bare = ls.map Loop.bare) :
    (ls'.flatMap (f'.postOrderFrom depth)).map Loop.bare =
      (ls.flatMap (f.postOrderFrom depth)).map Loop.bare := by
  have visits : ∀ ls : List Loop, (ls.flatMap (f.postOrderFrom depth)).map Loop.bare =
      (ls.map Loop.bare).flatMap fun s => (f.postOrderFrom depth s).map Loop.bare := by
    intro ls
    rw [List.map_flatMap, List.flatMap_map]
    simp only [map_bare_postOrderFrom_bare]
  rw [visits, ← hls, ← visits, List.map_flatMap, List.map_flatMap]
  simp only [hpost]

variable (h : f'.loops.map Loop.bare = f.loops.map Loop.bare)
include h

theorem map_bare_get? (j : Nat) : (f'.get? j).map Loop.bare = (f.get? j).map Loop.bare := by
  have hj := congrArg (·[j]?) h
  rwa [List.getElem?_map, List.getElem?_map] at hj

theorem map_bare_postOrderFrom (depth : Nat) (l : Loop) :
    (f'.postOrderFrom depth l).map Loop.bare = (f.postOrderFrom depth l).map Loop.bare := by
  induction depth generalizing l with
  | zero => rfl
  | succ depth ih =>
    have subloops : (l.subloops.filterMap f'.get?).map Loop.bare =
        (l.subloops.filterMap f.get?).map Loop.bare := by
      simp only [List.map_filterMap, map_bare_get? h]
    rw [postOrderFrom, postOrderFrom, List.map_append, List.map_append,
      map_bare_flatMap ih subloops]

/-- Forests with the same loops but for their members are visited in the same order. -/
theorem visitOrder_congr : f'.visitOrder = f.visitOrder := by
  have header : ∀ ls : List Loop, ls.map (·.header.id) = (ls.map Loop.bare).map (·.header.id) := by
    intro ls
    rw [List.map_map]
    rfl
  have top : f'.topLevel.map Loop.bare = f.topLevel.map Loop.bare := by
    have hf := congrArg (List.filter (·.outer.isNone)) h
    rwa [List.filter_map, List.filter_map] at hf
  have length : f'.loops.length = f.loops.length := by simpa using congrArg List.length h
  rw [visitOrder, visitOrder, header, postOrder, length,
    map_bare_flatMap (map_bare_postOrderFrom h _) top, ← header, postOrder]

end LoopForest

namespace Flow

/-! ## The forest from its headers and parents -/

/-- The loops without their members. -/
def skeleton (headers : List Vertex) (outers : List (Option Nat)) : List Loop :=
  headers.zipIdx.map fun (h, i) =>
    { id := i
      header := h
      blocks := []
      outer := outers[i]?.join
      subloops := (List.range headers.length).filter fun j => outers[j]?.join = some i
      level := levelOf outers i }

theorem map_bare_loops (g : Flow) (d : DomTree) : (g.loopForest d).loops.map Loop.bare =
    skeleton ((g.loopBodies d).map (·.header)) (outers (g.loopBodies d)) := by
  simp only [loopForest, skeleton, List.map_map, List.zipIdx_map, List.length_map]
  rfl

/-! ## Further blocks -/

/-- `g'` is laid out like `g` with further blocks in between. They head no loops, and what the old
blocks are to each other has not changed. -/
structure Subdivides (r : Vertex) (g g' : Flow) : Prop where
  layout : g'.layout.filter (· ∈ g.layout) = g.layout
  isHeader : ∀ h, IsHeader g'.Edge r h ↔ IsHeader g.Edge r h
  inLoop : ∀ h, IsHeader g.Edge r h → ∀ b ∈ g.layout,
    (InLoop g'.Edge r h b ↔ InLoop g.Edge r h b)
  dominates : ∀ a ∈ g.layout, ∀ b ∈ g.layout,
    (Dominates g'.Edge r a b ↔ Dominates g.Edge r a b)

namespace Subdivides

variable {g g' g'' : Flow} {r a b : Vertex}

theorem refl : Subdivides r g g where
  layout := List.filter_eq_self.2 fun _ hv => decide_eq_true hv
  isHeader _ := Iff.rfl
  inLoop _ _ _ _ := Iff.rfl
  dominates _ _ _ _ := Iff.rfl

theorem mem_layout (D : Subdivides r g g') (ha : a ∈ g.layout) : a ∈ g'.layout := by
  rw [← D.layout] at ha
  exact List.mem_of_mem_filter ha

theorem trans (D : Subdivides r g g') (D' : Subdivides r g' g'') : Subdivides r g g'' where
  layout := by
    have h := congrArg (List.filter (· ∈ g.layout)) D'.layout
    rw [List.filter_filter, D.layout] at h
    refine (List.filter_congr fun v _ => ?_).trans h
    by_cases hv : v ∈ g.layout
    · simp [hv, D.mem_layout hv]
    · simp [hv]
  isHeader h := (D'.isHeader h).trans (D.isHeader h)
  inLoop h hh b hb :=
    (D'.inLoop h ((D.isHeader h).2 hh) b (D.mem_layout hb)).trans (D.inLoop h hh b hb)
  dominates a ha b hb :=
    (D'.dominates a (D.mem_layout ha) b (D.mem_layout hb)).trans (D.dominates a ha b hb)

variable (D : Subdivides r g g') (hg : g.Sound r) (hg' : g'.Sound r)
include D hg hg'

theorem dominates_eq (ha : a ∈ g.layout) (hb : b ∈ g.layout) :
    g'.domTree.dominates a.id b.id = g.domTree.dominates a.id b.id := by
  rw [Bool.eq_iff_iff, hg.dominates_iff ha hb,
    hg'.dominates_iff (D.mem_layout ha) (D.mem_layout hb)]
  exact D.dominates a ha b hb

theorem headers_eq : (g'.loopBodies g'.domTree).map (·.header) =
    (g.loopBodies g.domTree).map (·.header) := by
  rw [headers_loopBodies, headers_loopBodies]
  conv_rhs => rw [← D.layout, List.filter_filter]
  refine List.filter_congr fun v hv => ?_
  by_cases hold : v ∈ g.layout
  · have h := hg.isHeader_iff hold
    have h' := hg'.isHeader_iff hv
    rw [D.isHeader, ← h] at h'
    simp only [hold, h', decide_true, Bool.and_true]
  · have hh : ¬ IsHeader g'.Edge r v := fun hh =>
      hold (hg.layout_of_isHeader ((D.isHeader v).1 hh))
    simp [hold, hg'.isHeader_iff hv, hh]

omit hg' in
theorem innermost_iff {hs : List Vertex} (hhs : ∀ h ∈ hs, IsHeader g.Edge r h)
    {except : Option Nat} {k : Nat} {x : Vertex} (hx : x ∈ g.layout) :
    Innermost g'.Edge r hs except x k ↔ Innermost g.Edge r hs except x k := by
  have inLoop : ∀ {j : Nat} {h : Vertex}, hs[j]? = some h → ∀ b ∈ g.layout,
      (InLoop g'.Edge r h b ↔ InLoop g.Edge r h b) := fun hj =>
    D.inLoop _ (hhs _ (List.mem_of_getElem? hj))
  unfold Innermost
  refine and_congr_right fun _ => exists_congr fun h => and_congr_right fun hk => ?_
  have hh := hg.layout_of_isHeader (hhs h (List.mem_of_getElem? hk))
  rw [inLoop hk x hx]
  refine and_congr_right fun _ => forall_congr' fun j => forall_congr' fun h' => ?_
  refine forall_congr' fun hj => imp_congr_right fun _ => ?_
  rw [inLoop hj x hx, inLoop hj h hh]

theorem outers_eq : outers (g'.loopBodies g'.domTree) = outers (g.loopBodies g.domTree) := by
  have hheaders := D.headers_eq hg hg'
  have hhs : ∀ h ∈ (g.loopBodies g.domTree).map (·.header), IsHeader g.Edge r h := by
    intro h hh
    obtain ⟨b, hb, rfl⟩ := List.mem_map.1 hh
    exact (hg.natural_of_mem hb).header
  have parents : ∀ f : Flow, outers (f.loopBodies f.domTree) =
      ((f.loopBodies f.domTree).map (·.header)).zipIdx.map fun h =>
        smallestBody? (f.loopBodies f.domTree) h.1.id (some h.2) := by
    intro f
    simp only [outers, List.zipIdx_map, List.map_map]
    rfl
  rw [parents, parents, hheaders]
  refine List.map_congr_left ?_
  rintro ⟨h, i⟩ hmem
  refine Option.ext fun k => ?_
  have hh := hhs h (List.fst_mem_of_mem_zipIdx hmem)
  have hl := hg.layout_of_isHeader hh
  rw [hg.smallestBody?_eq_some_iff hl, hg'.smallestBody?_eq_some_iff (D.mem_layout hl), hheaders,
    D.innermost_iff hg hhs hl]

/-- Number by number, the loops have the headers, parents, subloops and levels that they had. -/
theorem map_bare_eq : g'.forest.loops.map Loop.bare = g.forest.loops.map Loop.bare := by
  rw [Flow.forest, Flow.forest, map_bare_loops, map_bare_loops, D.headers_eq hg hg',
    D.outers_eq hg hg']

theorem visitOrder_eq : g'.forest.visitOrder = g.forest.visitOrder :=
  LoopForest.visitOrder_congr (D.map_bare_eq hg hg')

theorem header_eq {k : Nat} {m m' : Loop} (hm : g.forest.loops[k]? = some m)
    (hm' : g'.forest.loops[k]? = some m') : m'.header = m.header := by
  have h := congrArg (·[k]?) (D.map_bare_eq hg hg')
  simp only [List.getElem?_map, hm, hm', Option.map_some, Option.some.injEq] at h
  exact congrArg (·.header) h

/-- Among the old blocks, every loop has the members that it had. -/
theorem map_blocks_eq : g'.forest.loops.map (·.blocks.filter (· ∈ g.layout)) =
    g.forest.loops.map (·.blocks) := by
  refine List.ext_getElem? fun k => ?_
  have hk := LoopForest.map_bare_get? (D.map_bare_eq hg hg') k
  rw [List.getElem?_map, List.getElem?_map]
  cases hm : g.forest.loops[k]? with
  | none =>
    have hm' : g'.forest.loops[k]? = none := by simpa [LoopForest.get?, hm] using hk
    rw [hm']
    rfl
  | some m =>
    obtain ⟨m', hm'⟩ : ∃ m', g'.forest.loops[k]? = some m' := by
      simp only [LoopForest.get?, hm, Option.map_some, Option.map_eq_some_iff] at hk
      exact hk.imp fun _ h => h.1
    obtain ⟨c, hc, _, hmc, hblocks, _⟩ := loopForest_get hm
    obtain ⟨c', hc', _, hmc', hblocks', _⟩ := loopForest_get hm'
    have hn := hg.natural_of_mem (List.mem_of_getElem? hc)
    have hn' := hg'.natural_of_mem (List.mem_of_getElem? hc')
    have hheader : c'.header = c.header := by rw [← hmc, ← hmc', D.header_eq hg hg' hm hm']
    rw [hm', Option.map_some, Option.map_some, hblocks, hblocks', List.filter_filter]
    conv_rhs => rw [← D.layout, List.filter_filter]
    refine congrArg some (List.filter_congr fun v hv => ?_)
    by_cases hold : v ∈ g.layout
    · have hiff := D.inLoop c.header hn.header v hold
      rw [← hheader, ← hn'.mem v hv, hheader, ← hn.mem v hold] at hiff
      simp [hold, hiff]
    · simp [hold]

end Subdivides

end Flow

end LoopClock
