import LoopClock.Flow.Dominators
import LoopClock.Proofs.Flow.Search
import Mathlib.Data.List.Nodup

/-! The dominator tree holds exactly the dominance facts of the flow graph, for a flow whose edges
stay among its own blocks. -/
namespace LoopClock
open Graph Relation

def Flow.Edge (g : Flow) : Vertex → Vertex → Prop := Leads g.succ

/-- A flow that is closed under its edges, with `r` as its entry. Ids tell its blocks apart. -/
structure Flow.Rooted (g : Flow) (r : Vertex) : Prop where
  nodup : g.ids.Nodup
  space : g.space = g.ids
  entry : g.layout.head? = some r
  closed : ∀ v ∈ g.layout, ∀ w ∈ g.succ v, w ∈ g.layout

/-- Besides, the edges are known at both ends. -/
structure Flow.Sound (g : Flow) (r : Vertex) : Prop extends Flow.Rooted g r where
  prev_mem : ∀ v, ∀ w ∈ g.layout, v ∈ g.prev w ↔ w ∈ g.succ v
  prev_closed : ∀ w ∈ g.layout, ∀ v ∈ g.prev w, v ∈ g.layout

theorem Flow.mem_ids {g : Flow} {v : Vertex} (hv : v ∈ g.layout) : v.id ∈ g.ids :=
  List.mem_map_of_mem hv

theorem lookup_map_self {α β : Type} [BEq α] [LawfulBEq α] [DecidableEq α] (as : List α)
    (f : α → β) (a : α) :
    (as.map fun b => (b, f b)).lookup a = if a ∈ as then some (f a) else none := by
  induction as with
  | nil => rfl
  | cons b as ih =>
    by_cases h : a = b
    · subst h
      simp
    · have hb : (a == b) = false := by simpa using h
      simp [List.lookup_cons, hb, ih, h]

namespace Flow.Rooted

variable {g : Flow} {r v w x : Vertex} (hg : g.Rooted r)
include hg

theorem inj (hv : v ∈ g.layout) (hw : w ∈ g.layout) (h : v.id = w.id) : v = w :=
  List.inj_on_of_nodup_map hg.nodup hv hw h

theorem marked : Marked Vertex.id g.succ (· ∈ g.layout) :=
  ⟨hg.closed, fun _ _ hv hw h => hg.inj hv hw h⟩

theorem entry_mem : r ∈ g.layout := List.mem_of_head? hg.entry

theorem take_one : g.layout.take 1 = [r] := by
  have h := hg.entry
  cases hl : g.layout with
  | nil => simp [hl] at h
  | cons v vs =>
    rw [hl] at h
    simpa using h

theorem layout_of_reaches (hv : v ∈ g.layout) (h : Reaches g.Edge v w) : w ∈ g.layout := by
  induction h with
  | refl => exact hv
  | tail _ he ih => exact hg.closed _ ih _ he

theorem mem_reachableWithout_none (hv : v ∈ g.layout) :
    v.id ∈ g.reachableWithout none ↔ Reaches g.Edge r v := by
  have hspace : g.space.filter (some · ≠ (none : Option Int)) = g.space := by simp
  rw [reachableWithout, hspace, hg.take_one, hg.space]
  rw [mem_reached hg.marked joins_queue (by simp [hg.entry_mem]) hg.nodup hv]
  constructor
  · rintro ⟨w, hw, hp⟩
    obtain rfl := List.mem_singleton.1 hw
    exact hp.reaches
  · intro h
    refine ⟨r, List.mem_singleton_self r, ?_⟩
    have hp := within_true.2 h
    exact hp.upgrade_left fun w hw => Flow.mem_ids (hg.layout_of_reaches hg.entry_mem hw.reaches)

theorem mem_reachableWithout_some (hx : x ∈ g.layout) (hv : v ∈ g.layout) :
    v.id ∈ g.reachableWithout (some x.id) ↔ Avoids g.Edge x r v := by
  rw [reachableWithout, hg.take_one, hg.space]
  rw [mem_reached hg.marked joins_queue (by simp [hg.entry_mem]) (hg.nodup.filter _) hv]
  constructor
  · rintro ⟨w, hw, hp⟩
    obtain rfl := List.mem_singleton.1 hw
    refine hp.mono fun u hu hux => ?_
    simp [hux] at hu
  · intro h
    refine ⟨r, List.mem_singleton_self r, h.upgrade_left fun w hw => ?_⟩
    have hwl := hg.layout_of_reaches hg.entry_mem hw.reaches
    have hwx : w.id ≠ x.id := fun hid => hw.right (hg.inj hwl hx hid)
    simp [Flow.mem_ids hwl, hwx]

theorem domTree_eq : g.domTree = ⟨(g.reachableWithout none).map fun b =>
    (b, (g.reachableWithout none).filter (· ∉ g.reachableWithout (some b)))⟩ := by
  have h : (g.reachableWithout none).filter (· ∈ g.ids) = g.reachableWithout none := by
    rw [List.filter_eq_self]
    intro b hb
    have hb := mem_of_mem_reached hb
    simpa [hg.space] using hb
  simp only [domTree, h]

theorem reachable_domTree : g.domTree.reachable = g.reachableWithout none := by
  simp [hg.domTree_eq, DomTree.reachable, Function.comp_def]

theorem mem_reachable (hv : v ∈ g.layout) :
    v.id ∈ g.domTree.reachable ↔ Reaches g.Edge r v := by
  rw [hg.reachable_domTree, hg.mem_reachableWithout_none hv]

theorem nodup_reachable : g.domTree.reachable.Nodup := by
  rw [hg.reachable_domTree]
  exact nodup_reached ((hg.space ▸ hg.nodup).filter _)

theorem isReachable_iff (hv : v ∈ g.layout) :
    g.domTree.isReachable v.id = true ↔ Reaches g.Edge r v := by
  simp [DomTree.isReachable, hg.mem_reachable hv]

theorem dominates_iff (hx : x ∈ g.layout) (hv : v ∈ g.layout) :
    g.domTree.dominates x.id v.id = true ↔ Dominates g.Edge r x v := by
  have hall := hg.mem_reachableWithout_none hv
  have hothers := hg.mem_reachableWithout_some hx hv
  rw [DomTree.dominates, DomTree.dominatedBy?, hg.domTree_eq, lookup_map_self]
  by_cases hr : x.id ∈ g.reachableWithout none
  · simp [hr, hall, hothers, Graph.Dominates]
  · simp only [hr, if_false, Option.any_none, Bool.false_eq_true, false_iff]
    intro hd
    exact hr ((hg.mem_reachableWithout_none hx).2 hd.root_reaches)

end Flow.Rooted

end LoopClock
