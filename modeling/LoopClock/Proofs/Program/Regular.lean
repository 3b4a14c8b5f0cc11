import LoopClock.Proofs.Flow.LoopForest
import LoopClock.Proofs.Lists
import LoopClock.Proofs.Program.Contained

/-! Functions with a regular flow graph: ids tell their blocks apart, and the edges between them are
known at both ends. Nothing is said of the other functions of the program. The analyses of such a
function are sound, and the exits of its natural loops are found. -/
namespace LoopClock
open Graph

namespace Program

/-- No two blocks of function `i` have one id and none has one above the total. Edges join blocks of
the function only, each of them once, and are known at both ends. -/
structure Regular (p : Program) (i : Nat) : Prop where
  nodup : (p.ids i).Nodup
  bound : ∀ j ∈ p.ids i, j ≤ p.total i
  func_iff : ∀ v w, p.Edge v w → (v.func = i ↔ w.func = i)
  mem_ids : ∀ v w, w.func = i → p.Edge v w → w.id ∈ p.ids i
  mem_prev : ∀ v w, w.func = i → (v ∈ p.prev w ↔ p.Edge v w)
  nodup_succ : ∀ v, v.func = i → (p.succ v).Nodup
  nodup_prev : ∀ v, v.func = i → (p.prev v).Nodup

namespace Regular

variable {p : Program} {v w x r : Vertex} {i : Nat} (G : p.Regular i)
include G

theorem edge_source (hw : w.func = i) (h : p.Edge v w) : v.func = i ∧ v.id ∈ p.ids i := by
  have hv := (G.func_iff v w h).2 hw
  exact ⟨hv, hv ▸ mem_ids_of_mem_succ h⟩

theorem edge_target (hv : v.func = i) (h : p.Edge v w) : w.func = i ∧ w.id ∈ p.ids i := by
  have hw := (G.func_iff v w h).1 hv
  exact ⟨hw, G.mem_ids v w hw h⟩

theorem symmetric : p.Symmetric i where
  nodup := G.nodup
  edge_target _ _ := G.edge_target
  mem_prev v w hw := G.mem_prev v w (mem_layout.1 hw).1
  prev_func v w hw hv := by
    have hf := (mem_layout.1 hw).1
    exact (G.edge_source hf ((G.mem_prev v w hf).1 hv)).1

theorem reaches_func (hv : v.func = i) (h : Reaches p.Edge v w) : w.func = i :=
  G.symmetric.reaches_func hv h

theorem isClosed : p.isClosed i = true := G.symmetric.isClosed

theorem sound (hr : p.first? i = some r) : (p.flow i).Sound r := G.symmetric.sound hr

/-- Of blocks of one function, those with one id are the same. -/
theorem exitBlocks_eq_eraseDups {l : Loop} (hl : ∀ v ∈ l.blocks, v.func = i) :
    p.exitBlocks l = ((l.blocks.flatMap p.succ).filter (!l.holds ·.id)).eraseDups := by
  have hfunc : ∀ v ∈ (l.blocks.flatMap p.succ).filter (!l.holds ·.id), v.func = i := by
    intro v hv
    obtain ⟨u, hu, he⟩ := List.mem_flatMap.1 (List.mem_of_mem_filter hv)
    exact (G.edge_target (hl u hu) he).1
  refine eraseDupsBy_eq _ fun a ha b hb hab => ?_
  have hfa := hfunc a ha
  have hfb := hfunc b hb
  cases a
  cases b
  simp_all

/-! ## Natural loops -/

section
variable {l : Loop} (hr : r.func = i) (hl : l.Natural (p.flow i) r)
include hr hl

theorem loop_func (hv : v ∈ l.blocks) : v.func = i :=
  G.reaches_func hr (((hl.mem v).1 hv).reaches hl.header)

theorem holds_iff (hv : v.func = i) : l.holds v.id = true ↔ InLoop p.Edge r l.header v := by
  rw [Loop.holds, List.any_eq_true]
  constructor
  · rintro ⟨w, hw, hid⟩
    have hwf := G.loop_func hr hl hw
    have hwv : w = v := by
      cases w
      cases v
      simp_all
    exact hwv ▸ (hl.mem w).1 hw
  · intro hin
    exact ⟨v, (hl.mem v).2 hin, by simp⟩

theorem exit_func (hx : IsExit p.Edge r l.header x) : x.func = i := by
  obtain ⟨u, hu, he⟩ := hx.2
  exact (G.edge_target (G.loop_func hr hl ((hl.mem u).2 hu)) he).1

theorem exitBlocks_eq :
    p.exitBlocks l = ((l.blocks.flatMap p.succ).filter (!l.holds ·.id)).eraseDups :=
  G.exitBlocks_eq_eraseDups fun _ => G.loop_func hr hl

theorem mem_exitBlocks : x ∈ p.exitBlocks l ↔ IsExit p.Edge r l.header x := by
  rw [G.exitBlocks_eq hr hl, List.mem_eraseDups, List.mem_filter, List.mem_flatMap]
  constructor
  · rintro ⟨⟨u, hu, he⟩, hout⟩
    have hf := (G.edge_target (G.loop_func hr hl hu) he).1
    refine ⟨fun hin => ?_, u, (hl.mem u).1 hu, he⟩
    simp [(G.holds_iff hr hl hf).2 hin] at hout
  · intro hx
    have hf := G.exit_func hr hl hx
    obtain ⟨hout, u, hu, he⟩ := hx
    refine ⟨⟨u, (hl.mem u).2 hu, he⟩, ?_⟩
    have hn : l.holds x.id ≠ true := fun h => hout ((G.holds_iff hr hl hf).1 h)
    simpa using hn

theorem nodup_exitBlocks : (p.exitBlocks l).Nodup := by
  rw [G.exitBlocks_eq hr hl]
  exact nodup_eraseDups _

end

end Regular

end Program
end LoopClock
