import LoopClock.Proofs.Program.Regular

/-! Programs with a proper flow graph: all their functions are regular and have their entry in front. The
flow of each of their functions is sound for the analyses, and the exits of a natural loop are
found. -/
namespace LoopClock
open Graph

namespace Program

/-- The entry of a function. -/
abbrev root (i : Nat) : Vertex := ⟨i, 0⟩

/-- Ids tell the blocks of a function apart, the entry comes first, and no edge leads out of a
function or is known at one of its ends only. -/
structure Proper (p : Program) : Prop where
  nodup : ∀ i, (p.ids i).Nodup
  entry : ∀ i, i < p.funcs.length → (p.ids i).head? = some 0
  bound : ∀ i, ∀ j ∈ p.ids i, 0 ≤ j ∧ j ≤ p.total i
  func_eq : ∀ v w, p.Edge v w → w.func = v.func
  mem_ids : ∀ v w, p.Edge v w → w.id ∈ p.ids w.func
  mem_prev : ∀ v w, v ∈ p.prev w ↔ p.Edge v w
  nodup_succ : ∀ v, (p.succ v).Nodup
  nodup_prev : ∀ v, (p.prev v).Nodup

namespace Proper

variable {p : Program} {v w x : Vertex} {i : Nat} (hp : p.Proper)
include hp

theorem regular (i : Nat) : p.Regular i where
  nodup := hp.nodup i
  bound j hj := (hp.bound i j hj).2
  func_iff v w he := by rw [hp.func_eq v w he]
  mem_ids v w hw he := hw ▸ hp.mem_ids v w he
  mem_prev v w _ := hp.mem_prev v w
  nodup_succ v _ := hp.nodup_succ v
  nodup_prev v _ := hp.nodup_prev v

theorem edge_source (h : p.Edge v w) : v.id ∈ p.ids w.func :=
  ((hp.regular w.func).edge_source rfl h).2

theorem reaches_func (h : Reaches p.Edge v w) : w.func = v.func :=
  (hp.regular v.func).reaches_func rfl h

theorem first?_eq (hi : i < p.funcs.length) : p.first? i = some (root i) := by
  have h := hp.entry i hi
  rw [ids, List.getElem?_eq_getElem hi, Option.map_some, Option.getD_some, Func.ids,
    List.head?_map] at h
  rw [first?, List.getElem?_eq_getElem hi, Option.bind_some, Func.first?, h]
  rfl

theorem sound (hi : i < p.funcs.length) : (p.flow i).Sound (root i) :=
  (hp.regular i).sound (hp.first?_eq hi)

end Proper

/-- The bodies of the blocks have no part in the flow graph, nor have phis and terminators. -/
theorem Proper.congr {p q : Program} (hp : p.Proper) (hb : ∀ i, q.bare? i = p.bare? i)
    (hi : ∀ i, q.ids i = p.ids i) (hs : q.succ = p.succ) (hv : q.prev = p.prev) : q.Proper where
  nodup i := hi i ▸ hp.nodup i
  entry i h := hi i ▸ hp.entry i (funcs_length_eq hb ▸ h)
  bound i j hj := total_eq (hb i) ▸ hp.bound i j (hi i ▸ hj)
  func_eq v w he := by
    rw [Edge, hs] at he
    exact hp.func_eq v w he
  mem_ids v w he := by
    rw [Edge, hs] at he
    exact hi w.func ▸ hp.mem_ids v w he
  mem_prev v w := by
    rw [hv, hp.mem_prev, Edge, Edge, hs]
  nodup_succ v := hs ▸ hp.nodup_succ v
  nodup_prev v := hv ▸ hp.nodup_prev v

/-! ## Natural loops of a function -/

/-- A loop with its header and members as the flow graph of function `i` has them. -/
abbrev HasLoop (p : Program) (i : Nat) (l : Loop) : Prop := l.Natural (p.flow i) (root i)

section
variable {p : Program} {i : Nat} {l : Loop} {v x : Vertex} (hp : p.Proper) (hl : p.HasLoop i l)
include hp hl

theorem HasLoop.func_eq (hv : v ∈ l.blocks) : v.func = i := (hp.regular i).loop_func rfl hl hv

theorem HasLoop.holds_iff (hv : v.func = i) :
    l.holds v.id = true ↔ InLoop p.Edge (root i) l.header v :=
  (hp.regular i).holds_iff rfl hl hv

theorem HasLoop.exit_func (hx : IsExit p.Edge (root i) l.header x) : x.func = i :=
  (hp.regular i).exit_func rfl hl hx

theorem HasLoop.mem_exitBlocks :
    x ∈ p.exitBlocks l ↔ IsExit p.Edge (root i) l.header x :=
  (hp.regular i).mem_exitBlocks rfl hl

theorem HasLoop.exit_mem_ids : ∀ x ∈ p.exitBlocks l, x.id ∈ p.ids x.func := fun x hx => by
  obtain ⟨u, _, he⟩ := ((HasLoop.mem_exitBlocks hp hl).1 hx).2
  exact hp.mem_ids u x he

theorem HasLoop.header_mem_ids : l.header.id ∈ p.ids l.header.func := by
  obtain ⟨u, he, _⟩ := hl.header
  exact hp.mem_ids u l.header he

theorem HasLoop.header_not_exit : l.header ∉ p.exitBlocks l := fun hx =>
  ((HasLoop.mem_exitBlocks hp hl).1 hx).1 inLoop_header

theorem HasLoop.nodup_exitBlocks : (p.exitBlocks l).Nodup :=
  (hp.regular i).nodup_exitBlocks rfl hl

end

end Program
end LoopClock
