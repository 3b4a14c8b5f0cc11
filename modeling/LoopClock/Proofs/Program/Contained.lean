import LoopClock.Proofs.Flow.Dominators
import LoopClock.Proofs.Program.View

/-! The flow graph of one function of a program. Ids tell its blocks apart and its edges stay among its
blocks: this is all that the search for dominators needs. The search for loops goes backwards too, and
needs the edges to be known at both ends. -/
namespace LoopClock
open Graph

namespace Program

abbrev Edge (p : Program) : Vertex → Vertex → Prop := Leads p.succ

theorem first?_func {p : Program} {r : Vertex} {i : Nat} (h : p.first? i = some r) : r.func = i := by
  obtain ⟨_, _, rfl⟩ := Option.map_eq_some_iff.1 h
  rfl

theorem mem_layout {p : Program} {v : Vertex} {i : Nat} :
    v ∈ (p.flow i).layout ↔ v.func = i ∧ v.id ∈ p.ids i := by
  cases v
  simp only [flow, List.mem_map, Vertex.mk.injEq]
  constructor
  · rintro ⟨j, hj, rfl, rfl⟩
    exact ⟨rfl, hj⟩
  · rintro ⟨rfl, hj⟩
    exact ⟨_, hj, rfl, rfl⟩

theorem ids_flow (p : Program) (i : Nat) : (p.flow i).ids = p.ids i := by
  simp [Flow.ids, flow, Function.comp_def]

/-- The layout of a function starts with its entry. -/
theorem head?_layout {p : Program} {i : Nat} : (p.flow i).layout.head? = p.first? i := by
  rw [flow, List.head?_map, ids, first?]
  cases p.funcs[i]? with
  | none => rfl
  | some f => simp [Func.ids, Func.first?]

/-- No two blocks of function `i` have one id, and the edges from its blocks lead to its blocks. -/
structure Contained (p : Program) (i : Nat) : Prop where
  nodup : (p.ids i).Nodup
  edge_target : ∀ v w, v.func = i → p.Edge v w → w.func = i ∧ w.id ∈ p.ids i

/-- Besides, each edge to one of its blocks comes from one of its blocks, and is known at both ends. -/
structure Symmetric (p : Program) (i : Nat) : Prop extends Contained p i where
  mem_prev : ∀ v, ∀ w ∈ (p.flow i).layout, v ∈ p.prev w ↔ p.Edge v w
  prev_func : ∀ v, ∀ w ∈ (p.flow i).layout, v ∈ p.prev w → v.func = i

variable {p : Program} {v w r : Vertex} {i : Nat}

namespace Contained

variable (G : p.Contained i)
include G

theorem reaches_func (hv : v.func = i) (h : Reaches p.Edge v w) : w.func = i := by
  induction h with
  | refl => exact hv
  | tail _ he ih => exact (G.edge_target _ _ ih he).1

theorem isClosed : p.isClosed i = true := by
  rw [Program.isClosed]
  cases hf : p.funcs[i]? with
  | none => rfl
  | some f =>
    simp only [Option.all_some, List.all_eq_true, beq_iff_eq]
    intro b hb w hw
    have hbw : p.Edge ⟨i, b.id⟩ w := by
      simpa [Leads, succ, block?_of_mem G.nodup hf hb] using hw
    exact (G.edge_target _ _ rfl hbw).1

theorem rooted (hr : p.first? i = some r) : (p.flow i).Rooted r where
  nodup := ids_flow p i ▸ G.nodup
  space := by
    rw [ids_flow]
    simp [flow, idsBeyond, G.isClosed]
  entry := head?_layout.trans hr
  closed v hv w hw := mem_layout.2 (G.edge_target v w (mem_layout.1 hv).1 hw)

end Contained

theorem Symmetric.sound (G : p.Symmetric i) (hr : p.first? i = some r) : (p.flow i).Sound r where
  toRooted := G.rooted hr
  prev_mem := G.mem_prev
  prev_closed w hw v hv := by
    have hf := G.prev_func v w hw hv
    have he : p.Edge v w := (G.mem_prev v w hw).1 hv
    exact mem_layout.2 ⟨hf, hf ▸ mem_ids_of_mem_succ he⟩

end Program
end LoopClock
