import LoopClock.Proofs.Program.Moves
import LoopClock.Proofs.Program.Proper

/-! Splitting edges of a proper program keeps the program proper. -/
namespace LoopClock.Program
open Graph

variable {p q : Program} {u v w e n : Vertex} {preds : List Vertex} {i : Nat}

/-- The edges from `preds` into `e` can be moved to `n`, the next new block of the function. -/
structure Cut (p : Program) (e n : Vertex) (preds : List Vertex) : Prop
    extends Moves p e n preds where
  proper : p.Proper
  not_self : e ∉ preds

namespace Cut

variable (C : Cut p e n preds)
include C

theorem total_nonneg : 0 ≤ p.total n.func := by
  rw [C.func_eq]
  have h := C.proper.bound _ _ C.mem_ids
  omega

section
variable (S : Split p e n preds q)
include S

/-- As long as numbers of blocks can be read, the labels lead to their blocks. -/
theorem id?_label_new (hlt : q.total n.func < 0x80000000) : n.label.id? = some n.id := by
  have hid := C.id_eq
  have hpos := C.total_nonneg
  rw [C.total_eq S, if_pos rfl] at hlt
  exact Label.id?_ofId (by omega) hlt

theorem id?_label_target (hlt : q.total n.func < 0x80000000) : e.label.id? = some e.id := by
  have hb := C.proper.bound e.func e.id C.mem_ids
  have hle := C.total_le S n.func
  rw [C.func_eq] at hlt hle
  exact Label.id?_ofId hb.1 (by omega)

theorem proper_split : q.Proper := by
  have regular := fun i => C.regular_split S (C.proper.regular i)
  refine ⟨fun i => (regular i).nodup, fun i hlt => ?_, fun i j hj => ?_, fun v w h => ?_,
    fun v w => (regular w.func).mem_ids v w rfl, fun v w => (regular w.func).mem_prev v w rfl,
    fun v => (regular v.func).nodup_succ v rfl, fun v => (regular v.func).nodup_prev v rfl⟩
  · exact S.head?_ids (C.proper.entry i (S.length_eq ▸ hlt))
  · refine ⟨?_, (regular i).bound j hj⟩
    have hpos := C.total_nonneg
    have hid := C.id_eq
    rcases S.mem_ids_iff.1 hj with hj | ⟨rfl, rfl⟩
    · exact (C.proper.bound i j hj).1
    · omega
  · exact ((regular v.func).func_iff v w h).1 rfl

end

end Cut

end LoopClock.Program
