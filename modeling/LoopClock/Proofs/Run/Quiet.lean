import LoopClock.Proofs.Run.Again
import LoopClock.Proofs.Run.Chains

/-! Calls that report no change. Whatever the program and the loop are, such a call leaves the program and the
slots as they were. -/
namespace LoopClock
open Program

/-- The storage, if the program has it, is as long as it has to be. -/
def Program.Houses (p : Program) (u : Instrumentation) : Prop :=
  ∀ g, p.global? u.storage.name = some g → u.len ≤ g.len

variable {p : Program} {c : Config} {u : Instrumentation} {d : Decl} {func slots : Nat} {l : Loop}
  {entry : String}

namespace Program

/-! ## The storage -/

/-- `q` is `p` with declarations and zeros added at the end, of which there are some if that is reported. -/
def Adds (changed : Bool) (p q : Program) : Prop := ∃ ds gs, changed = !(ds.isEmpty && gs.isEmpty) ∧
  (∀ g ∈ gs, g.isZeroed = true) ∧ q = { p with decls := p.decls ++ ds, globals := p.globals ++ gs }

namespace Adds

theorem refl : Adds false p p := ⟨[], [], rfl, nofun, by rw [List.append_nil, List.append_nil]⟩

theorem trans {a b : Bool} {q r : Program} (h : Adds a p q) (k : Adds b q r) : Adds (a || b) p r := by
  obtain ⟨ds, gs, rfl, hgs, rfl⟩ := h
  obtain ⟨ds', gs', rfl, hgs', rfl⟩ := k
  refine ⟨ds ++ ds', gs ++ gs', ?_, List.forall_mem_append.2 ⟨hgs, hgs'⟩,
    by rw [List.append_assoc, List.append_assoc]⟩
  cases ds <;> cases gs <;> simp

end Adds

end Program

/-! ## Reports -/

theorem Report.insert_of_quiet (h : (insert p u slots entry).val.1.isChanged = false) :
    (insert p u slots entry).val.2 = p := by
  rcases insert_cases p u slots entry with hval | ⟨i, f, hf, hval⟩
  · rw [hval]
  · rw [hval] at h ⊢
    rw [PassResult.isChanged_ofBool, Bool.not_eq_false', List.isEmpty_iff] at h
    have hsame : ∀ b ∈ f.blocks, insertInto u slots b = b := fun b hb => by
      rw [insertInto, if_neg (List.filter_eq_nil_iff.1 h b hb)]
    have hblocks : f.blocks.map (insertInto u slots) = f.blocks :=
      (List.map_congr_left hsame).trans (List.map_id' _)
    obtain ⟨hlt, rfl⟩ := List.getElem?_eq_some_iff.1 hf
    rw [List.modify_eq_set_get _ hlt, List.get_eq_getElem, hblocks, List.set_getElem_self]

/-! ## Passes -/

namespace Profiler

end Profiler

end LoopClock
