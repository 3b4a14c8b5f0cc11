import LoopClock.Proofs.Program.Rows
import LoopClock.Proofs.Run.Code
import LoopClock.Proofs.Run.Quiet
import LoopClock.Proofs.Source.Zeros

/-! Calls that report a change. Such a call puts rows into the text of a program, whatever the program is,
unless it does no more than grow a storage that was too short for what the context asks of it. -/
namespace LoopClock
open Program

/-- What the context asks of the storage, if anything, is there. -/
def Housed (s : Progress) : Prop := ∀ u, s.2.instrumentation = some u → s.1.Houses u

/-- No block and no row is lost, and rows are added where a change is reported, as long as the storage was
long enough at the start. -/
structure Outgrows (changed : Bool) (s t : Progress) : Prop where
  ids : ∀ i, s.1.ids i ⊆ t.1.ids i
  rows : s.1.rows ≤ t.1.rows
  more : Housed s → s.1.rows < t.1.rows ∨ changed = false ∧ Housed t

variable {p q : Program} {c d : Context} {b : Block} {changed : Bool} {s t u : Progress} {func : Nat}
  {l : Loop}

namespace Outgrows

theorem refl (s : Progress) : Outgrows false s s :=
  ⟨fun _ => List.Subset.refl _, Nat.le_refl _, fun h => .inr ⟨rfl, h⟩⟩

theorem trans {a b : Bool} (h : Outgrows a s t) (k : Outgrows b t u) : Outgrows (a || b) s u := by
  refine ⟨fun i => List.Subset.trans (h.ids i) (k.ids i), Nat.le_trans h.rows k.rows, fun housed => ?_⟩
  rcases h.more housed with hlt | ⟨rfl, housed⟩
  · exact .inl (Nat.lt_of_lt_of_le hlt k.rows)
  · exact (k.more housed).imp_left fun hlt => Nat.lt_of_le_of_lt h.rows hlt

end Outgrows

/-! ## Globals and declarations -/

/-- The elements of a global stand on the line of its name. -/
theorem Global.rowsIn_text (g : Global) : rowsIn g.text =
    rowsIn ("@" ++ g.name ++ " = global " ++ if g.isArray && !g.isZeroed then "]" else "0") := by
  have hwidth : '\n' ∉ ("i" ++ Numeral.nat g.bits).toList := by
    simp [Numeral.not_mem_nat]
  have htype : '\n' ∉ ("[" ++ Numeral.nat g.len ++ " x " ++ ("i" ++ Numeral.nat g.bits) ++ "]").toList := by
    simp [Numeral.not_mem_nat]
  have hwords : '\n' ∉ (joined ", " (g.words.map fun w =>
      "i" ++ Numeral.nat g.bits ++ " " ++ Numeral.nat w.toNat)).toList := by
    refine (not_mem_joined (by decide)).2 fun t ht => ?_
    obtain ⟨w, -, rfl⟩ := List.mem_map.1 ht
    simp [Numeral.not_mem_nat]
  have hnat : (Numeral.nat g.scalarWord.toNat).toList.getLast? = some (Numeral.digit g.scalarWord.toNat) := by
    rw [Numeral.nat, String.toList_ofList, Numeral.getLast?_ofNat]
  rw [text]
  generalize "[" ++ Numeral.nat g.len ++ " x " ++ ("i" ++ Numeral.nat g.bits) ++ "]" = type at htype ⊢
  generalize "i" ++ Numeral.nat g.bits = width at hwidth hwords ⊢
  have zero : '\n' ∉ "0".toList ∧ "0".toList.getLast? = some '0' := by decide
  cases g.isArray with
  | false =>
    simp only [Bool.not_false, if_true, Bool.false_and, Bool.false_eq_true, if_false]
    rw [String.append_assoc, String.append_assoc]
    exact rowsIn_line _ (by simp [hwidth, Numeral.not_mem_nat]) zero.1
      (getLast?_append _ (getLast?_append _ hnat)) zero.2 (endsRow_of_isDigit (Numeral.isDigit_digit _))
  | true =>
    simp only [Bool.not_true, Bool.true_and, Bool.false_eq_true, if_false]
    cases g.isZeroed with
    | true =>
      simp only [Bool.not_true, if_true, Bool.false_eq_true, if_false]
      rw [String.append_assoc]
      exact rowsIn_line _ (by simp [htype]) zero.1 (getLast?_append _ rfl) zero.2 rfl
    | false =>
      simp only [Bool.not_false, if_true, Bool.false_eq_true, if_false]
      rw [String.append_assoc, String.append_assoc, String.append_assoc]
      exact rowsIn_line _ (by simp [htype, hwords]) (by decide)
        (getLast?_append _ (getLast?_append _ (getLast?_append _ rfl))) rfl rfl

namespace Program

end Program

/-! ## Timers and reports -/

namespace Timer

variable {v : Instrumentation} {slot : Nat} {header : Vertex} {exits : List Vertex} {stash clock : Temp}

end Timer

namespace Report

variable {v : Instrumentation} {slots : Nat} {entry : String}

end Report

/-! ## Passes -/

namespace Profiler

end Profiler

end LoopClock
