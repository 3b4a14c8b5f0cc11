import LoopClock.Proofs.Names
import LoopClock.Proofs.Program.Persists
import Mathlib.Algebra.Order.BigOperators.Group.List

/-! The rows in the text of a program: its lines that are not empty and end neither in a bracket nor in a
blank. A phi on one line is none of them, so they do not tell which entries of phis a split has moved. -/
namespace LoopClock

/-- Whether a line that ends in this character is a row. A line break stands for an empty line. -/
def endsRow (c : Char) : Bool := c != '\n' && c != ']' && c != ' '

/-- The number of rows in what follows a character. -/
def rowsAfter : Char → List Char → Nat
  | c, [] => (endsRow c).toNat
  | c, d :: ds => (if d = '\n' then (endsRow c).toNat else 0) + rowsAfter d ds

/-- The number of rows in a text. -/
def rowsIn (s : String) : Nat := rowsAfter '\n' s.toList

variable {as bs : List Char} {c d : Char} {s separator : String} {ts : List String}

/-! ## Characters -/

theorem rowsAfter_break (c : Char) (as bs : List Char) :
    rowsAfter c (as ++ '\n' :: bs) = rowsAfter c as + rowsAfter '\n' bs := by
  induction as generalizing c with
  | nil => simp [rowsAfter]
  | cons a as ih => simp only [List.cons_append, rowsAfter, ih, Nat.add_assoc]

/-- Only the last character of a line counts. -/
theorem rowsAfter_line (h : '\n' ∉ as) (c : Char) (bs : List Char) :
    rowsAfter c (as ++ bs) = rowsAfter (as.getLastD c) bs := by
  induction as generalizing c with
  | nil => rfl
  | cons a as ih =>
    rw [List.mem_cons, not_or] at h
    rw [List.cons_append, rowsAfter, if_neg (Ne.symm h.1), Nat.zero_add, ih h.2, List.getLastD_cons]

theorem rowsAfter_congr (h : endsRow c = endsRow d) (as : List Char) : rowsAfter c as = rowsAfter d as := by
  cases as <;> simp only [rowsAfter, h]

theorem rowsAfter_append (h : ∀ c, rowsAfter c as = rowsAfter c bs) (c : Char) (pre : List Char) :
    rowsAfter c (pre ++ as) = rowsAfter c (pre ++ bs) := by
  induction pre generalizing c with
  | nil => exact h c
  | cons a pre ih => simp only [List.cons_append, rowsAfter, ih]

@[simp] theorem rowsIn_empty : rowsIn "" = 0 := rfl

theorem rowsIn_break (s t : String) : rowsIn (s ++ "\n" ++ t) = rowsIn s + rowsIn t := by
  rw [rowsIn, String.toList_append, String.toList_append, List.append_assoc]
  exact rowsAfter_break _ _ _

theorem rowsIn_blank (s t : String) : rowsIn (s ++ "\n\n" ++ t) = rowsIn s + rowsIn t := by
  have hblank : s ++ "\n\n" ++ t = s ++ "\n" ++ "" ++ "\n" ++ t := by
    rw [String.append_empty, show "\n\n" = "\n" ++ "\n" from rfl, ← String.append_assoc]
  rw [hblank, rowsIn_break, rowsIn_break, rowsIn_empty, Nat.add_zero]

theorem rowsIn_joined (h : ∀ s t, rowsIn (s ++ separator ++ t) = rowsIn s + rowsIn t) (ts : List String) :
    rowsIn (joined separator ts) = (ts.map rowsIn).sum := by
  cases ts with
  | nil => rfl
  | cons t ts =>
    rw [joined, List.map_cons, List.sum_cons]
    induction ts generalizing t with
    | nil => rfl
    | cons t' ts ih => rw [List.foldl_cons, ih, h, List.map_cons, List.sum_cons, Nat.add_assoc]

/-- Lines in front of a text. -/
theorem rowsIn_join (ts : List String) (s : String) :
    rowsIn (String.join (ts.map (· ++ "\n")) ++ s) = (ts.map rowsIn).sum + rowsIn s := by
  induction ts with
  | nil => simp
  | cons t ts ih =>
    rw [List.map_cons, String.join_cons, String.append_assoc, rowsIn_break, ih, List.map_cons, List.sum_cons,
      Nat.add_assoc]

theorem getLast?_append (s : String) {t : String} (h : t.toList.getLast? = some d) :
    (s ++ t).toList.getLast? = some d := by
  rw [String.toList_append, List.getLast?_append, h, Option.some_or]

theorem not_mem_joined (h : c ∉ separator.toList) :
    c ∉ (joined separator ts).toList ↔ ∀ t ∈ ts, c ∉ t.toList := by
  cases ts with
  | nil => exact ⟨fun _ => List.forall_mem_nil _, fun _ => List.not_mem_nil⟩
  | cons t ts =>
    rw [joined, List.forall_mem_cons]
    induction ts generalizing t with
    | nil => simp
    | cons t' ts ih =>
      rw [List.foldl_cons, ih, List.forall_mem_cons, ← and_assoc]
      simp only [String.toList_append, List.mem_append, not_or, h, not_false_eq_true, and_true]

/-- Two ends of a line of which one is as good as the other. -/
theorem rowsIn_line (s : String) {t t' : String} (ht : '\n' ∉ t.toList) (ht' : '\n' ∉ t'.toList)
    (hc : t.toList.getLast? = some c) (hd : t'.toList.getLast? = some d) (h : endsRow c = endsRow d) :
    rowsIn (s ++ t) = rowsIn (s ++ t') := by
  have hline : ∀ {r : String} {e : Char}, '\n' ∉ r.toList → r.toList.getLast? = some e → ∀ b,
      rowsAfter b r.toList = rowsAfter e [] := fun {r e} hr he b => by
    rw [← List.append_nil r.toList, rowsAfter_line hr, List.getLastD_eq_getLast?, he, Option.getD_some]
  rw [rowsIn, rowsIn, String.toList_append, String.toList_append]
  refine rowsAfter_append (fun b => ?_) _ _
  rw [hline ht hc, hline ht' hd]
  exact rowsAfter_congr h []

/-- The phi is printed on one line. -/
def Phi.IsLine (φ : Phi) : Prop := '\n' ∉ φ.text.toList

/-- The phis of the program are printed on one line each. -/
def Program.Lined (p : Program) : Prop := ∀ f ∈ p.funcs, ∀ b ∈ f.blocks, ∀ φ ∈ b.phis, φ.IsLine

/-! ## Blocks, functions and programs -/

/-- The rows of a block, not counting its phis. -/
def Block.rows (b : Block) : Nat :=
  rowsIn (b.label ++ ":") + (b.body.map fun x => rowsIn ("  " ++ x.text)).sum
    + (b.jump.toList.map fun t => rowsIn ("  " ++ t.text)).sum

/-- The first line of a function. -/
def Func.opening (f : Func) : String :=
  "define " ++ f.ret.text ++ " @" ++ f.name ++ "("
    ++ joined ", " (f.params.map fun p => p.ty.text ++ " " ++ p.text) ++ ") \x7b"

def Func.rows (f : Func) : Nat := rowsIn f.opening + (f.blocks.map Block.rows).sum + rowsIn "\x7d"

/-- The rows of a program, not counting phis. -/
def Program.rows (p : Program) : Nat :=
  (p.decls.map fun d => rowsIn d.text).sum + (p.globals.map fun g => rowsIn g.text).sum
    + (p.funcs.map Func.rows).sum

def Block.phiRows (b : Block) : Nat := (b.phis.map fun φ => rowsIn ("  " ++ φ.text)).sum

def Func.phiRows (f : Func) : Nat := (f.blocks.map Block.phiRows).sum

theorem Block.rowsIn_text (b : Block) : rowsIn b.text = b.rows + b.phiRows := by
  have hlines := rowsIn_break (b.label ++ ":") (joined "\n"
    ((b.phis.map Phi.text ++ b.body.map Instr.text ++ b.jump.toList.map Terminator.text).map ("  " ++ ·)))
  have htext : b.text = b.label ++ ":" ++ "\n" ++ joined "\n"
      ((b.phis.map Phi.text ++ b.body.map Instr.text ++ b.jump.toList.map Terminator.text).map
        ("  " ++ ·)) := by
    rw [text, @String.append_assoc b.label ":"]
    rfl
  rw [htext, hlines, rowsIn_joined rowsIn_break]
  simp only [rows, phiRows, List.map_append, List.sum_append, List.map_map, Function.comp_def]
  omega

theorem Func.rowsIn_text (f : Func) : rowsIn f.text = f.rows + f.phiRows := by
  have happend : ∀ s t : String, s ++ ") \x7b\n" ++ t ++ "\n\x7d" =
      s ++ ") \x7b" ++ "\n" ++ t ++ "\n" ++ "\x7d" := by
    intro s t
    simp only [String.append_assoc]
    rfl
  have hbegin : f.text = f.opening ++ "\n" ++ joined "\n" (f.blocks.map Block.text) ++ "\n" ++ "\x7d" :=
    happend _ _
  have hsum : (f.blocks.map (rowsIn ∘ Block.text)).sum = (f.blocks.map Block.rows).sum + f.phiRows := by
    simp only [Function.comp_def, Block.rowsIn_text, List.sum_map_add, phiRows]
  rw [hbegin, rowsIn_break, rowsIn_break, rowsIn_joined rowsIn_break, List.map_map, hsum, rows]
  omega

namespace Program

theorem rowsIn_text (p : Program) : rowsIn p.text = p.rows + (p.funcs.map Func.phiRows).sum := by
  have hlines : ∀ s, rowsIn ((if (p.decls.map Decl.text ++ p.globals.map Global.text).isEmpty then ""
      else "\n") ++ s) = rowsIn s := by
    intro s
    split
    · rw [String.empty_append]
    · rw [← String.empty_append (s := "\n"), rowsIn_break, rowsIn_empty, Nat.zero_add]
  have hend : ∀ s, rowsIn (s ++ "\n") = rowsIn s := fun s => by
    rw [← String.append_empty (s := s ++ "\n"), rowsIn_break, rowsIn_empty, Nat.add_zero]
  have hfuncs : (p.funcs.map (rowsIn ∘ Func.text)).sum =
      (p.funcs.map Func.rows).sum + (p.funcs.map Func.phiRows).sum := by
    simp only [Function.comp_def, Func.rowsIn_text, List.sum_map_add]
  rw [text, String.append_assoc, String.append_assoc, rowsIn_join, hlines, hend, rowsIn_joined rowsIn_blank,
    List.map_append, List.sum_append, List.map_map, List.map_map, List.map_map, hfuncs, ← Nat.add_assoc]
  rfl

end Program

/-! ## Changes -/

section
variable {α : Type} {size : α → Nat} {change : α → α} {xs : List α} {x : α} {i : Nat}

end

variable {p : Program} {v : Vertex} {func : Nat} {f : Func} {b : Block} {change : Block → Block}
  {g : Func → Func}

namespace Func

end Func

namespace Program

end Program

/-! ## Splits -/

namespace Numeral

theorem not_mem_ofNat {c : Char} (hc : c.isDigit = false) (n : Nat) : c ∉ ofNat n := fun h => by
  have hdigit := List.all_eq_true.1 (all_isDigit_ofNat n) c h
  rw [hc] at hdigit
  cases hdigit

theorem not_mem_ofInt (i : Int) : '\n' ∉ ofInt i := by
  cases i with
  | ofNat n => exact not_mem_ofNat rfl n
  | negSucc n => simp [ofInt, not_mem_ofNat (c := '\n') rfl (n + 1)]

theorem not_mem_nat (n : Nat) : '\n' ∉ (nat n).toList := by
  rw [nat, String.toList_ofList]
  exact not_mem_ofNat rfl n

theorem not_mem_int (i : Int) : '\n' ∉ (int i).toList := by
  rw [int, String.toList_ofList]
  exact not_mem_ofInt i

theorem getLast?_ofNat (n : Nat) : (ofNat n).getLast? = some (digit n) := by
  rw [ofNat]
  split
  · rfl
  · exact List.getLast?_concat

theorem getLast?_ofInt (i : Int) : ∃ n, (ofInt i).getLast? = some (digit n) := by
  cases i with
  | ofNat n => exact ⟨n, getLast?_ofNat n⟩
  | negSucc n => exact ⟨n + 1, by rw [ofInt, List.getLast?_cons, getLast?_ofNat, Option.getD_some]⟩

end Numeral

theorem endsRow_of_isDigit (h : c.isDigit = true) : endsRow c = true := by
  have hne : ∀ d, d.isDigit = false → c ≠ d := fun d hd heq => by
    rw [heq, hd] at h
    cases h
  simp [endsRow, hne '\n' rfl, hne ']' rfl, hne ' ' rfl]

/-- The label of a block is on one line, and a row may end in it. -/
theorem Label.line_ofId (i : Int) : '\n' ∉ (ofId i).toList ∧ ∃ c, (ofId i).toList.getLast? = some c ∧
    endsRow c = true := by
  rw [ofId]
  split
  · exact ⟨by decide, 'y', rfl, rfl⟩
  · obtain ⟨n, hlast⟩ := Numeral.getLast?_ofInt i
    have hnumber : (Numeral.int i).toList.getLast? = some (Numeral.digit n) := by
      rw [Numeral.int, String.toList_ofList, hlast]
    refine ⟨?_, _, getLast?_append _ hnumber, endsRow_of_isDigit (Numeral.isDigit_digit n)⟩
    rw [String.toList_append, List.mem_append, not_or]
    exact ⟨by decide, Numeral.not_mem_int i⟩

end LoopClock
