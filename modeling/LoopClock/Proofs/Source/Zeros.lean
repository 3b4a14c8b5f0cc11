import LoopClock.Proofs.Program.Globals
import LoopClock.Proofs.Source.Programs

/-! Globals that are printed in the same way. How the zeros of an array are kept cannot be seen in its
text, nor can zeros that a single word was padded with. -/
namespace LoopClock.Global

variable {g h k : Global} {n : Nat}

/-- Two globals with the same text, whose zeros may be kept in different ways. -/
structure Alike (g h : Global) : Prop where
  name : h.name = g.name
  bits : h.bits = g.bits
  isArray : h.isArray = g.isArray
  scalar : g.isArray = false → h.scalarWord = g.scalarWord
  zeroed : g.isArray = true → h.isZeroed = g.isZeroed
  words : g.isArray = true → h.words = g.words

namespace Alike

theorem refl (g : Global) : Alike g g := ⟨rfl, rfl, rfl, fun _ => rfl, fun _ => rfl, fun _ => rfl⟩

theorem len (A : Alike g h) (ha : g.isArray = true) : h.len = g.len := by
  rw [← length_words, A.words ha, length_words]

theorem text (A : Alike g h) : h.text = g.text := by
  unfold Global.text
  rw [A.name, A.bits, A.isArray]
  cases ha : g.isArray with
  | false =>
    rw [A.scalar ha]
    rfl
  | true =>
    rw [A.len ha, A.zeroed ha, A.words ha]
    rfl

end Alike

/-! ## Growing -/

theorem words_pad (n : Nat) (items : List Item) :
    (pad n items).flatMap Item.words = items.flatMap Item.words ++ List.replicate n 0 := by
  induction items using pad.induct with
  | case1 => simp [pad, Item.words]
  | case2 m => simp [pad, Item.words, List.replicate_append_replicate]
  | case3 i is h ih =>
    rw [pad, List.flatMap_cons, List.flatMap_cons, ih, List.append_assoc]
    exact h

theorem all_pad (n : Nat) (items : List Item) :
    (pad n items).all Item.isZeros = items.all Item.isZeros := by
  induction items using pad.induct with
  | case1 => rfl
  | case2 m => rfl
  | case3 i is h ih =>
    rw [pad, List.all_cons, List.all_cons, ih]
    exact h

theorem isArray_growTo (g : Global) (n : Nat) : (g.growTo n).2.isArray = g.isArray := by
  rw [growTo]
  split <;> rfl

theorem bits_growTo (g : Global) (n : Nat) : (g.growTo n).2.bits = g.bits := by
  rw [growTo]
  split <;> rfl

theorem isSpelled_growTo (g : Global) (n : Nat) : (g.growTo n).2.IsSpelled ↔ g.IsSpelled := by
  constructor
  · exact fun h => ⟨g.name_growTo n ▸ h.named, g.bits_growTo n ▸ h.bits⟩
  · exact fun h => ⟨(g.name_growTo n).symm ▸ h.named, (g.bits_growTo n).symm ▸ h.bits⟩

theorem words_growTo (g : Global) (n : Nat) :
    (g.growTo n).2.words = g.words ++ List.replicate (n - g.len) 0 := by
  rw [growTo]
  split
  · next h =>
    have hnone : n - g.len = 0 := by omega
    rw [hnone]
    exact (List.append_nil _).symm
  · exact words_pad _ _

theorem isZeroed_growTo (g : Global) (n : Nat) : (g.growTo n).2.isZeroed = g.isZeroed := by
  rw [growTo]
  split
  · rfl
  · exact all_pad _ _

theorem scalarWord_growTo (g : Global) (n : Nat) : (g.growTo n).2.scalarWord = g.scalarWord := by
  rw [growTo]
  split
  · rfl
  · obtain ⟨name, data, bits, isArray⟩ := g
    rcases data with _ | ⟨w | m, _ | ⟨i, is⟩⟩ <;> rfl

theorem Alike.growTo (A : Alike g h) (n : Nat) : Alike (g.growTo n).2 (h.growTo n).2 where
  name := by rw [name_growTo, name_growTo, A.name]
  bits := by rw [bits_growTo, bits_growTo, A.bits]
  isArray := by rw [isArray_growTo, isArray_growTo, A.isArray]
  scalar ha := by
    rw [isArray_growTo] at ha
    rw [scalarWord_growTo, scalarWord_growTo, A.scalar ha]
  zeroed ha := by
    rw [isArray_growTo] at ha
    rw [isZeroed_growTo, isZeroed_growTo, A.zeroed ha]
  words ha := by
    rw [isArray_growTo] at ha
    rw [words_growTo, words_growTo, A.words ha, A.len ha]

/-- Growing adds zeros, and lengths that are small enough to be read. -/
theorem isNarrow_growTo (g : Global) (hn : n < 0x8000000000000000) :
    (g.growTo n).2.IsNarrow ↔ g.IsNarrow := by
  have hlen : max g.len n < 0x8000000000000000 ↔ g.len < 0x8000000000000000 := by omega
  unfold IsNarrow numbers
  rw [isArray_growTo, isZeroed_growTo, scalarWord_growTo, words_growTo, len_growTo]
  cases g.isArray with
  | false => exact Iff.rfl
  | true =>
    cases g.isZeroed with
    | true => simpa using hlen
    | false => simp [hlen, or_imp, forall_and]

theorem isNarrow_zeroed (name : String) (len bits : Nat) :
    (zeroed name len bits).IsNarrow ↔ len < 0x8000000000000000 :=
  List.forall_mem_singleton

/-! ## Reading -/

theorem words_of_isZeroed (h : g.isZeroed = true) : g.words = List.replicate g.len 0 := by
  have hzeros : ∀ items : List Item, items.all Item.isZeros = true →
      items.flatMap Item.words = List.replicate (lenOf items) 0 := by
    intro items hall
    induction items with
    | nil => rfl
    | cons i is ih =>
      rw [List.all_cons, Bool.and_eq_true] at hall
      cases i with
      | word w => exact absurd hall.1 (by simp [Item.isZeros])
      | zeros m =>
        rw [List.flatMap_cons, ih hall.2, lenOf]
        exact List.replicate_append_replicate
  exact hzeros g.data h

theorem alike_reread (g : Global) : Alike g g.reread := by
  unfold reread
  cases ha : g.isArray with
  | false =>
    exact ⟨rfl, rfl, ha.symm, fun _ => rfl, fun h => by simp [ha] at h, fun h => by simp [ha] at h⟩
  | true =>
    cases hz : g.isZeroed with
    | true =>
      refine ⟨rfl, rfl, ha.symm, fun h => by simp [ha] at h, fun _ => hz.symm, fun _ => ?_⟩
      exact (List.append_nil _).trans (words_of_isZeroed hz).symm
    | false =>
      have hwords : (g.words.map Item.word).flatMap Item.words = g.words := by
        simp [List.flatMap_map, Item.words]
      refine ⟨rfl, rfl, ha.symm, fun h => by simp [ha] at h, fun _ => ?_, fun _ => hwords⟩
      obtain ⟨w, ws, hw⟩ := List.exists_cons_of_ne_nil (words_ne_nil hz)
      rw [hz]
      show (g.words.map Item.word).all Item.isZeros = false
      rw [hw]
      rfl

theorem len_reread_of_isArray (ha : g.isArray = true) : g.reread.len = g.len := (alike_reread g).len ha

theorem len_reread_of_scalar (ha : g.isArray = false) : g.reread.len = 1 := by
  rw [reread, ha]
  rfl

theorem reread_zeroed (name : String) (len bits : Nat) :
    (zeroed name len bits).reread = zeroed name len bits := rfl

/-- What growing adds to a scalar is lost on the way through its text, but for lengths up to that one
it does not matter. -/
theorem max_len_reread_growTo (g : Global) (n : Nat) :
    max (g.growTo n).2.reread.len n = max g.reread.len n := by
  cases ha : g.isArray with
  | false => rw [len_reread_of_scalar ha, len_reread_of_scalar ((isArray_growTo g n).trans ha)]
  | true =>
    rw [len_reread_of_isArray ha, len_reread_of_isArray ((isArray_growTo g n).trans ha), len_growTo]
    omega

end LoopClock.Global
