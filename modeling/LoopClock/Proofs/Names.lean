import LoopClock.IR.Program
import Mathlib.Tactic.IntervalCases

/-! Numerals, labels and numbered temporaries: what is written is read back, and different numbers
make different names. -/
namespace LoopClock

namespace Numeral

theorem toNat_digit (n : Nat) : (digit n).toNat = 48 + n % 10 := by
  have h : n % 10 < 10 := Nat.mod_lt _ (by decide)
  have hv : (48 + n % 10).isValidChar := by
    left
    omega
  rw [digit, Char.ofNat, dif_pos hv]
  rfl

theorem isDigit_digit (n : Nat) : (digit n).isDigit = true := by
  have h : n % 10 < 10 := Nat.mod_lt _ (by decide)
  have hd := toNat_digit n
  have h0 : '0'.toNat = 48 := rfl
  have h9 : '9'.toNat = 57 := rfl
  simp only [Char.isDigit, Bool.and_eq_true, decide_eq_true_eq, ge_iff_le]
  constructor
  · show '0'.toNat ≤ (digit n).toNat
    omega
  · show (digit n).toNat ≤ '9'.toNat
    omega

theorem digitValue_digit (n : Nat) : digitValue (digit n) = n % 10 := by
  rw [digitValue, toNat_digit]
  omega

theorem ofNat_ne_nil (n : Nat) : ofNat n ≠ [] := by
  rw [ofNat]
  split <;> simp

theorem all_isDigit_ofNat (n : Nat) : (ofNat n).all Char.isDigit = true := by
  fun_induction ofNat n with
  | case1 n => simp [isDigit_digit]
  | case2 n _ ih => simp [ih, isDigit_digit]

theorem value_ofNat (n : Nat) : value (ofNat n) = n := by
  fun_induction ofNat n with
  | case1 n h =>
    simp only [value, List.foldl_cons, List.foldl_nil, digitValue_digit]
    omega
  | case2 n _ ih =>
    rw [value] at ih
    simp only [value, List.foldl_append, List.foldl_cons, List.foldl_nil, digitValue_digit, ih]
    omega

theorem toNat?_ofNat (n : Nat) : toNat? (ofNat n) = some n := by
  simp only [toNat?, ofNat_ne_nil, all_isDigit_ofNat, value_ofNat, ne_eq, not_false_eq_true,
    and_self, if_true]

/-- A numeral starts with a digit, not with a sign. -/
theorem isDigit_of_ofNat_eq {n : Nat} {c : Char} {cs : List Char} (h : ofNat n = c :: cs) :
    c.isDigit = true := by
  have hall := all_isDigit_ofNat n
  rw [h, List.all_cons, Bool.and_eq_true] at hall
  exact hall.1

theorem unsigned?_ofNat (n : Nat) : unsigned? (ofNat n) = some n := by
  unfold unsigned?
  split
  · next cs h => exact absurd (isDigit_of_ofNat_eq h) (by decide)
  · exact toNat?_ofNat n

theorem signed?_ofNat (n : Nat) : signed? (ofNat n) = some (n : Int) := by
  unfold signed?
  split
  · next cs h => exact absurd (isDigit_of_ofNat_eq h) (by decide)
  · next cs h => exact absurd (isDigit_of_ofNat_eq h) (by decide)
  · rw [toNat?_ofNat]
    rfl

theorem word32?_ofNat {n : Nat} (h : n < 0x100000000) : word32? (ofNat n) = some n := by
  simp [word32?, unsigned?_ofNat, h]

/-- A number that does not fit is not read. -/
theorem word32?_ofNat_le (n : Nat) : (word32? (ofNat n)).getD 0 ≤ n := by
  rw [word32?, unsigned?_ofNat, Option.filter_some]
  split
  · exact Nat.le_refl n
  · exact Nat.zero_le n

theorem int32?_ofNat {n : Nat} (h : n < 0x80000000) : int32? (ofNat n) = some (n : Int) := by
  have hf : fits32 n = true := by
    simp only [fits32, Bool.and_eq_true, decide_eq_true_eq]
    omega
  simp [int32?, signed?_ofNat, hf]

theorem ofNat_injective {m n : Nat} (h : ofNat m = ofNat n) : m = n := by
  rw [← value_ofNat m, ← value_ofNat n, h]

theorem ofInt_injective {i j : Int} (h : ofInt i = ofInt j) : i = j := by
  cases i with
  | ofNat m =>
    cases j with
    | ofNat n => exact congrArg Int.ofNat (ofNat_injective h)
    | negSucc n => exact absurd (isDigit_of_ofNat_eq h) (by decide)
  | negSucc m =>
    cases j with
    | ofNat n => exact absurd (isDigit_of_ofNat_eq h.symm) (by decide)
    | negSucc n =>
      have h := ofNat_injective (List.cons.inj h).2
      rw [Nat.add_right_cancel h]

theorem nat_injective {m n : Nat} (h : nat m = nat n) : m = n :=
  ofNat_injective (String.ofList_injective h)

end Numeral

namespace Label

theorem ofId_injective {i j : Int} (h : ofId i = ofId j) : i = j := by
  have entry : ∀ k : Int, "B" ++ Numeral.int k ≠ "entry" := fun k hk => by
    have hk := congrArg String.toList hk
    rw [String.toList_append] at hk
    exact absurd (List.cons.inj hk).1 (by decide)
  unfold ofId at h
  split at h <;> split at h
  · omega
  · exact absurd h.symm (entry j)
  · exact absurd h (entry i)
  · have h := congrArg String.toList h
    rw [String.toList_append, String.toList_append] at h
    have h := List.append_cancel_left h
    simp only [Numeral.int, String.toList_ofList] at h
    exact Numeral.ofInt_injective h

/-- The label of a block leads to the block, as long as its number can be read. -/
theorem id?_ofId {i : Int} (h0 : 0 ≤ i) (h : i < 0x80000000) : (ofId i).id? = some i := by
  unfold ofId
  split
  · next hi => simp [id?, hi]
  · next hi =>
    obtain ⟨n, rfl⟩ := Int.eq_ofNat_of_zero_le h0
    have hint : (Numeral.int n).toList = Numeral.ofNat n := String.toList_ofList
    have hl : ("B" ++ Numeral.int n).toList = 'B' :: Numeral.ofNat n := by
      rw [String.toList_append, hint]
      rfl
    have hne : "B" ++ Numeral.int n ≠ "entry" := fun hn => by
      rw [hn] at hl
      exact absurd (List.cons.inj hl).1 (by decide)
    have hpos : 0 < n := by omega
    rw [id?, if_neg hne, hl]
    simp only [Numeral.int32?_ofNat (by omega : n < 0x80000000)]
    simp [hpos]

theorem nonneg_of_id? {l : Label} {i : Int} (h : l.id? = some i) : 0 ≤ i := by
  unfold id? at h
  split at h
  · exact Option.some.inj h ▸ Int.le_refl 0
  · split at h
    · obtain ⟨_, hi⟩ := Option.filter_eq_some_iff.1 h
      exact Int.le_of_lt (by simpa using hi)
    · cases h

end Label

namespace Temp

theorem fresh_name_ne {m n : Nat} (h : m ≠ n) (s t : Ty) : (fresh m s).name ≠ (fresh n t).name :=
  fun he => h (Nat.add_right_cancel (Numeral.nat_injective he))

end Temp
end LoopClock
