import LoopClock.Proofs.Names
import LoopClock.Single.Nearest

/-! The text of a single precision number: a sign, and then digits around a point, digits with an
exponent, or a word. -/
namespace LoopClock

def IsDigits (cs : List Char) : Prop := cs ≠ [] ∧ ∀ c ∈ cs, c.isDigit = true

theorem isDigits_ofNat (n : Nat) : IsDigits (Numeral.ofNat n) :=
  ⟨Numeral.ofNat_ne_nil n, List.all_eq_true.1 (Numeral.all_isDigit_ofNat n)⟩

theorem isDigits_zero : IsDigits ['0'] :=
  ⟨List.cons_ne_nil _ _, List.forall_mem_singleton.2 rfl⟩

theorem IsDigits.append {cs ds : List Char} (h : IsDigits cs) (hd : ∀ c ∈ ds, c.isDigit = true) :
    IsDigits (cs ++ ds) := by
  refine ⟨by simp [h.1], fun c hc => ?_⟩
  rcases List.mem_append.1 hc with hc | hc
  · exact h.2 c hc
  · exact hd c hc

namespace Single

/-- Written without an exponent. -/
def IsPlain (x : Single) : Prop := x.code = 0 ∨ isPositional x.code = true

instance (x : Single) : Decidable x.IsPlain := inferInstanceAs (Decidable (_ ∨ _))

/-- A minus sign or none in front of a text. -/
def signed (negative : Bool) (cs : List Char) : List Char := if negative then '-' :: cs else cs

/-- Digits with a point among them. -/
def IsDecimal (cs : List Char) : Prop :=
  ∃ whole fraction, IsDigits whole ∧ IsDigits fraction ∧ cs = whole ++ '.' :: fraction

/-- Digits, perhaps with a point among them, and an exponent. -/
def HasExponent (cs : List Char) : Prop :=
  ∃ mantissa exponent, (IsDigits mantissa ∨ IsDecimal mantissa) ∧ cs = mantissa ++ 'e' :: exponent

/-! ## Digits -/

/-- The point of a grid below a number rounds to it, if the grid is finer than the gap between two
numbers. -/
private theorem holds_below (m : Nat) {gap unit den fine : Nat} (hgap : 1 ≤ gap ∧ gap ≤ 2)
    (hunit : 0 < unit) (hden : 0 < den) (hlt : den < fine) :
    (Interval.mk ((4 * m - gap) * unit * fine) (4 * m * unit * fine) ((4 * m + 2) * unit * fine)
      den (m % 2 = 0)).holds (4 * m * unit * fine / den) = true := by
  have hu : fine ≤ unit * fine := Nat.le_mul_of_pos_left _ hunit
  rw [Nat.mul_assoc (4 * m - gap), Nat.mul_assoc (4 * m), Nat.mul_assoc (4 * m + 2)]
  generalize unit * fine = u at hu
  have hle : 4 * m * u / den * den ≤ 4 * m * u := Nat.div_mul_le_self ..
  have hlow : 4 * m * u < 4 * m * u / den * den + den := by
    have h := Nat.div_add_mod (4 * m * u) den
    have := Nat.mod_lt (4 * m * u) hden
    rw [Nat.mul_comm den] at h
    omega
  have hhigh : (4 * m + 2) * u = 4 * m * u + 2 * u := Nat.add_mul ..
  have hbelow : (4 * m - gap) * u = 4 * m * u - gap * u := Nat.sub_mul ..
  have hgu : u ≤ gap * u := Nat.le_mul_of_pos_left u hgap.1
  simp only [Interval.holds, hhigh, hbelow, decide_eq_true_eq]
  split
  · simp only [Bool.and_eq_true, decide_eq_true_eq]
    omega
  · next hm =>
    have hmu : gap * u ≤ 4 * m * u := Nat.mul_le_mul_right u (by omega)
    simp only [Bool.and_eq_true, decide_eq_true_eq]
    omega

private theorem exists_gridPoint (c : Nat) : ∃ d, ((interval c).atGrid (-79)).gridPoint? = some d := by
  have hscale : -149 ≤ scale c := by
    unfold scale
    split
    · omega
    · have : 1 ≤ c / binade := Nat.div_pos (by omega) (by decide)
      omega
  have hden : 2 ^ (-(scale c - 2)).toNat < 10 ^ 79 :=
    Nat.lt_of_le_of_lt (Nat.pow_le_pow_right (by decide) (by omega : _ ≤ 151)) (by decide)
  have hgap : 1 ≤ (if significand c = binade then 1 else 2) ∧
      (if significand c = binade then 1 else 2) ≤ 2 := by
    split <;> decide
  have hunit : 0 < 2 ^ (scale c - 2).toNat := Nat.pow_pos (by decide)
  have h : ((interval c).atGrid (-79)).holds
      (((interval c).atGrid (-79)).mid / ((interval c).atGrid (-79)).den) = true := by
    have h := holds_below (significand c) hgap hunit (Nat.pow_pos (by decide)) hden
    simpa [Interval.atGrid, interval] using h
  rw [Interval.gridPoint?]
  simp only [h]
  split <;> simp_all

theorem exists_shortest (c : Nat) : ∃ d k, shortest? c = some (d, k) := by
  obtain ⟨d, hd⟩ := exists_gridPoint c
  have h : (shortest? c).isSome := by
    rw [shortest?, List.findSome?_isSome_iff]
    exact ⟨119, by decide, by simp [hd]⟩
  obtain ⟨⟨d, k⟩, h⟩ := Option.isSome_iff_exists.1 h
  exact ⟨d, k, h⟩

/-! ## Shapes -/

private theorem isDigit_zeros {n : Nat} : ∀ c ∈ List.replicate n '0', c.isDigit = true :=
  fun _ hc => List.eq_of_mem_replicate hc ▸ rfl

theorem isDecimal_positional {cs : List Char} (h : IsDigits cs) (k : Int) :
    IsDecimal (positional cs k) := by
  have hzero : IsDigits ['0'] := isDigits_zero
  unfold positional
  dsimp only
  split
  · exact ⟨cs ++ List.replicate k.toNat '0', ['0'], h.append isDigit_zeros, hzero, by simp⟩
  · split
    · next hk hp =>
      obtain ⟨hne, hd⟩ := h
      have hpos : 0 < cs.length := List.length_pos_iff.2 hne
      refine ⟨cs.take _, cs.drop _, ⟨?_, ?_⟩, ⟨?_, ?_⟩, rfl⟩
      · simp only [ne_eq, List.take_eq_nil_iff, not_or]
        exact ⟨by omega, hne⟩
      · exact fun c hc => hd c (List.mem_of_mem_take hc)
      · simp only [ne_eq, List.drop_eq_nil_iff]
        omega
      · exact fun c hc => hd c (List.mem_of_mem_drop hc)
    · refine ⟨['0'], List.replicate (-(cs.length + k)).toNat '0' ++ cs, hzero, ⟨?_, ?_⟩, by simp⟩
      · simp [h.1]
      · intro c hc
        rcases List.mem_append.1 hc with hc | hc
        · exact isDigit_zeros c hc
        · exact h.2 c hc

theorem hasExponent_scientific {cs : List Char} (h : IsDigits cs) (k : Int) :
    HasExponent (scientific cs k) := by
  obtain ⟨hne, hd⟩ := h
  match cs with
  | [] => exact absurd rfl hne
  | [d] => exact ⟨[d], _, .inl ⟨by simp, hd⟩, rfl⟩
  | d :: d' :: ds =>
    refine ⟨d :: '.' :: d' :: ds, Numeral.ofInt (((d :: d' :: ds).length : Int) + k - 1),
      .inr ⟨[d], d' :: ds, ⟨by simp, ?_⟩, ⟨by simp, ?_⟩, rfl⟩, by simp [scientific]⟩
    · simpa using hd d List.mem_cons_self
    · exact fun c hc => hd c (List.mem_cons_of_mem d hc)

/-- A plain number is written as a decimal, and any other one is not. -/
theorem text_cases (x : Single) :
    (x.IsPlain ∧ ∃ cs, IsDecimal cs ∧ x.text.toList = signed x.negative cs) ∨
      (¬x.IsPlain ∧ (x.text = "NaN" ∨
        ∃ cs, (cs = "inf".toList ∨ HasExponent cs) ∧ x.text.toList = signed x.negative cs)) := by
  have hplain : x.IsPlain → x.code < infinityCode := by
    rintro (h | h)
    · rw [h]
      decide
    · simp only [isPositional, Bool.and_eq_true, decide_eq_true_eq] at h
      exact Nat.lt_trans h.2 (by decide)
  unfold text
  split
  · next hnan => exact .inr ⟨fun h => by have := hplain h; omega, .inl rfl⟩
  have hsign : ∀ cs : List Char, (String.ofList (if x.negative then '-' :: cs else cs)).toList =
      signed x.negative cs := fun cs => String.toList_ofList
  dsimp only
  rw [hsign]
  split
  · next hinf => exact .inr ⟨fun h => by have := hplain h; omega, .inr ⟨_, .inl rfl, rfl⟩⟩
  obtain ⟨d, k, hs⟩ := exists_shortest x.code
  unfold magnitudeText
  split
  · next h0 =>
    refine .inl ⟨.inl h0, _, ?_, rfl⟩
    exact ⟨['0'], ['0'], isDigits_zero, isDigits_zero, rfl⟩
  · next h0 =>
    rw [hs]
    dsimp only
    split
    · next hp => exact .inl ⟨.inr hp, _, isDecimal_positional (isDigits_ofNat d) k, rfl⟩
    · next hp =>
      refine .inr ⟨fun h => h.elim h0 hp, .inr ⟨_, .inr ?_, rfl⟩⟩
      exact hasExponent_scientific (isDigits_ofNat d) k

/-! ## Reading -/

private theorem exists_magnitude {cs : List Char} (h : IsDecimal cs) : ∃ c, magnitude? cs = some c := by
  obtain ⟨whole, fraction, ⟨hne, hw⟩, ⟨-, hf⟩, rfl⟩ := h
  have htake : (whole ++ '.' :: fraction).takeWhile Char.isDigit = whole := by
    rw [List.takeWhile_append_of_pos hw]
    simp
  have hdrop : (whole ++ '.' :: fraction).dropWhile Char.isDigit = '.' :: fraction := by
    rw [List.dropWhile_append_of_pos hw]
    simp
  have htake' : fraction.takeWhile Char.isDigit = fraction := by
    simpa using @List.takeWhile_append_of_pos _ Char.isDigit fraction [] hf
  have hdrop' : fraction.dropWhile Char.isDigit = [] := by
    simpa using @List.dropWhile_append_of_pos _ Char.isDigit fraction [] hf
  simp [magnitude?, htake, hdrop, htake', hdrop', hne, exponent?]

/-- A plain number is written as a number that can be read. -/
theorem exists_read {x : Single} (h : x.IsPlain) : ∃ y, read? x.text.toList = some y := by
  obtain ⟨cs, hcs, htext⟩ : ∃ cs, IsDecimal cs ∧ x.text.toList = signed x.negative cs := by
    rcases x.text_cases with ⟨-, h⟩ | ⟨hn, -⟩
    · exact h
    · exact absurd h hn
  obtain ⟨c, hc⟩ : ∃ c, unsignedCode? cs = some c := by
    unfold unsignedCode?
    dsimp only
    split
    · exact ⟨_, rfl⟩
    · split
      · exact ⟨_, rfl⟩
      · exact exists_magnitude hcs
  obtain ⟨whole, fraction, ⟨hne, hw⟩, -, rfl⟩ := hcs
  obtain ⟨d, whole, rfl⟩ := List.exists_cons_of_ne_nil hne
  have hd := hw d List.mem_cons_self
  rw [htext]
  cases x.negative with
  | true => exact ⟨_, congrArg (Option.map _) hc⟩
  | false =>
    show ∃ y, read? (d :: (whole ++ '.' :: fraction)) = some y
    unfold read?
    split
    · next heq =>
      obtain ⟨rfl, -⟩ := List.cons.inj heq
      cases hd
    · next heq =>
      obtain ⟨rfl, -⟩ := List.cons.inj heq
      cases hd
    · exact ⟨_, congrArg (Option.map _) hc⟩

end Single
end LoopClock
