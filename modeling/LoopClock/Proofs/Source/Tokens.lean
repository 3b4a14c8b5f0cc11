import LoopClock.Proofs.Single
import LoopClock.Proofs.Source.Matching
import LoopClock.Source.Grammar

/-! Names, numbers, types, labels and operands: how they are spelled, and that what is spelled so is
read back as long as nothing follows that would go on with it. -/
namespace LoopClock
open Source Source.Matcher Source.Grammar

def IsName (s : String) : Prop := s.toList ≠ [] ∧ ∀ c ∈ s.toList, isNameChar c = true

instance (s : String) : Decidable (IsName s) :=
  decidable_of_iff (s.toList ≠ [] ∧ s.toList.all isNameChar = true) (by rw [IsName, List.all_eq_true])

def Label.IsSpelled (l : Label) : Prop :=
  l = "entry" ∨ ∃ cs, IsDigits cs ∧ l = String.ofList ('B' :: cs)

/-- What a value is written as. -/
def Value.operand : Value → Operand
  | .int v => .int (Numeral.int v.toInt)
  | .long v => .int (Numeral.int v.toInt)
  | .float v => .float v.text
  | .temp t => if t.isGlobal then .globalName t.name else .localName t.name

def Value.typedOperand (v : Value) : TypedOperand := (v.ty, v.operand)

/-- Names are spelled as the grammar has them. -/
def Value.IsNamed (v : Value) : Prop := ∀ t ∈ v.temp?, IsName t.name

/-- No float in a value needs an exponent. -/
def Value.IsPlain : Value → Prop
  | .float x => x.IsPlain
  | _ => True

instance : DecidablePred Value.IsPlain
  | .float x => inferInstanceAs (Decidable x.IsPlain)
  | .int _ | .long _ | .temp _ => .isTrue trivial

namespace Source

variable {s r : List Char}

/-- The characters with which a name, a number or a type goes on. -/
def goesOn (c : Char) : Bool := isNameChar c || c == '*'

def Stops (s : List Char) : Prop := Ends goesOn s

theorem stops_cons {c : Char} (h : goesOn c = false) : Stops (c :: s) :=
  fun _ hd => Option.some.inj hd ▸ h

theorem Stops.ends (h : Stops s) {p : Char → Bool} (hp : ∀ c, p c = true → goesOn c = true) :
    Ends p s := fun c hc => by
  have hn := h c hc
  by_contra hd
  rw [hp c (by simpa using hd)] at hn
  cases hn

theorem Stops.name (h : Stops s) : Ends isNameChar s := h.ends fun c hc => by simp [goesOn, hc]

theorem Stops.digits (h : Stops s) : Ends Char.isDigit s :=
  h.ends fun c hc => by simp [goesOn, isNameChar, Char.isAlphanum, hc]

theorem Stops.head_ne (h : Stops s) {c : Char} (hc : goesOn c = true) : s.head? ≠ some c := by
  intro hs
  rw [h c hs] at hc
  cases hc

/-! ## Names -/

theorem reads_name {n : String} (hn : IsName n) (hs : Stops s) :
    Reads name (n.toList ++ s) n s := by
  have h : Reads (run isNameChar) (n.toList ++ s) n.toList s := reads_run hn.1 hn.2 hs.name
  have := h.map (g := String.ofList)
  rwa [String.ofList_toList] at this

theorem reads_localName {n : String} (hn : IsName n) (hs : Stops s) :
    Reads localName ('%' :: (n.toList ++ s)) n s :=
  .rule (.bind (reads_word "%" _) (reads_name hn hs))

theorem reads_globalName {n : String} (hn : IsName n) (hs : Stops s) :
    Reads globalName ('@' :: (n.toList ++ s)) n s :=
  .rule (.bind (reads_word "@" _) (reads_name hn hs))

theorem gives_name : Gives name IsName :=
  (gives_run isNameChar).map fun cs h => by simpa [IsName] using h

theorem gives_localName : Gives localName IsName :=
  .rule ((gives_true _).bind fun _ _ => gives_name)

theorem gives_globalName : Gives globalName IsName :=
  .rule ((gives_true _).bind fun _ _ => gives_name)

/-! ## Numbers -/

theorem reads_digits {cs : List Char} (h : IsDigits cs) (hs : Ends Char.isDigit s) :
    Reads digits (cs ++ s) cs s := reads_run h.1 h.2 hs

theorem gives_digits : Gives digits IsDigits := gives_run Char.isDigit

/-- A text that begins with a digit. -/
theorem head_isDigit {cs : List Char} (h : IsDigits cs) (s : List Char) :
    ∃ c t, cs ++ s = c :: t ∧ c.isDigit = true := by
  obtain ⟨hne, hd⟩ := h
  match cs with
  | [] => exact absurd rfl hne
  | c :: cs => exact ⟨c, cs ++ s, rfl, hd c List.mem_cons_self⟩

theorem reads_sign (negative : Bool) {cs : List Char} (h : IsDigits cs) :
    Reads sign (Single.signed negative (cs ++ s)) (Single.signed negative []) (cs ++ s) := by
  cases negative with
  | true => exact .bind (.optional (reads_word "-" _)) (.pure _ _)
  | false =>
    obtain ⟨c, t, hct, hc⟩ := head_isDigit h s
    have hw : Refuses (word "-") (cs ++ s) := by
      rw [hct]
      refine refuses_word (if_neg ?_)
      rintro rfl
      cases hc
    exact .bind hw.optional (.pure _ _)

/-- A whole number, with or without a sign. -/
theorem reads_signed (negative : Bool) {cs : List Char} (h : IsDigits cs)
    (hs : Ends Char.isDigit s) :
    Reads intText (Single.signed negative (cs ++ s)) (String.ofList (Single.signed negative cs)) s := by
  have hr : Reads intText (Single.signed negative (cs ++ s))
      (String.ofList (Single.signed negative [] ++ cs)) s :=
    .rule (.bind (reads_sign negative h) (.bind (reads_digits h hs) (.pure _ s)))
  cases negative <;> exact hr

theorem reads_intText (i : Int) (hs : Ends Char.isDigit s) :
    Reads intText ((Numeral.int i).toList ++ s) (Numeral.int i) s := by
  rw [Numeral.int, String.toList_ofList]
  cases i with
  | ofNat n => exact reads_signed false (isDigits_ofNat n) hs
  | negSucc n => exact reads_signed true (isDigits_ofNat (n + 1)) hs

theorem reads_nat (n : Nat) (hs : Ends Char.isDigit s) :
    Reads intText ((Numeral.nat n).toList ++ s) (Numeral.nat n) s :=
  reads_intText n hs

theorem reads_floatText (negative : Bool) {cs : List Char} (h : Single.IsDecimal cs)
    (hs : Ends Char.isDigit s) :
    Reads floatText (Single.signed negative (cs ++ s)) (String.ofList (Single.signed negative cs))
      s := by
  obtain ⟨whole, fraction, hw, hf, rfl⟩ := h
  have hpoint : Ends Char.isDigit ('.' :: (fraction ++ s)) := fun _ hd => Option.some.inj hd ▸ rfl
  have hr : Reads floatText (Single.signed negative (whole ++ '.' :: (fraction ++ s)))
      (String.ofList ((Single.signed negative [] ++ whole) ++ '.' :: fraction)) s :=
    .rule (.bind (reads_sign negative hw) (.bind (reads_digits hw hpoint)
      (.bind (reads_word "." _) (.bind (reads_digits hf hs) (.pure _ s)))))
  rw [List.append_assoc, List.cons_append]
  cases negative <;> exact hr

/-- Digits without a point behind them are not a float. -/
theorem refuses_floatText (negative : Bool) {cs : List Char} (h : IsDigits cs)
    (hs : Ends Char.isDigit s) (hp : s.head? ≠ some '.') :
    Refuses floatText (Single.signed negative (cs ++ s)) := by
  refine Refuses.rule ((reads_sign negative h).refuses ((reads_digits h hs).refuses ?_))
  refine Refuses.bind (refuses_word ?_)
  cases s with
  | nil => rfl
  | cons c s => exact if_neg fun hc => hp (congrArg some hc.symm)

/-! ## Types and labels -/

theorem reads_scalarType {w : String} {t : Ty} (hs : s.head? ≠ some '*') :
    Reads (scalarType w t) (w.toList ++ s) t s := by
  have hw : Refuses (word "*") s := by
    refine refuses_word ?_
    cases s with
    | nil => rfl
    | cons c s => exact if_neg fun hc => hs (congrArg some hc.symm)
  exact .bind (reads_word w s) (.bind hw.optional (.pure t s))

theorem reads_pointerType {w : String} {t : Ty} :
    Reads (scalarType w t) (w.toList ++ '*' :: s) t.toPtr s :=
  .bind (reads_word w _) (.bind (.optional (reads_word "*" s)) (.pure t.toPtr s))

theorem reads_type (ty : Ty) (hs : s.head? ≠ some '*') : Reads type (ty.text.toList ++ s) ty s := by
  have other {w : String} {t : Ty} {r : List Char} (h : dropWord w.toList r = none) :
      Refuses (scalarType w t) r := (refuses_word h).bind
  refine .rule ?_
  cases ty with
  | i32 => exact .left (reads_scalarType hs)
  | i32Ptr => exact .left reads_pointerType
  | i64 => exact .right (other rfl) (.left (reads_scalarType hs))
  | i64Ptr => exact .right (other rfl) (.left reads_pointerType)
  | f32 => exact .right (other rfl) (.right (other rfl) (.left (reads_scalarType hs)))
  | f32Ptr => exact .right (other rfl) (.right (other rfl) (.left reads_pointerType))
  | void =>
    exact .right (other rfl) (.right (other rfl) (.right (other rfl)
      (.left (.bind (reads_word "void" s) (.pure _ s)))))

/-- No type starts with a letter other than these. -/
theorem refuses_type {c : Char} (h : c ≠ 'i' ∧ c ≠ 'f' ∧ c ≠ 'v') (s : List Char) :
    Refuses type (c :: s) := by
  have h32 : Refuses (word "i32") (c :: s) := refuses_word (if_neg h.1.symm)
  have h64 : Refuses (word "i64") (c :: s) := refuses_word (if_neg h.1.symm)
  have hf : Refuses (word "f32") (c :: s) := refuses_word (if_neg h.2.1.symm)
  have hv : Refuses (word "void") (c :: s) := refuses_word (if_neg h.2.2.symm)
  exact .rule (.or h32.bind (.or h64.bind (.or hf.bind (.or hv.bind rfl))))

theorem reads_blockLabel {l : Label} (hl : l.IsSpelled) (hs : Ends Char.isDigit s) :
    Reads blockLabel (l.toList ++ s) l s := by
  refine .rule ?_
  obtain rfl | ⟨cs, hcs, rfl⟩ := hl
  · exact .left (.bind (reads_word "entry" s) (.pure _ s))
  · rw [String.toList_ofList]
    exact .right ((refuses_word rfl).bind) (.left (.bind (reads_word "B" _)
      (.bind (reads_digits hcs hs) (.pure _ s))))

theorem reads_labelRef {l : Label} (hl : l.IsSpelled) (hs : Ends Char.isDigit s) :
    Reads labelRef ('%' :: (l.toList ++ s)) l s :=
  .rule (.bind (reads_word "%" _) (reads_blockLabel hl hs))

theorem gives_blockLabel : Gives blockLabel Label.IsSpelled := by
  refine .rule (.choice fun m hm => ?_)
  simp only [List.mem_cons, List.not_mem_nil, or_false] at hm
  rcases hm with rfl | rfl
  · exact (gives_true _).bind fun _ _ => .pure (.inl rfl)
  · exact (gives_true _).bind fun _ _ => gives_digits.bind fun cs h => .pure (.inr ⟨cs, h, rfl⟩)

theorem gives_labelRef : Gives labelRef Label.IsSpelled :=
  .rule ((gives_true _).bind fun _ _ => gives_blockLabel)

theorem isSpelled_ofId {i : Int} (h : 0 ≤ i) : (Label.ofId i).IsSpelled := by
  unfold Label.ofId
  split
  · exact .inl rfl
  · obtain ⟨n, rfl⟩ := Int.eq_ofNat_of_zero_le h
    refine .inr ⟨Numeral.ofNat n, isDigits_ofNat n, ?_⟩
    rw [← String.toList_inj]
    simp [Numeral.int, Numeral.ofInt]

/-! ## Operands -/

private theorem refuses_names (negative : Bool) {cs : List Char} (h : IsDigits cs) (s : List Char) :
    Refuses localName (Single.signed negative (cs ++ s)) ∧
      Refuses globalName (Single.signed negative (cs ++ s)) := by
  cases negative with
  | true => exact ⟨rfl, rfl⟩
  | false =>
    obtain ⟨c, t, hct, hc⟩ := head_isDigit h s
    show Refuses localName (cs ++ s) ∧ Refuses globalName (cs ++ s)
    rw [hct]
    constructor <;>
    · refine .rule (.bind (refuses_word (if_neg ?_)))
      rintro rfl
      cases hc

private theorem reads_int (i : Int) (hs : Stops s) :
    Reads operand ((Numeral.int i).toList ++ s) (.int (Numeral.int i)) s := by
  have read : ∀ negative n, Numeral.ofInt i = Single.signed negative (Numeral.ofNat n) →
      Reads operand (Single.signed negative (Numeral.ofNat n ++ s)) (.int (Numeral.int i)) s := by
    intro negative n hi
    have hd := isDigits_ofNat n
    obtain ⟨hl, hg⟩ := refuses_names negative hd s
    have hf := refuses_floatText negative hd hs.digits (hs.head_ne rfl)
    have hr := reads_signed negative hd hs.digits
    rw [← hi] at hr
    exact .right hl.map (.right hg.map (.right hf.map (.left hr.map)))
  rw [Numeral.int, String.toList_ofList]
  cases i with
  | ofNat n => exact read false n rfl
  | negSucc n => exact read true (n + 1) rfl

private theorem reads_temp {t : Temp} (ht : IsName t.name) (hs : Stops s) :
    Reads operand (t.text.toList ++ s) (Value.temp t).operand s := by
  obtain ⟨n, isGlobal, ty⟩ := t
  cases isGlobal with
  | true =>
    have hl : Refuses localName ('@' :: (n.toList ++ s)) := rfl
    have hr : Reads operand ('@' :: (n.toList ++ s)) (.globalName n) s :=
      .right hl.map (.left (reads_globalName ht hs).map)
    simpa [Temp.text, Value.operand] using hr
  | false =>
    have hr : Reads operand ('%' :: (n.toList ++ s)) (.localName n) s :=
      .left (reads_localName ht hs).map
    simpa [Temp.text, Value.operand] using hr

private theorem reads_float {x : Single} (hx : x.IsPlain) (hs : Stops s) :
    Reads operand (x.text.toList ++ s) (.float x.text) s := by
  obtain ⟨-, cs, hcs, htext⟩ := x.text_cases.resolve_right fun h => h.1 hx
  have hf := reads_floatText x.negative hcs hs.digits
  obtain ⟨whole, fraction, hw, hfr, rfl⟩ := hcs
  obtain ⟨hl, hg⟩ := refuses_names x.negative hw ('.' :: fraction ++ s)
  have hxt : x.text = String.ofList (Single.signed x.negative (whole ++ '.' :: fraction)) := by
    rw [← htext, String.ofList_toList]
  have hsigned : Single.signed x.negative (whole ++ '.' :: fraction) ++ s =
      Single.signed x.negative (whole ++ '.' :: fraction ++ s) := by
    cases x.negative <;> rfl
  rw [hxt, String.toList_ofList, hsigned]
  rw [List.append_assoc] at hf ⊢
  exact .right hl.map (.right hg.map (.left hf.map))

theorem reads_operand {v : Value} (hn : v.IsNamed) (hp : v.IsPlain) (hs : Stops s) :
    Reads operand (v.text.toList ++ s) v.operand s := by
  cases v with
  | int v => exact reads_int v.toInt hs
  | long v => exact reads_int v.toInt hs
  | float x => exact reads_float hp hs
  | temp t => exact reads_temp (hn t rfl) hs

/-- The rest of a number whose exponent was not read. -/
def AtExponent (s : List Char) : Prop := ∃ t, s = 'e' :: t

private theorem leaves_exponent (negative : Bool) {cs : List Char} (h : Single.HasExponent cs)
    (s : List Char) : Leaves operand (Single.signed negative (cs ++ s)) AtExponent := by
  obtain ⟨mantissa, exponent, hm, rfl⟩ := h
  rw [List.append_assoc, List.cons_append]
  have he : Ends Char.isDigit ('e' :: (exponent ++ s)) := fun _ hd => Option.some.inj hd ▸ rfl
  rcases hm with hm | hm
  · obtain ⟨hl, hg⟩ := refuses_names negative hm ('e' :: (exponent ++ s))
    have hf := refuses_floatText negative hm he (by simp)
    have hr : Reads operand (Single.signed negative (mantissa ++ 'e' :: (exponent ++ s))) _ _ :=
      .right hl.map (.right hg.map (.right hf.map (.left (reads_signed negative hm he).map)))
    exact hr.leaves ⟨_, rfl⟩
  · have hf := reads_floatText negative hm he
    obtain ⟨whole, fraction, hw, -, rfl⟩ := hm
    obtain ⟨hl, hg⟩ := refuses_names negative hw ('.' :: fraction ++ 'e' :: (exponent ++ s))
    rw [← List.append_assoc] at hl hg
    have hr : Reads operand (Single.signed negative (whole ++ '.' :: fraction ++
        'e' :: (exponent ++ s))) _ _ := .right hl.map (.right hg.map (.left hf.map))
    exact hr.leaves ⟨_, rfl⟩

/-- Of a number that is not plain no more is read than what stands in front of its exponent. -/
theorem leaves_operand {v : Value} (hv : ¬v.IsPlain) (s : List Char) :
    Leaves operand (v.text.toList ++ s) AtExponent := by
  cases v with
  | int v => exact absurd trivial hv
  | long v => exact absurd trivial hv
  | temp t => exact absurd trivial hv
  | float x =>
    obtain ⟨-, hx | ⟨cs, hcs, htext⟩⟩ := x.text_cases.resolve_left fun h => hv h.1
    · have hr : Refuses operand ("NaN".toList ++ s) := rfl
      exact Value.text.eq_3 x ▸ hx ▸ hr.leaves
    · rw [Value.text, htext]
      have hsigned : Single.signed x.negative cs ++ s = Single.signed x.negative (cs ++ s) := by
        cases x.negative <;> rfl
      rw [hsigned]
      rcases hcs with rfl | hcs
      · have hr : Refuses operand (Single.signed x.negative ("inf".toList ++ s)) := by
          cases x.negative <;> rfl
        exact hr.leaves
      · exact leaves_exponent x.negative hcs s

/-! ## Typed operands -/

private theorem visible_signed (negative : Bool) {cs : List Char} (h : IsDigits cs) (s : List Char) :
    Visible (Single.signed negative cs ++ s) := by
  cases negative with
  | true => rfl
  | false =>
    obtain ⟨c, t, hct, hc⟩ := head_isDigit h s
    show Visible (cs ++ s)
    rw [hct]
    refine visible_cons ?_ ?_
    · by_contra hs
      simp only [Bool.not_eq_false, isSpace, Bool.or_eq_true, beq_iff_eq] at hs
      rcases hs with rfl | rfl <;> cases hc
    · rintro rfl
      cases hc

theorem visible_nat (n : Nat) (s : List Char) : Visible ((Numeral.nat n).toList ++ s) := by
  rw [Numeral.nat, String.toList_ofList]
  exact visible_signed false (isDigits_ofNat n) s

theorem visible_value (v : Value) (s : List Char) : Visible (v.text.toList ++ s) := by
  have hint : ∀ i : Int, Visible ((Numeral.int i).toList ++ s) := by
    intro i
    rw [Numeral.int, String.toList_ofList]
    cases i with
    | ofNat n => exact visible_signed false (isDigits_ofNat n) s
    | negSucc n => exact visible_signed true (isDigits_ofNat (n + 1)) s
  cases v with
  | int v => exact hint v.toInt
  | long v => exact hint v.toInt
  | temp t =>
    obtain ⟨n, isGlobal, ty⟩ := t
    have h : ∀ c : Char, c = '@' ∨ c = '%' → Visible (c :: (n.toList ++ s)) := by
      rintro c (rfl | rfl) <;> rfl
    cases isGlobal with
    | true => simpa [Value.text, Temp.text] using h '@' (.inl rfl)
    | false => simpa [Value.text, Temp.text] using h '%' (.inr rfl)
  | float x =>
    rw [Value.text]
    rcases x.text_cases with ⟨-, cs, ⟨whole, fraction, hw, -, rfl⟩, ht⟩ |
      ⟨-, ht | ⟨cs, rfl | ⟨mantissa, exponent, hm, rfl⟩, ht⟩⟩ <;> rw [ht]
    · have h := visible_signed x.negative hw ('.' :: fraction ++ s)
      cases hn : x.negative <;> simpa [Single.signed, hn] using h
    · rfl
    · cases x.negative <;> rfl
    · rcases hm with hm | ⟨whole, fraction, hw, -, rfl⟩
      · have h := visible_signed x.negative hm ('e' :: exponent ++ s)
        cases hn : x.negative <;> simpa [Single.signed, hn] using h
      · have h := visible_signed x.negative hw ('.' :: fraction ++ 'e' :: exponent ++ s)
        cases hn : x.negative <;> simpa [Single.signed, hn] using h

theorem visible_type (ty : Ty) (s : List Char) : Visible (ty.text.toList ++ s) := by
  cases ty <;> rfl

theorem reads_typedOperand (ty : Ty) {v : Value} (hn : v.IsNamed) (hp : v.IsPlain) (hs : Stops s) :
    Reads Grammar.typedOperand (ty.text.toList ++ ' ' :: (v.text.toList ++ s)) (ty, v.operand) s :=
  .bind (reads_type ty (by simp)) (.bind (.space (visible_value v s) (reads_operand hn hp hs))
    (.pure _ s))

theorem leaves_typedOperand (ty : Ty) {v : Value} (hv : ¬v.IsPlain) (s : List Char) :
    Leaves Grammar.typedOperand (ty.text.toList ++ ' ' :: (v.text.toList ++ s)) AtExponent :=
  (reads_type ty (by simp)).leaves_bind <|
    ((leaves_operand hv s).space (visible_value v s)).bind fun _ _ h => (Reads.pure _ _).leaves h

end Source
end LoopClock
