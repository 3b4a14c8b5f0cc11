import LoopClock.Proofs.Source.Matching
import Mathlib.Data.List.DropRight

/-! A text without its comments and with all its newlines spelled as line feeds. What tokens are made
of is not affected. -/

namespace LoopClock.Source
open Matcher

/-- The text without its comments. A comment runs from a semicolon up to the next newline. -/
def uncommented : List Char → List Char
  | [] => []
  | c :: s => if c = ';' then uncommented (s.dropWhile (!isNewline ·)) else c :: uncommented s
termination_by s => s.length
decreasing_by
  · have := List.length_dropWhile_le (!isNewline ·) s
    simp
    omega
  · simp

/-- The text with a line feed for every newline. -/
def lineFed : List Char → List Char
  | [] => []
  | '\r' :: '\n' :: s => '\n' :: lineFed s
  | c :: s => (if c = '\r' then '\n' else c) :: lineFed s

/-- The text without its comments, and with one line feed for newlines that follow each other. -/
def bare : List Char → List Char
  | [] => []
  | c :: s =>
    if c = ';' then (bare s).dropWhile (!isNewline ·)
    else if isNewline c then '\n' :: (bare s).dropWhile isNewline
    else c :: bare s

variable {s t : List Char} {c : Char}

theorem bare_comment (s : List Char) : bare (';' :: s) = (bare s).dropWhile (!isNewline ·) := by
  simp [bare]

theorem bare_newline (h : isNewline c = true) (s : List Char) :
    bare (c :: s) = '\n' :: (bare s).dropWhile isNewline := by
  have hc : c ≠ ';' := by
    rintro rfl
    cases h
  simp [bare, hc, h]

theorem bare_cons (h : isNewline c = false) (hc : c ≠ ';') (s : List Char) :
    bare (c :: s) = c :: bare s := by
  simp [bare, hc, h]

/-- What comes of a character at the front of a text. -/
theorem cases_char (c : Char) : c = ';' ∨ isNewline c = true ∨ isNewline c = false ∧ c ≠ ';' := by
  by_cases hc : c = ';'
  · exact .inl hc
  · cases isNewline c <;> simp [hc]

theorem bare_dropWhile (s : List Char) :
    bare (s.dropWhile (!isNewline ·)) = (bare s).dropWhile (!isNewline ·) := by
  induction s with
  | nil => rfl
  | cons c s ih =>
    rcases cases_char c with rfl | h | ⟨h, hc⟩
    · rw [bare_comment, List.dropWhile_idempotent, ← ih]
      rfl
    · rw [bare_newline h, List.dropWhile_cons_of_neg (by simp [h]), bare_newline h]
      rfl
    · rw [bare_cons h hc, List.dropWhile_cons_of_pos (by simp [h]), ih,
        List.dropWhile_cons_of_pos (by simp [h])]

theorem bare_uncommented (s : List Char) : bare (uncommented s) = bare s := by
  fun_induction uncommented s with
  | case1 => rfl
  | case2 s ih => rw [ih, bare_dropWhile, bare_comment]
  | case3 c s hc ih =>
    cases h : isNewline c with
    | true => rw [bare_newline h, bare_newline h, ih]
    | false => rw [bare_cons h hc, bare_cons h hc, ih]

theorem bare_lineFed (s : List Char) : bare (lineFed s) = bare s := by
  fun_induction lineFed s with
  | case1 => rfl
  | case2 s ih =>
    rw [bare_newline rfl, bare_newline rfl, bare_newline rfl, ih, List.dropWhile_cons_of_pos rfl,
      List.dropWhile_idempotent]
  | case3 c s _ ih =>
    by_cases hr : c = '\r'
    · rw [if_pos hr, hr, bare_newline rfl, bare_newline rfl, ih]
    · rw [if_neg hr]
      simp only [bare, ih]

/-- After a comment comes a newline, if anything does. -/
theorem head_comment (s : List Char) : ∀ d ∈ (bare (';' :: s)).head?, isNewline d = true := by
  rw [bare_comment]
  intro d hd
  have h := List.head?_dropWhile_not (!isNewline ·) (bare s)
  rw [Option.mem_def.1 hd] at h
  simpa using h

theorem dropGap_of_head (h : ∀ d ∈ s.head?, isSpace d = false ∧ d ≠ ';') : dropGap s = s := by
  cases s with
  | nil => rfl
  | cons d s => exact visible_cons (h d rfl).1 (h d rfl).2

theorem not_space_of_newline (h : isNewline c = true) : isSpace c = false ∧ c ≠ ';' := by
  simp [isNewline] at h
  rcases h with rfl | rfl <;> decide

/-- No gap is left in front. -/
theorem head_dropGap (s : List Char) : ∀ d ∈ (dropGap s).head?, isSpace d = false ∧ d ≠ ';' := by
  have hspace := List.head?_dropWhile_not isSpace s
  intro d hd
  rw [dropGap] at hd
  split at hd
  · next r _ =>
    have hnewline := List.head?_dropWhile_not (!isNewline ·) r
    rw [Option.mem_def.1 hd] at hnewline
    exact not_space_of_newline (by simpa using hnewline)
  · next hnot =>
    rw [Option.mem_def.1 hd] at hspace
    refine ⟨hspace, ?_⟩
    rintro rfl
    obtain ⟨r, hr⟩ := List.head?_eq_some_iff.1 hd
    exact hnot r hr

theorem dropGap_bare (s : List Char) : dropGap (bare s) = bare (dropGap s) := by
  induction s with
  | nil => rfl
  | cons c s ih =>
    rcases cases_char c with rfl | h | ⟨h, hc⟩
    · rw [dropGap_of_head fun d hd => not_space_of_newline (head_comment s d hd), bare_comment,
        ← bare_dropWhile]
      rfl
    · have hs := not_space_of_newline h
      rw [show dropGap (c :: s) = c :: s from visible_cons hs.1 hs.2, bare_newline h]
      rfl
    · rw [bare_cons h hc]
      cases hs : isSpace c with
      | true =>
        have hskip : ∀ r, dropGap (c :: r) = dropGap r := fun r => by
          rw [dropGap, dropGap, List.dropWhile_cons_of_pos hs]
        rw [hskip, hskip, ih]
      | false =>
        rw [show dropGap (c :: s) = c :: s from visible_cons hs hc,
          show dropGap (c :: bare s) = c :: bare s from visible_cons hs hc, bare_cons h hc]

/-! ## Tokens -/

/-- A class of characters that tokens are made of. -/
def Solid (p : Char → Bool) : Prop := ∀ c, p c = true → c ≠ ';' ∧ isNewline c = false

theorem solid_iff {p : Char → Bool} : Solid p ↔ p ';' = false ∧ p '\n' = false ∧ p '\r' = false := by
  constructor
  · intro h
    refine ⟨?_, ?_, ?_⟩ <;> apply Bool.eq_false_iff.2 <;> intro hp
    · exact (h _ hp).1 rfl
    · exact absurd (h _ hp).2 (by decide)
    · exact absurd (h _ hp).2 (by decide)
  · rintro ⟨hcomment, hfeed, hreturn⟩ c hc
    constructor
    · rintro rfl
      simp [hcomment] at hc
    · apply Bool.eq_false_iff.2
      intro h
      simp [isNewline] at h
      rcases h with rfl | rfl
      · simp [hfeed] at hc
      · simp [hreturn] at hc

theorem span_bare {p : Char → Bool} (hp : Solid p) (s : List Char) :
    (bare s).takeWhile p = s.takeWhile p ∧ (bare s).dropWhile p = bare (s.dropWhile p) := by
  have hstop : ∀ c, isNewline c = true → p c = false := fun c h => by
    apply Bool.eq_false_iff.2
    intro hc
    simp [(hp c hc).2] at h
  induction s with
  | nil => exact ⟨rfl, rfl⟩
  | cons c s ih =>
    rcases cases_char c with rfl | h | ⟨h, hc⟩
    · have hno : p ';' = false := Bool.eq_false_iff.2 fun h => (hp _ h).1 rfl
      have hhead := head_comment s
      cases hb : bare (';' :: s) with
      | nil => simp [hno, hb]
      | cons d r =>
        have hd := hstop d (hhead d (by rw [hb]; rfl))
        simp [hno, hb, hd]
    · simp [bare_newline h, hstop c h, hstop '\n' rfl]
    · rw [bare_cons h hc]
      cases hpc : p c with
      | true => simpa [hpc] using ih
      | false => simp [hpc, bare_cons h hc]

theorem dropWord_bare {w : List Char} (hw : ∀ c ∈ w, c ≠ ';' ∧ isNewline c = false) (s : List Char) :
    dropWord w (bare s) = (dropWord w s).map bare := by
  induction w generalizing s with
  | nil => rfl
  | cons d w ih =>
    obtain ⟨⟨hcomment, hnewline⟩, hw⟩ := List.forall_mem_cons.1 hw
    have hstop : ∀ c, isNewline c = true → d ≠ c := fun c h => by
      rintro rfl
      simp [hnewline] at h
    cases s with
    | nil => rfl
    | cons c s =>
      rcases cases_char c with rfl | h | ⟨h, hc⟩
      · have hhead := head_comment s
        rw [show dropWord (d :: w) (';' :: s) = none from if_neg hcomment]
        cases hb : bare (';' :: s) with
        | nil => rfl
        | cons e r => exact if_neg (hstop e (hhead e (by rw [hb]; rfl)))
      · rw [bare_newline h, show dropWord (d :: w) (c :: s) = none from if_neg (hstop c h)]
        exact if_neg (hstop '\n' rfl)
      · rw [bare_cons h hc]
        by_cases hd : d = c
        · simpa [dropWord, hd] using ih hw s
        · simp [dropWord, hd]

theorem head_bare (hs : ∀ c ∈ s.head?, c ≠ ';') :
    (∀ c ∈ (bare s).head?, isNewline c = false) ↔ ∀ c ∈ s.head?, isNewline c = false := by
  cases s with
  | nil => rfl
  | cons c s =>
    rcases cases_char c with rfl | h | ⟨h, hc⟩
    · exact absurd rfl (hs ';' rfl)
    · simp [bare_newline h, h, show isNewline '\n' = true from rfl]
    · simp [bare_cons h hc]

end LoopClock.Source
