import LoopClock.Proofs.Source.Statements

/-! A program that is printed is read back as the items it is written as, if no float needs an
exponent. Otherwise a statement gets stuck, and no line, block or item that may follow there fits. -/
namespace LoopClock.Source.Grammar
open Matcher

variable {s : List Char}

/-! ## Lines -/

/-- Where a statement starts. -/
def AtStatement (s : List Char) : Prop := ∃ c ∈ ['%', 'c', 's', 'b', 'r'], ∃ t, s = c :: t

theorem atStatement_placed {x : Placed} (hx : x.IsSpelled) (s : List Char) :
    AtStatement (x.text.toList ++ s) := by
  have htemp {t : Temp} (ht : t.IsLocal) (w : List Char) : AtStatement (t.text.toList ++ w) := by
    refine ⟨'%', by decide, t.name.toList ++ w, ?_⟩
    simp [Temp.text, ht.notGlobal]
  cases x with
  | phi φ =>
    have h := htemp hx.target
    simpa [Placed.text, Phi.text] using h _
  | body i =>
    have h := hx.target
    simp only [Placed.text, Instr.text]
    cases i with
    | store value addr => exact ⟨'s', by decide, _, by simp; rfl⟩
    | call t ty callee args =>
      cases t with
      | none => exact ⟨'c', by decide, _, by simp; rfl⟩
      | some t =>
        have h := htemp (h t rfl)
        simpa using h _
    | _ t =>
      have h := htemp (h t rfl)
      simpa using h _
  | last t =>
    cases t with
    | jump l => exact ⟨'b', by decide, _, by simp [Placed.text, Terminator.text]; rfl⟩
    | branch => exact ⟨'b', by decide, _, by simp [Placed.text, Terminator.text]; rfl⟩
    | ret o =>
      cases o with
      | none => exact ⟨'r', by decide, _, by simp [Placed.text, Terminator.text]; rfl⟩
      | some v => exact ⟨'r', by decide, _, by simp [Placed.text, Terminator.text]; rfl⟩

theorem AtStatement.visible (h : AtStatement s) : Visible s := by
  obtain ⟨c, hc, t, rfl⟩ := h
  simp only [List.mem_cons, List.not_mem_nil, or_false] at hc
  rcases hc with rfl | rfl | rfl | rfl | rfl <;> rfl

theorem AtStatement.refuses_newline (h : AtStatement s) : Refuses newline s := by
  obtain ⟨c, hc, t, rfl⟩ := h
  simp only [List.mem_cons, List.not_mem_nil, or_false] at hc
  rcases hc with rfl | rfl | rfl | rfl | rfl <;> rfl

theorem AtStatement.refuses_block (h : AtStatement s) : Refuses block s := by
  obtain ⟨c, hc, t, rfl⟩ := h
  simp only [List.mem_cons, List.not_mem_nil, or_false] at hc
  rcases hc with rfl | rfl | rfl | rfl | rfl <;> rfl


theorem AtStatement.refuses_brace (h : AtStatement s) : Refuses (gap (Matcher.word "\x7d")) s := by
  obtain ⟨c, hc, t, rfl⟩ := h
  simp only [List.mem_cons, List.not_mem_nil, or_false] at hc
  rcases hc with rfl | rfl | rfl | rfl | rfl <;> rfl

/-- Newlines, as many as there are. -/
theorem reads_newlines (k : Nat) (hv : Visible s) (hs : Refuses newline s) :
    Reads newlines (List.replicate (k + 1) '\n' ++ s) () s := by
  have hrun : RunIf (fun _ : Unit => True) id (gap newline) (fun _ => False) (fun _ => True)
      (List.replicate k '\n' ++ s) (List.replicate k ()) s := by
    induction k with
    | zero => exact .nil s
    | succ k ih =>
      have hone : Reads (gap newline) ('\n' :: (List.replicate k '\n' ++ s)) ()
          (List.replicate k '\n' ++ s) := rfl
      exact .cons hone.readsIf trivial (by simp) ih
  have hvis : Visible (List.replicate k '\n' ++ s) := by
    cases k with
    | zero => exact hv
    | succ k => rfl
  have hrest := (hrun.spaced (fun _ => False.elim) hvis hs hv).reads fun _ _ => trivial
  have hone : Reads newline ('\n' :: (List.replicate k '\n' ++ s)) ()
      (List.replicate k '\n' ++ s) := rfl
  exact Reads.map (.bind hone (.bind hrest (.pure _ s)))

/-- A newline and the indentation of what follows. -/
theorem reads_newline (hs : Refuses newline (dropGap s)) :
    Reads newlines ('\n' :: s) () (dropGap s) := by
  have hone : Reads newline ('\n' :: s) () s := rfl
  have hrest : Reads (gap (spaced newline)) s [] (dropGap s) := by
    show Reads (spaced newline) (dropGap s) [] (dropGap s)
    exact .bind hs.optional (.pure [] _)
  exact Reads.map (.bind hone (.bind hrest (.pure _ _)))

def line : Matcher Statement := do
  let s ← statement
  gap newlines
  return s

theorem readsIf_line {x : Placed} (hx : x.IsSpelled) (hs : Refuses newline (dropGap s)) :
    ReadsIf (∀ v ∈ x.values, v.IsPlain) line (x.text.toList ++ '\n' :: s) x.statement (dropGap s)
      fun _ => False := by
  have hstuck : ∀ r, Stuck r → Refuses (gap newlines) r := by
    rintro r (⟨t, rfl⟩ | ⟨t, rfl⟩) <;> rfl
  have hv : Visible ('\n' :: s) := rfl
  refine .congr (and_iff_left trivial) ((readsIf_placed hx s).bind
    (fun _ r hr => (hstuck r hr).bind.leaves) (Reads.readsIf ?_))
  exact .bind ((reads_newline hs).gap hv) (.pure _ _)

/-- Lines with their indentation, and what follows. -/
def lines (xs : List Placed) (s : List Char) : List Char :=
  xs.foldr (fun x r => ' ' :: ' ' :: (x.text.toList ++ '\n' :: r)) s

theorem dropGap_lines {x : Placed} (hx : x.IsSpelled) (xs : List Placed) (s : List Char) :
    dropGap (lines (x :: xs) s) = x.text.toList ++ '\n' :: lines xs s := by
  show dropGap (x.text.toList ++ '\n' :: lines xs s) = _
  exact (atStatement_placed hx _).visible

theorem length_le_lines (xs : List Placed) (s : List Char) : s.length ≤ (lines xs s).length := by
  induction xs with
  | nil => exact Nat.le_refl _
  | cons x xs ih =>
    simp only [lines, List.foldr_cons, List.length_cons, List.length_append] at ih ⊢
    omega

/-- What stands behind the lines of a block. -/
structure Follows (s : List Char) : Prop where
  visible : Visible s
  newline : Refuses newline s
  statement : Refuses statement s

theorem lines_next {xs : List Placed} (hxs : ∀ x ∈ xs, x.IsSpelled) (hs : Follows s) :
    Visible (dropGap (lines xs s)) ∧ Refuses newline (dropGap (lines xs s)) := by
  cases xs with
  | nil =>
    show Visible (dropGap s) ∧ Refuses newline (dropGap s)
    rw [show dropGap s = s from hs.visible]
    exact ⟨hs.visible, hs.newline⟩
  | cons x xs =>
    have hx := (List.forall_mem_cons.1 hxs).1
    have hstart := atStatement_placed hx ('\n' :: lines xs s)
    rw [dropGap_lines hx]
    exact ⟨hstart.visible, hstart.refuses_newline⟩

theorem runIf_lines {xs : List Placed} (hxs : ∀ x ∈ xs, x.IsSpelled) (hs : Follows s) :
    RunIf (fun x : Placed => ∀ v ∈ x.values, v.IsPlain) Placed.statement (gap line)
      (fun _ => False) AtStatement (dropGap (lines xs s)) xs s := by
  induction xs with
  | nil =>
    show RunIf _ _ _ _ _ (dropGap s) [] s
    rw [show dropGap s = s from hs.visible]
    exact .nil s
  | cons x xs ih =>
    obtain ⟨hx, hxs⟩ := List.forall_mem_cons.1 hxs
    have hstart := atStatement_placed hx ('\n' :: lines xs s)
    rw [dropGap_lines hx]
    refine .cons ((readsIf_line hx (lines_next hxs hs).2).gap hstart.visible) hstart ?_ (ih hxs)
    have := length_dropGap_le (lines xs s)
    simp only [List.length_append, List.length_cons]
    omega

/-! ## Blocks -/

/-- A block with its last newline, and what follows. -/
def blockText (b : Block) (s : List Char) : List Char :=
  b.label.toList ++ ':' :: '\n' :: lines b.placed s

private theorem reads_label {b : Block} (hb : 0 ≤ b.id) (s : List Char) :
    Reads blockLabel (b.label.toList ++ ':' :: s) b.label (':' :: s) :=
  reads_blockLabel (isSpelled_ofId hb) fun _ hd => Option.some.inj hd ▸ rfl

theorem readsIf_block {b : Block} (hb : b.IsSpelled) (hs : Follows s) :
    ReadsIf (∀ x ∈ b.placed, ∀ v ∈ x.values, v.IsPlain) block (blockText b s) b.written s
      AtStatement := by
  obtain ⟨hvis, hnext⟩ := lines_next hb.placed hs
  have hlines := (runIf_lines hb.placed hs).spaced (fun _ => False.elim) hvis hs.statement.bind
    hs.visible
  have hcolon : Visible (':' :: '\n' :: lines b.placed s) := rfl
  have hnewline : Visible ('\n' :: lines b.placed s) := rfl
  refine .rule ((reads_label hb.nonneg _).bindIf ?_)
  refine Reads.bindIf (.gap hcolon (reads_word ":" _)) ?_
  refine Reads.bindIf (.gap hnewline (reads_newline hnext)) ?_
  exact hlines.last

/-- Blocks one after the other, and what follows. -/
def blocksText (bs : List Block) (s : List Char) : List Char := bs.foldr blockText s

theorem label_cons (b : Block) : ∃ c ∈ ['e', 'B'], ∃ t, b.label.toList = c :: t := by
  unfold Block.label Label.ofId
  split
  · exact ⟨'e', by decide, _, rfl⟩
  · exact ⟨'B', by decide, _, by simp; rfl⟩

theorem blockText_start (b : Block) (s : List Char) :
    Follows (blockText b s) ∧ Refuses (gap (Matcher.word "\x7d")) (blockText b s) := by
  obtain ⟨c, hc, t, ht⟩ := label_cons b
  rw [blockText, ht]
  simp only [List.mem_cons, List.not_mem_nil, or_false] at hc
  rcases hc with rfl | rfl <;> exact ⟨⟨rfl, rfl, rfl⟩, rfl⟩

/-- The end of a function, and what follows. -/
private theorem follows_brace (s : List Char) : Follows ('\x7d' :: s) := ⟨rfl, rfl, rfl⟩

private theorem follows_blocks (bs : List Block) (s : List Char) :
    Follows (blocksText bs ('\x7d' :: s)) := by
  cases bs with
  | nil => exact follows_brace s
  | cons b bs => exact (blockText_start b _).1

theorem runIf_blocks {bs : List Block} (hbs : ∀ b ∈ bs, b.IsSpelled) (s : List Char) :
    RunIf (fun b : Block => ∀ x ∈ b.placed, ∀ v ∈ x.values, v.IsPlain) Block.written (gap block)
      AtStatement (Refuses (gap (Matcher.word "\x7d"))) (blocksText bs ('\x7d' :: s)) bs
      ('\x7d' :: s) := by
  induction bs with
  | nil => exact .nil _
  | cons b bs ih =>
    obtain ⟨hb, hbs⟩ := List.forall_mem_cons.1 hbs
    obtain ⟨hstart, hbrace⟩ := blockText_start b (blocksText bs ('\x7d' :: s))
    refine .cons ((readsIf_block hb (follows_blocks bs s)).gap hstart.visible) hbrace ?_ (ih hbs)
    have hle := length_le_lines b.placed (blocksText bs ('\x7d' :: s))
    simp only [blocksText, List.foldr_cons, blockText, List.length_append, List.length_cons] at hle ⊢
    omega

theorem readsIf_blocks {bs : List Block} (hne : bs ≠ []) (hbs : ∀ b ∈ bs, b.IsSpelled)
    (s : List Char) :
    ReadsIf (∀ b ∈ bs, ∀ x ∈ b.placed, ∀ v ∈ x.values, v.IsPlain) (spaced₁ block)
      (blocksText bs ('\x7d' :: s)) (bs.map Block.written) ('\x7d' :: s)
      (Refuses (gap (Matcher.word "\x7d"))) := by
  match bs with
  | [] => exact absurd rfl hne
  | b :: bs =>
    obtain ⟨hb, hbs⟩ := List.forall_mem_cons.1 hbs
    have hstuck : ∀ r, AtStatement r → Refuses (gap block) r ∧ Refuses (gap (Matcher.word "\x7d")) r :=
      fun r hr => ⟨hr.refuses_block.gap hr.visible, hr.refuses_brace⟩
    have hbrace : Refuses block ('\x7d' :: s) := rfl
    have hrest := (runIf_blocks hbs s).spaced hstuck (follows_blocks bs s).visible hbrace
      (follows_brace s).visible
    refine ((readsIf_block hb (follows_blocks bs s)).bind (fun _ r hr => ?_) hrest.last).congr
      List.forall_mem_cons.symm
    exact (Reads.gap hr.visible (.bind hr.refuses_block.optional (.pure [] r))).leaves_bind
      ((Reads.pure _ r).leaves hr.refuses_brace)

/-! ## Functions -/

def parameterText (t : Temp) : List Char := t.ty.text.toList ++ ' ' :: t.text.toList

theorem reads_parameters {ts : List Temp} (hts : ∀ t ∈ ts, t.IsLocal) (s : List Char) :
    Reads (parenthesized parameter) ('(' :: (commaList (ts.map parameterText) ++ ')' :: s))
      (ts.map fun t => (t.ty, t.name)) s := by
  have htext : ∀ (t : Temp) r, parameterText t ++ r = t.ty.text.toList ++ ' ' :: (t.text.toList ++ r) := by
    simp [parameterText]
  have hclose : ∀ r, Refuses parameter (')' :: r) := fun _ => rfl
  refine (readsIf_parenthesized (A := fun _ : Temp => True) ⟨fun t ht r hr => ?_, fun t _ r => ?_⟩
    hclose (fun t _ r => ?_) s).reads fun _ _ => trivial
  · have hname := reads_localName (hts t ht).named hr
    have hlocal : t.text.toList ++ r = '%' :: (t.name.toList ++ r) := by
      simp [Temp.text, (hts t ht).notGlobal]
    rw [htext, hlocal]
    exact Reads.readsIf (.rule (.bind (reads_type t.ty (by simp))
      (.bind (.space rfl hname) (.pure _ r))))
  · rw [htext]
    exact visible_type t.ty _
  · rw [htext]
    cases t.ty <;> rfl

/-- A function, and what follows. -/
def funcText (f : Func) (s : List Char) : List Char :=
  "define ".toList ++ (f.ret.text.toList ++ ' ' :: '@' :: (f.name.toList ++
    '(' :: (commaList (f.params.map parameterText) ++ ')' :: ' ' :: '\x7b' :: '\n' ::
      blocksText f.blocks ('\x7d' :: s))))

theorem readsIf_define {f : Func} (hf : f.IsSpelled) (s : List Char) :
    ReadsIf (∀ b ∈ f.blocks, ∀ x ∈ b.placed, ∀ v ∈ x.values, v.IsPlain) define (funcText f s) f.item
      s fun _ => False := by
  have hstop : Stops ('(' :: (commaList (f.params.map parameterText) ++ ')' :: ' ' :: '\x7b' :: '\n' ::
      blocksText f.blocks ('\x7d' :: s))) := stops_cons rfl
  have hstart := follows_blocks f.blocks s
  have hdrop : dropGap (blocksText f.blocks ('\x7d' :: s)) = blocksText f.blocks ('\x7d' :: s) :=
    hstart.visible
  have hnewline := reads_newline (s := blocksText f.blocks ('\x7d' :: s)) (hdrop.symm ▸ hstart.newline)
  rw [hdrop] at hnewline
  have hclose : Reads (gap (Matcher.word "\x7d")) ('\x7d' :: s) () s := rfl
  refine .rule ((reads_word "define" _).bindIf ?_)
  refine Reads.bindIf (.space (visible_type f.ret _) (reads_type f.ret (by simp))) ?_
  refine Reads.bindIf (.space rfl (reads_globalName hf.named hstop)) ?_
  refine Reads.bindIf (.gap rfl (reads_parameters hf.params _)) ?_
  refine Reads.bindIf (.space rfl (reads_word "\x7b" _)) ?_
  refine Reads.bindIf (.gap rfl hnewline) ?_
  refine .congr (and_iff_left trivial)
    (((readsIf_blocks hf.nonempty hf.blocks s).gap hstart.visible).bind
      (fun _ _ hr => hr.bind.leaves) (Reads.readsIf ?_))
  exact .bind hclose (.pure _ s)

/-! ## Declarations -/

def declParameterText : Option Ty → List Char
  | none => "...".toList
  | some t => t.text.toList

private theorem reads_declParameter (o : Option Ty) (hs : Stops s) :
    Reads declParameter (declParameterText o ++ s) o s := by
  cases o with
  | none => exact .left (.rule (.bind (reads_word "..." s) (.pure _ s)))
  | some t =>
    have hdots : Refuses (rule do Matcher.word "..."; return (none : Option Ty)) (t.text.toList ++ s) := by
      cases t <;> rfl
    exact .right hdots (.left (reads_type t (hs.head_ne rfl)).map)

/-- A declaration, and what follows. -/
def declText (d : Decl) (s : List Char) : List Char :=
  "declare ".toList ++ (d.ret.text.toList ++ ' ' :: '@' :: (d.name.toList ++
    '(' :: (commaList (d.parameters.map declParameterText) ++ ')' :: s)))

theorem reads_declare {d : Decl} (hd : IsName d.name) (s : List Char) :
    Reads declare (declText d s) d.item s := by
  have hstop : Stops ('(' :: (commaList (d.parameters.map declParameterText) ++ ')' :: s)) :=
    stops_cons rfl
  have hclose : ∀ r, Refuses declParameter (')' :: r) := fun _ => rfl
  have hlist : Reads (parenthesized declParameter)
      ('(' :: (commaList (d.parameters.map declParameterText) ++ ')' :: s)) (d.parameters.map id) s := by
    refine (readsIf_parenthesized (A := fun _ : Option Ty => True)
      ⟨fun o _ r hr => (reads_declParameter o hr).readsIf, fun o _ r => ?_⟩ hclose
      (fun o _ r => ?_) s).reads fun _ _ => trivial
    · cases o with
      | none => rfl
      | some t => exact visible_type t r
    · cases o with
      | none => rfl
      | some t => cases t <;> rfl
  rw [List.map_id] at hlist
  refine .rule (.bind (reads_word "declare" _) ?_)
  refine .bind (.space (visible_type d.ret _) (reads_type d.ret (by simp))) ?_
  refine .bind (.space rfl (reads_globalName hd hstop)) ?_
  exact .bind (.gap rfl hlist) (.pure _ s)

/-! ## Globals -/

/-- A word of a global with its type. -/
def wordText (g : Global) (w : UInt64) : List Char :=
  g.width.text.toList ++ ' ' :: (Numeral.nat w.toNat).toList

private theorem reads_wordText (g : Global) (w : UInt64) (hs : Stops s) :
    Reads constant (wordText g w ++ s) (g.width, Numeral.nat w.toNat) s := by
  have htext : wordText g w ++ s =
      g.width.text.toList ++ ' ' :: ((Numeral.nat w.toNat).toList ++ s) := by
    simp [wordText]
  rw [htext]
  exact .rule (.bind (reads_type g.width (by simp))
    (.bind (.space (visible_nat _ _) (reads_nat _ hs.digits)) (.pure _ s)))

/-- What a global starts as, and what follows. -/
def initText (g : Global) (s : List Char) : List Char :=
  if !g.isArray then wordText g g.scalarWord ++ s
  else '[' :: ((Numeral.nat g.len).toList ++ (" x ".toList ++ (g.width.text.toList ++
    if g.isZeroed then "] zeroinitializer".toList ++ s
    else "] [".toList ++ (commaList (g.words.map (wordText g)) ++ ']' :: s))))

private theorem reads_words {g : Global} (h : g.words ≠ []) (s : List Char) :
    Reads (listed₁ constant) (commaList (g.words.map (wordText g)) ++ ']' :: s)
      (g.words.map fun w => (g.width, Numeral.nat w.toNat)) (']' :: s) := by
  have hstop : Stops (']' :: s) := stops_cons rfl
  have hlist : Listed (fun _ => True) (fun w => (g.width, Numeral.nat w.toNat)) constant (wordText g)
      g.words := by
    refine ⟨fun w _ t ht => (reads_wordText g w ht).readsIf, fun w _ t => ?_⟩
    rw [wordText, List.append_assoc]
    exact visible_type g.width _
  exact (readsIf_listed hlist h hstop rfl rfl).reads fun _ _ => trivial

private theorem visible_words (g : Global) {ws : List UInt64} (h : ws ≠ []) (s : List Char) :
    Visible (commaList (ws.map (wordText g)) ++ s) := by
  match ws with
  | [] => exact absurd rfl h
  | w :: ws =>
    rw [List.map_cons, commaList, wordText, List.append_assoc, List.append_assoc]
    exact visible_type g.width _

theorem reads_init (g : Global) (hs : Stops s) :
    Reads (choice [arrayInit, scalarInit]) (initText g s) g.init s := by
  unfold initText Global.init
  cases g.isArray with
  | false =>
    have htext : wordText g g.scalarWord ++ s =
        g.width.text.toList ++ ' ' :: ((Numeral.nat g.scalarWord.toNat).toList ++ s) := by
      simp [wordText]
    have harray : Refuses arrayInit (wordText g g.scalarWord ++ s) := by
      rw [htext]
      cases g.width <;> rfl
    have hscalar : Reads scalarInit (wordText g g.scalarWord ++ s)
        (.scalar g.width (Numeral.nat g.scalarWord.toNat)) s := by
      rw [htext]
      exact .rule (.bind (reads_type g.width (by simp))
        (.bind (.space (visible_nat _ _) (reads_nat _ hs.digits)) (.pure _ s)))
    exact .right harray (.left hscalar)
  | true =>
    have hspace (t : List Char) : Ends Char.isDigit (" x ".toList ++ t) :=
      fun _ hd => Option.some.inj hd ▸ rfl
    simp only [Bool.not_true, Bool.false_eq_true, if_false]
    refine .left (.rule (.bind (reads_word "[" _) ?_))
    refine .bind (.gap (visible_nat _ _) (reads_nat _ (hspace _))) ?_
    refine .bind (.space rfl (reads_word "x" _)) ?_
    cases hz : g.isZeroed with
    | true =>
      refine .bind (.space (visible_type g.width _) (reads_type g.width (by simp))) ?_
      refine .bind (.gap rfl (reads_word "]" _)) ?_
      exact .space rfl (.left (.rule (.bind (reads_word "zeroinitializer" s) (.pure _ s))))
    | false =>
      have hwords := Global.words_ne_nil hz
      have hzeros : Refuses
          (rule do
            Matcher.word "zeroinitializer"
            return Init.zeros (Numeral.nat g.len) g.width)
          ('[' :: (commaList (g.words.map (wordText g)) ++ ']' :: s)) := rfl
      have hclose : Reads (gap (Matcher.word "]")) (']' :: s) () s := rfl
      refine .bind (.space (visible_type g.width _) (reads_type g.width (by simp))) ?_
      refine .bind (.gap rfl (reads_word "]" _)) ?_
      refine .space rfl (.right hzeros (.left (.bind (reads_word "[" _) ?_)))
      refine .bind (.gap (visible_words g hwords _) (reads_words hwords s)) ?_
      refine .bind hclose ?_
      rw [reads_pure_iff]
      simp

/-- A global, and what follows. -/
def globalText (g : Global) (s : List Char) : List Char :=
  '@' :: (g.name.toList ++ (" = global ".toList ++ initText g s))

theorem reads_globalVariable {g : Global} (hg : IsName g.name) (hs : Stops s) :
    Reads globalVariable (globalText g s) g.item s := by
  have hvis : Visible (initText g s) := by
    unfold initText
    split
    · rw [wordText, List.append_assoc]
      exact visible_type g.width _
    · rfl
  refine .rule (.bind (reads_globalName hg (stops_cons rfl)) ?_)
  refine .bind (.space rfl (reads_word "=" _)) ?_
  refine .bind (.space rfl (reads_word "global" _)) ?_
  exact .bind (.space hvis (reads_init g hs)) (.pure _ s)

end LoopClock.Source.Grammar
