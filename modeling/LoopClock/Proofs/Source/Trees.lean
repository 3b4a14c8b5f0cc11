import LoopClock.Proofs.Source.Reading
import LoopClock.Source.Parse

/-! The text of a program as its parts one after the other, and that it is read back as the items
that these are written as, unless a float needs an exponent. -/
namespace LoopClock.Source.Grammar
open Matcher

variable {s t : List Char}

/-! ## Texts -/

private theorem toList_joined_cons (separator t : String) (texts : List String) :
    (joined separator (t :: texts)).toList =
      t.toList ++ texts.flatMap fun u => separator.toList ++ u.toList := by
  show (texts.foldl (fun text u => text ++ separator ++ u) t).toList = _
  induction texts generalizing t with
  | nil => simp
  | cons u texts ih => simp [ih]

/-- Texts on lines of their own, and what follows. -/
theorem joined_lines {texts : List String} (h : texts ≠ []) (s : List Char) :
    (joined "\n" texts).toList ++ '\n' :: s = texts.foldr (fun t r => t.toList ++ '\n' :: r) s := by
  match texts with
  | [] => exact absurd rfl h
  | t :: texts =>
    rw [toList_joined_cons]
    induction texts generalizing t with
    | nil => simp
    | cons u texts ih =>
      have ih := ih u (List.cons_ne_nil u texts)
      simp only [List.foldr_cons, List.flatMap_cons, List.append_assoc] at ih ⊢
      rw [← ih]
      rfl

theorem texts_placed (b : Block) :
    b.phis.map Phi.text ++ b.body.map Instr.text ++ b.jump.toList.map Terminator.text =
      b.placed.map Placed.text := by
  simp [Block.placed, Function.comp_def, Placed.text]

theorem text_block {b : Block} (hb : b.jump.isSome) (s : List Char) :
    b.text.toList ++ '\n' :: s = blockText b s := by
  have hne : (b.placed.map Placed.text).map ("  " ++ ·) ≠ [] := by
    obtain ⟨t, ht⟩ := Option.isSome_iff_exists.1 hb
    simp [Block.placed, ht]
  rw [Block.text, texts_placed, String.toList_append, List.append_assoc, joined_lines hne, blockText, lines,
    List.foldr_map, List.foldr_map]
  simp

theorem text_blocks {bs : List Block} (hne : bs ≠ []) (hbs : ∀ b ∈ bs, b.jump.isSome)
    (s : List Char) :
    (joined "\n" (bs.map Block.text)).toList ++ '\n' :: s = blocksText bs s := by
  rw [joined_lines (by simpa using hne), List.foldr_map, blocksText]
  clear hne
  induction bs with
  | nil => rfl
  | cons b bs ih =>
    obtain ⟨hb, hbs⟩ := List.forall_mem_cons.1 hbs
    rw [List.foldr_cons, List.foldr_cons, ih hbs, text_block hb]

theorem text_func {f : Func} (hf : f.IsSpelled) (s : List Char) :
    f.text.toList ++ s = funcText f s := by
  have hparams : (f.params.map fun p => p.ty.text ++ " " ++ p.text).map String.toList =
      f.params.map parameterText := by
    simp [parameterText]
  have hblocks := text_blocks hf.nonempty (fun b hb => (hf.blocks b hb).ends) ('\x7d' :: s)
  unfold funcText Func.text
  rw [← hblocks]
  simp [toList_joined, hparams]

theorem text_decl (d : Decl) (s : List Char) : d.text.toList ++ s = declText d s := by
  have hparams : (d.params.map Ty.text ++ if d.isVariadic then ["..."] else []).map String.toList =
      d.parameters.map declParameterText := by
    unfold Decl.parameters
    cases d.isVariadic <;> simp [declParameterText]
  unfold declText Decl.text
  rw [← hparams]
  simp [toList_joined]

theorem width_text {g : Global} (h : g.bits = 32 ∨ g.bits = 64) :
    "i" ++ Numeral.nat g.bits = g.width.text := by
  unfold Global.width
  rcases h with h | h <;> rw [h] <;> decide +kernel

theorem text_global {g : Global} (h : g.bits = 32 ∨ g.bits = 64) (s : List Char) :
    g.text.toList ++ s = globalText g s := by
  have hwords : (g.words.map fun w => g.width.text ++ " " ++ Numeral.nat w.toNat).map String.toList =
      g.words.map (wordText g) := by
    simp [wordText]
  unfold Global.text globalText initText
  rw [width_text h]
  cases g.isArray with
  | false => simp [wordText]
  | true => cases g.isZeroed <;> simp [toList_joined, hwords]

/-! ## Parts -/

/-- A part starts with a letter or with the name of a global. -/
private theorem part_start {x : Part} (hx : x.IsSpelled) (s : List Char) :
    Follows (x.text.toList ++ s) ∧ Refuses endOfText (x.text.toList ++ s) := by
  cases x with
  | decl d =>
    rw [show (Part.decl d).text = d.text from rfl, text_decl]
    exact ⟨⟨rfl, rfl, rfl⟩, rfl⟩
  | global g =>
    rw [show (Part.global g).text = g.text from rfl, text_global hx.bits]
    exact ⟨⟨rfl, rfl, rfl⟩, rfl⟩
  | func f =>
    rw [show (Part.func f).text = f.text from rfl, text_func hx]
    exact ⟨⟨rfl, rfl, rfl⟩, rfl⟩

theorem readsIf_item {x : Part} (hx : x.IsSpelled) (s : List Char) :
    ReadsIf (∀ v ∈ x.values, v.IsPlain) item (x.text.toList ++ '\n' :: s) x.item ('\n' :: s)
      fun _ => False := by
  cases x with
  | decl d =>
    rw [show (Part.decl d).text = d.text from rfl, text_decl]
    exact (Reads.left (reads_declare hx _)).readsIf.congr (by simp [Part.values])
  | global g =>
    rw [show (Part.global g).text = g.text from rfl, text_global hx.bits]
    have hdeclare : Refuses declare (globalText g ('\n' :: s)) := rfl
    exact (Reads.right hdeclare (.left (reads_globalVariable hx.named (stops_cons rfl)))).readsIf.congr
      (by simp [Part.values])
  | func f =>
    rw [show (Part.func f).text = f.text from rfl, text_func hx]
    refine .congr ?_ (.of_result (q := define) (result_choice [declare, globalVariable] [] ?_)
      (readsIf_define hx _))
    · simp only [Part.values, Func.values, Block.values, List.mem_flatMap]
      exact ⟨fun h v ⟨b, hb, x, hx, hv⟩ => h b hb x hx v hv,
        fun h b hb x hx v hv => h v ⟨b, hb, x, hx, hv⟩⟩
    · simp only [List.append_nil, List.forall_mem_cons]
      exact ⟨rfl, rfl, by simp⟩

/-- Parts one after the other, each with a newline or more behind it. -/
inductive Spread : List Part → List Char → Prop where
  | nil : Spread [] []
  | cons (x : Part) (k : Nat) {xs : List Part} {s : List Char} :
    Spread xs s → Spread (x :: xs) (x.text.toList ++ (List.replicate (k + 1) '\n' ++ s))

private theorem spread_funcs (f : Func) (fs : List Func) :
    Spread ((f :: fs).map .func) ((joined "\n\n" ((f :: fs).map Func.text)).toList ++ ['\n']) := by
  rw [List.map_cons, List.map_cons, toList_joined_cons]
  induction fs generalizing f with
  | nil => simpa [Part.text] using Spread.cons (.func f) 0 .nil
  | cons g fs ih =>
    have h := Spread.cons (.func f) 1 (ih g)
    simpa [Part.text] using h

/-- The parts without blocks, which stand on lines of their own, in front of others. -/
private theorem spread_lines (x : Part) (xs : List Part) (k : Nat) {ys : List Part}
    (h : Spread ys s) :
    Spread (x :: xs ++ ys) (((x :: xs).flatMap fun y => y.text.toList ++ ['\n']) ++
      (List.replicate k '\n' ++ s)) := by
  induction xs generalizing x with
  | nil =>
    have h := Spread.cons x k h
    simpa [List.replicate_succ] using h
  | cons y xs ih =>
    have h := Spread.cons x 0 (ih y)
    simpa using h

/-- The text of a program that has any part at all. -/
theorem spread_text (p : Program) (h : p.parts ≠ []) : Spread p.parts p.text.toList := by
  have hlines : p.decls.map Decl.text ++ p.globals.map Global.text =
      (p.decls.map Part.decl ++ p.globals.map Part.global).map Part.text := by
    simp [Function.comp_def, Part.text]
  unfold Program.text
  rw [hlines]
  unfold Program.parts at h ⊢
  generalize p.decls.map Part.decl ++ p.globals.map Part.global = xs at h
  have hjoin : (String.join ((xs.map Part.text).map (· ++ "\n"))).toList =
      xs.flatMap fun y => y.text.toList ++ ['\n'] := by
    simp [List.flatMap_map]
  simp only [String.toList_append, hjoin, List.isEmpty_map]
  match xs, p.funcs, h with
  | [], f :: fs, _ => simpa using spread_funcs f fs
  | x :: xs, [], _ => simpa [joined] using spread_lines x xs 2 .nil
  | x :: xs, f :: fs, _ => simpa using spread_lines x xs 1 (spread_funcs f fs)

/-! ## Programs -/

def itemLine : Matcher Item := do
  let i ← item
  discard (gap (optional newlines))
  return i

private theorem spread_start {xs : List Part} (h : Spread xs s) (hxs : ∀ x ∈ xs, x.IsSpelled) :
    Follows s ∧ (xs ≠ [] → Refuses (gap endOfText) s) := by
  cases h with
  | nil => exact ⟨⟨rfl, rfl, rfl⟩, (absurd rfl ·)⟩
  | cons x k h =>
    obtain ⟨hstart, hend⟩ := part_start (List.forall_mem_cons.1 hxs).1 (List.replicate (k + 1) '\n' ++ _)
    exact ⟨hstart, fun _ => hend.gap hstart.visible⟩

private theorem readsIf_itemLine {x : Part} (hx : x.IsSpelled) (k : Nat) (hs : Follows s) :
    ReadsIf (∀ v ∈ x.values, v.IsPlain) itemLine
      (x.text.toList ++ (List.replicate (k + 1) '\n' ++ s)) x.item s fun _ => False := by
  have hnewlines : Reads (discard (gap (optional newlines))) (List.replicate (k + 1) '\n' ++ s) () s :=
    Reads.map (.gap rfl (reads_newlines k hs.visible hs.newline).optional)
  have hitem := readsIf_item hx (List.replicate k '\n' ++ s)
  exact .congr (and_iff_left trivial)
    (hitem.bind (fun _ _ => False.elim) (Reads.readsIf (.bind hnewlines (.pure _ s))))

private theorem runIf_parts {xs : List Part} (h : Spread xs s) (hxs : ∀ x ∈ xs, x.IsSpelled) :
    RunIf (fun x : Part => ∀ v ∈ x.values, v.IsPlain) Part.item (gap itemLine) (fun _ => False)
      (Refuses (gap endOfText)) s xs [] := by
  induction h with
  | nil => exact .nil []
  | @cons x k xs s h ih =>
    obtain ⟨hx, hrest⟩ := List.forall_mem_cons.1 hxs
    obtain ⟨hstart, hend⟩ := part_start hx (List.replicate (k + 1) '\n' ++ s)
    have hline := readsIf_itemLine hx k (spread_start h hrest).1
    refine .cons (hline.gap hstart.visible) (hend.gap hstart.visible) ?_ (ih hrest)
    simp only [List.length_append, List.length_replicate]
    omega

private theorem readsIf_parts {xs : List Part} (h : Spread xs s) (hxs : ∀ x ∈ xs, x.IsSpelled)
    (ht : Reads (discard (gap (optional newlines))) t () s) :
    ReadsIf (∀ x ∈ xs, ∀ v ∈ x.values, v.IsPlain) program t (xs.map Part.item) []
      fun _ => False := by
  have hnone : Refuses itemLine [] := rfl
  have hitems := (runIf_parts h hxs).spaced (fun _ => False.elim) (spread_start h hxs).1.visible hnone
    rfl
  refine .rule (ht.bindIf (.congr (and_iff_left trivial) ?_))
  refine hitems.bind (fun _ _ hr => hr.bind.leaves) (Reads.readsIf ?_)
  exact .bind (show Reads (gap endOfText) [] () [] from rfl) (.pure _ [])

theorem readsIf_program {p : Program} (hp : p.IsSpelled) :
    ReadsIf p.IsPlain program p.text.toList p.items [] fun _ => False := by
  by_cases h : p.parts = []
  · have htext : p.text.toList = ['\n'] := by
      simp only [Program.parts, List.append_eq_nil_iff, List.map_eq_nil_iff] at h
      obtain ⟨⟨hdecls, hglobals⟩, hfuncs⟩ := h
      unfold Program.text
      rw [hdecls, hglobals, hfuncs]
      rfl
    have hnewline : Reads (discard (gap (optional newlines))) ['\n'] () [] := rfl
    rw [htext]
    have := readsIf_parts .nil (fun _ h => nomatch h) hnewline
    unfold Program.IsPlain Program.items
    rw [h]
    exact this
  · have hspread := spread_text p h
    obtain ⟨hstart, -⟩ := spread_start hspread hp
    have hnone : Reads (discard (gap (optional newlines))) p.text.toList () p.text.toList :=
      Reads.map (.gap hstart.visible (Refuses.optional (Refuses.map hstart.newline.bind)))
    exact readsIf_parts hspread hp hnone

end Grammar

theorem tree_eq_ok {s : List Char} {items : List Item} :
    tree s = .ok items ↔ ∃ r, Matcher.Reads Grammar.program s items r := by
  unfold tree Matcher.Reads
  split
  · next h => simp [h]
  · next h => simp [h]

theorem tree_text {p : Program} (hp : p.IsSpelled) (h : p.IsPlain) :
    tree p.text.toList = .ok p.items :=
  tree_eq_ok.2 ⟨[], (Grammar.readsIf_program hp).reads h⟩

theorem isPlain_of_tree {p : Program} (hp : p.IsSpelled) {items : List Item}
    (h : tree p.text.toList = .ok items) : p.IsPlain := by
  obtain ⟨r, hr⟩ := tree_eq_ok.1 h
  by_contra hplain
  exact (Grammar.readsIf_program hp).stuck hplain items r hr

end LoopClock.Source
