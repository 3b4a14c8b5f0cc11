import LoopClock.Proofs.Source.Reread
import LoopClock.Proofs.Source.Trees

/-! Programs that are read from their own text. A global has to be printed with numbers that can be
read; it then comes back with its words one by one, or as one run of zeros. -/
namespace LoopClock
open Source

namespace Global

/-- The numbers in the text of a global. -/
def numbers (g : Global) : List Nat :=
  if !g.isArray then [g.scalarWord.toNat]
  else if g.isZeroed then [g.len] else g.len :: g.words.map UInt64.toNat

/-- Words are printed without a sign, and numbers are read as signed ones of 64 bits. -/
def IsNarrow (g : Global) : Prop := ∀ n ∈ g.numbers, n < 0x8000000000000000

/-- A global as it is read from its text. -/
def reread (g : Global) : Global :=
  if !g.isArray then ⟨g.name, [.word g.scalarWord], g.bits, false⟩
  else if g.isZeroed then .zeroed g.name g.len g.bits
  else ⟨g.name, g.words.map .word, g.bits, true⟩

theorem length_words (g : Global) : g.words.length = g.len := by
  obtain ⟨_, items, _, _⟩ := g
  show (items.flatMap Item.words).length = lenOf items
  induction items with
  | nil => rfl
  | cons i items ih =>
    rw [List.flatMap_cons, List.length_append, ih]
    cases i <;> simp [lenOf, Item.words, Item.len]

theorem bits_width {g : Global} (h : g.bits = 32 ∨ g.bits = 64) : g.width.bits = g.bits := by
  unfold width
  rcases h with h | h <;> rw [h] <;> rfl

end Global

namespace Source

/-! ## Globals -/

theorem word_nat {w v : UInt64} :
    word (Numeral.nat w.toNat) = .ok v ↔ w.toNat < 0x8000000000000000 ∧ w = v := by
  have hw : (Int64.ofInt (w.toNat : Int)).toUInt64 = w := by
    simp [Int64.ofInt_eq_ofNat]
  simp only [word, bind_eq_ok, pure_eq_ok, integer_nat]
  constructor
  · rintro ⟨i, ⟨hlt, rfl⟩, h⟩
    exact ⟨hlt, hw.symm.trans h⟩
  · rintro ⟨hlt, rfl⟩
    exact ⟨_, ⟨hlt, rfl⟩, hw⟩

theorem lengthOf_nat {name : String} {n m : Nat} :
    lengthOf name (Numeral.nat n) = .ok m ↔ n < 0x8000000000000000 ∧ n = m := by
  simp only [lengthOf, bind_eq_ok, integer_nat]
  constructor
  · rintro ⟨i, ⟨hlt, rfl⟩, h⟩
    rw [if_neg (by omega)] at h
    exact ⟨hlt, pure_eq_ok.1 h⟩
  · rintro ⟨hlt, rfl⟩
    refine ⟨_, ⟨hlt, rfl⟩, ?_⟩
    rw [if_neg (by omega)]
    rfl

private theorem mapM_words {ws : List UInt64} {data : List Global.Item} :
    (ws.map fun w => Numeral.nat w.toNat).mapM
        (fun v => do return Global.Item.word (← word v) : String → Except Fault Global.Item) =
      .ok data ↔ (∀ n ∈ ws.map UInt64.toNat, n < 0x8000000000000000) ∧
        ws.map Global.Item.word = data := by
  induction ws generalizing data with
  | nil => simp [pure_eq_ok]
  | cons w ws ih =>
    simp only [List.map_cons, List.mapM_cons, bind_eq_ok, pure_eq_ok, word_nat, ih,
      List.forall_mem_cons]
    constructor
    · rintro ⟨_, ⟨_, ⟨hw, rfl⟩, rfl⟩, _, ⟨hws, rfl⟩, rfl⟩
      exact ⟨⟨hw, hws⟩, rfl⟩
    · rintro ⟨⟨hw, hws⟩, rfl⟩
      exact ⟨_, ⟨_, ⟨hw, rfl⟩, rfl⟩, _, ⟨hws, rfl⟩, rfl⟩

theorem globalOf_init {g h : Global} (hg : g.IsSpelled) :
    globalOf g.name g.init = .ok h ↔ g.IsNarrow ∧ g.reread = h := by
  have hbits := Global.bits_width hg.bits
  unfold Global.init Global.IsNarrow Global.numbers Global.reread
  cases harray : g.isArray with
  | false =>
    show globalOf g.name (.scalar g.width (Numeral.nat g.scalarWord.toNat)) = _ ↔ _
    simp only [globalOf, bind_eq_ok, pure_eq_ok, word_nat, hbits]
    simp
  | true =>
    cases hzeroed : g.isZeroed with
    | true =>
      show globalOf g.name (.zeros (Numeral.nat g.len) g.width) = _ ↔ _
      simp only [globalOf, bind_eq_ok, pure_eq_ok, lengthOf_nat, hbits]
      simp
    | false =>
      show globalOf g.name (.words (Numeral.nat g.len) g.width
        (g.words.map fun w => Numeral.nat w.toNat)) = _ ↔ _
      simp only [globalOf, bind_eq_ok, lengthOf_nat, mapM_words, hbits]
      constructor
      · rintro ⟨_, ⟨hlen, rfl⟩, _, ⟨hwords, rfl⟩, h⟩
        rw [List.length_map, Global.length_words, if_pos rfl] at h
        exact ⟨List.forall_mem_cons.2 ⟨hlen, hwords⟩, pure_eq_ok.1 h⟩
      · rintro ⟨hnarrow, rfl⟩
        obtain ⟨hlen, hwords⟩ := List.forall_mem_cons.1 hnarrow
        refine ⟨_, ⟨hlen, rfl⟩, _, ⟨hwords, rfl⟩, ?_⟩
        rw [List.length_map, Global.length_words, if_pos rfl]
        rfl

end Source

/-! ## Programs -/

namespace Program

/-- A program as it is read from its text. -/
def reread (p : Program) : Program :=
  ⟨p.decls, p.globals.map Global.reread, p.funcs.mapIdx Func.reread,
    highest (p.funcs.mapIdx Func.reread)⟩

/-- What the reader needs of a program to read it from its text, but for floats and numbers. -/
structure Readable (p : Program) : Prop where
  decls : ∀ d ∈ p.decls, IsName d.name
  globals : ∀ g ∈ p.globals, g.IsSpelled
  funcs : ∀ f ∈ p.funcs, f.Readable
  names : (p.funcs.map (·.name)).Nodup

theorem Readable.isSpelled {p : Program} (hp : p.Readable) : p.IsSpelled := by
  simp only [IsSpelled, parts, List.mem_append, List.mem_map]
  rintro x ((⟨d, hd, rfl⟩ | ⟨g, hg, rfl⟩) | ⟨f, hf, rfl⟩)
  · exact hp.decls d hd
  · exact hp.globals g hg
  · exact (hp.funcs f hf).spelled

theorem isPlain_iff {p : Program} : p.IsPlain ↔ ∀ f ∈ p.funcs, ∀ v ∈ f.values, v.IsPlain := by
  constructor
  · exact fun h f hf => h (.func f) (by simp [parts, hf])
  · simp only [IsPlain, parts, List.mem_append, List.mem_map]
    rintro h x ((⟨d, -, rfl⟩ | ⟨g, -, rfl⟩) | ⟨f, hf, rfl⟩)
    · exact List.forall_mem_nil _
    · exact List.forall_mem_nil _
    · exact h f hf

end Program

namespace Source

theorem declaration_parameters (d : Decl) : declaration d.ret d.name d.parameters = d := by
  obtain ⟨name, ret, params, isVariadic⟩ := d
  unfold Decl.parameters
  cases isVariadic <;> simp [declaration]

private theorem foldlM_decls (p : Program) (ds : List Decl) :
    (ds.map Decl.item).foldlM addItem p = .ok { p with decls := p.decls ++ ds } := by
  induction ds generalizing p with
  | nil => simp [pure, Except.pure]
  | cons d ds ih =>
    have hadd : addItem p d.item = .ok { p with decls := p.decls ++ [d] } := by
      rw [Decl.item, addItem, declaration_parameters]
    rw [List.map_cons, List.foldlM_cons, hadd]
    refine (ih _).trans ?_
    simp

private theorem foldlM_globals {p q : Program} {gs : List Global} (hgs : ∀ g ∈ gs, g.IsSpelled) :
    (gs.map Global.item).foldlM addItem p = .ok q ↔
      (∀ g ∈ gs, g.IsNarrow) ∧ { p with globals := p.globals ++ gs.map Global.reread } = q := by
  induction gs generalizing p with
  | nil => simp [pure_eq_ok]
  | cons g gs ih =>
    obtain ⟨hg, hgs⟩ := List.forall_mem_cons.1 hgs
    have hadd (r : Program) : addItem p g.item = .ok r ↔
        g.IsNarrow ∧ { p with globals := p.globals ++ [g.reread] } = r := by
      simp only [Global.item, addItem, bind_eq_ok, globalOf_init hg, pure_eq_ok]
      exact ⟨fun ⟨_, ⟨hn, rfl⟩, h⟩ => ⟨hn, h⟩, fun ⟨hn, h⟩ => ⟨_, ⟨hn, rfl⟩, h⟩⟩
    simp only [List.map_cons, List.foldlM_cons, bind_eq_ok, hadd, ih hgs, List.forall_mem_cons]
    constructor
    · rintro ⟨_, ⟨hn, rfl⟩, hns, rfl⟩
      exact ⟨⟨hn, hns⟩, by simp⟩
    · rintro ⟨⟨hn, hns⟩, rfl⟩
      exact ⟨_, ⟨hn, rfl⟩, hns, by simp⟩

private theorem foldlM_funcs {p : Program} {fs : List Func} (hfs : ∀ f ∈ fs, f.Readable)
    (hr : ∀ f ∈ fs, ∀ v ∈ f.values, v.IsPlain) (hn : ((p.funcs ++ fs).map (·.name)).Nodup) :
    (fs.map Func.item).foldlM addItem p =
      .ok { p with funcs := p.funcs ++ fs.mapIdx fun i => Func.reread (i + p.funcs.length) } := by
  induction fs generalizing p with
  | nil => simp [pure, Except.pure]
  | cons f fs ih =>
    obtain ⟨hf, hfs⟩ := List.forall_mem_cons.1 hfs
    obtain ⟨hv, hr⟩ := List.forall_mem_cons.1 hr
    have hnew : p.func? f.name = none := by
      rw [Program.func?, List.find?_eq_none]
      intro g hg heq
      rw [List.map_append, List.nodup_append] at hn
      exact hn.2.2 g.name (List.mem_map_of_mem hg) f.name (by simp) (by simpa using heq)
    have hadd : addItem p f.item = .ok { p with funcs := p.funcs ++ [f.reread p.funcs.length] } := by
      rw [Func.item, addItem, function_written hf hv]
      show (if _ then _ else _) = _
      rw [hnew]
      rfl
    have hn' : (((p.funcs ++ [f.reread p.funcs.length]) ++ fs).map (·.name)).Nodup := by
      simpa [Func.reread, Func.assembled] using hn
    rw [List.map_cons, List.foldlM_cons, hadd]
    refine (ih (p := { p with funcs := p.funcs ++ [f.reread p.funcs.length] }) hfs hr hn').trans ?_
    simp [List.mapIdx_cons, Nat.add_comm, Nat.add_left_comm]

theorem program_items {p q : Program} (hp : p.Readable) (hplain : p.IsPlain) :
    program p.items = .ok q ↔ (∀ g ∈ p.globals, g.IsNarrow) ∧ p.reread = q := by
  have hitems : p.items = p.decls.map Decl.item ++
      (p.globals.map Global.item ++ p.funcs.map Func.item) := by
    simp [Program.items, Program.parts, Part.item, Function.comp_def]
  have hdecls := foldlM_decls {} p.decls
  have hfuncs (r : Program) (h : r.funcs = []) := @foldlM_funcs r p.funcs hp.funcs
    (Program.isPlain_iff.1 hplain) (by simpa [h] using hp.names)
  simp only [program, hitems, List.foldlM_append, hdecls, bind_eq_ok, foldlM_globals hp.globals,
    pure_eq_ok, Except.ok.injEq]
  constructor
  · rintro ⟨_, ⟨_, rfl, _, ⟨hn, rfl⟩, h⟩, rfl⟩
    rw [hfuncs _ rfl] at h
    obtain rfl := Except.ok.inj h
    exact ⟨hn, by simp [Program.reread]⟩
  · rintro ⟨hn, rfl⟩
    refine ⟨_, ⟨_, rfl, _, ⟨hn, rfl⟩, hfuncs _ rfl⟩, ?_⟩
    simp [Program.reread]

/-- What is read from the text of a program, if anything is. -/
theorem parse_text {p q : Program} (hp : p.Readable) :
    parse p.text = .ok q ↔ p.IsPlain ∧ (∀ g ∈ p.globals, g.IsNarrow) ∧ p.reread = q := by
  rw [parse, bind_eq_ok]
  simp only [mapError_eq_ok]
  constructor
  · rintro ⟨items, hitems, hq⟩
    have hplain := isPlain_of_tree hp.isSpelled hitems
    rw [tree_text hp.isSpelled hplain] at hitems
    obtain rfl := Except.ok.inj hitems
    exact ⟨hplain, (program_items hp hplain).1 hq⟩
  · rintro ⟨hplain, hq⟩
    exact ⟨p.items, tree_text hp.isSpelled hplain, (program_items hp hplain).2 hq⟩

/-! ## What has been read -/

/-- All parts of a program can be read again, and the globals and functions come back as they are
but for instructions that compute addresses. -/
structure Rereadable (p : Program) : Prop where
  decls : ∀ d ∈ p.decls, IsName d.name
  globals : ∀ g ∈ p.globals, g.IsSpelled ∧ g.len < 0x8000000000000000 ∧ g.reread = g
  funcs : ∀ i f, p.funcs[i]? = some f → f.Readable ∧
    Func.assembled i f.name f.ret f.params (f.blocks.map Block.bare) = f

private theorem words_of_mapM {values : List String} {data : List Global.Item}
    (h : values.mapM
      (fun v => do return Global.Item.word (← word v) : String → Except Fault Global.Item) = .ok data) :
    ∃ ws : List UInt64, data = ws.map .word ∧ ws.length = values.length := by
  have hf := mapM_ok h
  clear h
  induction hf with
  | nil => exact ⟨[], rfl, rfl⟩
  | cons h _ ih =>
    obtain ⟨ws, rfl, hlength⟩ := ih
    obtain ⟨w, -, h⟩ := bind_eq_ok.1 h
    obtain rfl := pure_eq_ok.1 h
    exact ⟨w :: ws, rfl, by simp [hlength]⟩

/-- A list of words is one of words alone, so it is printed word by word. -/
private theorem reread_words (name : String) {ws : List UInt64} (hws : ws ≠ []) (bits : Nat) :
    Global.reread ⟨name, ws.map .word, bits, true⟩ = ⟨name, ws.map .word, bits, true⟩ := by
  obtain ⟨w, ws, rfl⟩ := List.exists_cons_of_ne_nil hws
  have hwords : Global.words ⟨name, (w :: ws).map .word, bits, true⟩ = w :: ws := by
    simp [Global.words, Global.Item.words, List.flatMap_map]
  unfold Global.reread
  rw [hwords]
  rfl

theorem global_of_globalOf {name : String} {init : Init} {g : Global} (hname : IsName name)
    (hi : init.IsSpelled) (h : globalOf name init = .ok g) :
    g.IsSpelled ∧ g.len < 0x8000000000000000 ∧ g.reread = g := by
  have hbits (ty : Ty) : ty.bits = 32 ∨ ty.bits = 64 := by cases ty <;> decide
  have hlen {text : String} {n : Nat} (h : lengthOf name text = .ok n) : n < 0x8000000000000000 := by
    obtain ⟨i, hi, h⟩ := bind_eq_ok.1 h
    rw [integer] at hi
    split at hi
    · next hi' =>
      obtain rfl := Except.ok.inj hi
      obtain ⟨-, hfits⟩ := Option.filter_eq_some_iff.1 hi'
      simp only [Numeral.fits64, Bool.and_eq_true, decide_eq_true_eq] at hfits
      split at h
      · cases h
      · obtain rfl := pure_eq_ok.1 h
        omega
    · cases hi
  cases init with
  | scalar ty value =>
    obtain ⟨w, -, h⟩ := bind_eq_ok.1 h
    obtain rfl := pure_eq_ok.1 h
    have hone : Global.len ⟨name, [.word w], ty.bits, false⟩ = 1 := rfl
    exact ⟨⟨hname, hbits ty⟩, by omega, rfl⟩
  | zeros len ty =>
    obtain ⟨n, hn, h⟩ := bind_eq_ok.1 h
    obtain rfl := pure_eq_ok.1 h
    exact ⟨⟨hname, hbits ty⟩, hlen hn, rfl⟩
  | words len ty values =>
    obtain ⟨n, hn, h⟩ := bind_eq_ok.1 h
    obtain ⟨data, hdata, h⟩ := bind_eq_ok.1 h
    split at h
    · next hlength =>
      obtain rfl := pure_eq_ok.1 h
      obtain ⟨ws, rfl, hws⟩ := words_of_mapM hdata
      have hne : ws ≠ [] := fun hnil => hi (List.length_eq_zero_iff.1 (by simp [← hws, hnil]))
      have hsize : Global.len ⟨name, ws.map .word, ty.bits, true⟩ = n := by
        rw [← hlength, ← Global.length_words]
        simp [Global.words, Global.Item.words, List.flatMap_map]
      exact ⟨⟨hname, hbits ty⟩, hsize ▸ hlen hn, reread_words name hne ty.bits⟩
    · cases h

private theorem rereadable_of_addItem {p q : Program} {i : Item} (hi : i.IsSpelled)
    (hp : Rereadable p) (h : addItem p i = .ok q) : Rereadable q := by
  obtain ⟨hdecls, hglobals, hfuncs⟩ := hp
  cases i with
  | declare ret name params =>
    obtain rfl := Except.ok.inj h
    have hname : IsName name := hi
    exact ⟨List.forall_mem_append.2 ⟨hdecls, by simpa [declaration] using hname⟩, hglobals, hfuncs⟩
  | globalVar name init =>
    obtain ⟨g, hg, h⟩ := bind_eq_ok.1 h
    obtain rfl := pure_eq_ok.1 h
    have hg := global_of_globalOf hi.1 hi.2 hg
    exact ⟨hdecls, List.forall_mem_append.2 ⟨hglobals, by simpa using hg⟩, hfuncs⟩
  | define ret name params sections =>
    obtain ⟨f, hf, h⟩ := bind_eq_ok.1 h
    obtain ⟨hname, hparams, hsections⟩ := hi
    have hf := readable_of_function hname hparams hsections hf
    dsimp only at h
    split at h
    · cases h
    · obtain rfl := pure_eq_ok.1 h
      refine ⟨hdecls, hglobals, fun i g hg => ?_⟩
      rw [List.getElem?_append] at hg
      split at hg
      · exact hfuncs i g hg
      · obtain ⟨hlt, rfl⟩ := List.getElem?_eq_some_iff.1 hg
        obtain rfl : i = p.funcs.length := by
          simp only [List.length_singleton] at hlt
          omega
        simpa using hf

theorem rereadable_of_parse {text : String} {p : Program} (h : parse text = .ok p) :
    Rereadable p ∧ p.temps = highest p.funcs := by
  obtain ⟨items, hitems, h⟩ := bind_eq_ok.1 h
  obtain ⟨r, hread⟩ := tree_eq_ok.1 hitems
  have hspelled := Grammar.gives_program _ _ _ hread
  obtain ⟨q, hq, h⟩ := bind_eq_ok.1 (mapError_eq_ok.1 h)
  obtain rfl := pure_eq_ok.1 h
  have start : Rereadable {} := ⟨List.forall_mem_nil _, List.forall_mem_nil _, fun _ _ h => nomatch h⟩
  have hp := foldlM_ok_of_mem (fun i hi _ _ => rereadable_of_addItem (hspelled i hi)) start hq
  exact ⟨⟨hp.decls, hp.globals, hp.funcs⟩, rfl⟩

theorem readable_of_parse {text : String} {p : Program} (h : parse text = .ok p) : p.Readable := by
  obtain ⟨⟨hdecls, hglobals, hfuncs⟩, -⟩ := rereadable_of_parse h
  refine ⟨hdecls, fun g hg => (hglobals g hg).1, fun f hf => ?_, (wellformed_of_parse h).names⟩
  obtain ⟨i, hi⟩ := List.getElem?_of_mem hf
  exact (hfuncs i f hi).1

/-- An instruction with the type that the result of an address computation is read with. -/
def retyped : Instr → Instr
  | .gep t ty addr offset => .gep { t with ty := addr.ty } ty addr offset
  | i => i

theorem reread_phi {φ : Phi} (h : ∀ v ∈ φ.values, v.reread = v) : φ.reread = φ := by
  have hsource : φ.source.map (fun s => (s.1.reread, s.2)) = φ.source :=
    (List.map_congr_left fun s hs => congrArg (·, s.2) (h s.1 (List.mem_map_of_mem hs))).trans
      (List.map_id _)
  rw [Phi.reread, hsource]

theorem reread_instr {i : Instr} (h : ∀ v ∈ i.values, v.reread = v) : i.reread = retyped i := by
  cases i with
  | call t ty callee args =>
    have hargs : args.map (fun a => (a.1, a.2.reread)) = args :=
      (List.map_congr_left fun a ha => congrArg (a.1, ·) (h a.2 (List.mem_map_of_mem ha))).trans
        (List.map_id _)
    rw [Instr.reread, hargs]
    rfl
  | _ => simp_all [Instr.values, Instr.reread, retyped]

theorem reread_terminator {t : Terminator} (h : ∀ v ∈ t.values, v.reread = v) : t.reread = t := by
  cases t with
  | jump l => rfl
  | branch ty cond l m => rw [Terminator.reread, h cond (List.mem_singleton_self _)]
  | ret value =>
    cases value with
    | none => rfl
    | some v => rw [Terminator.reread, Option.map_some, h v (List.mem_singleton_self _)]

theorem placed_reread (b : Block) : b.reread.placed = b.placed.map Placed.reread := by
  simp [Block.placed, Block.reread, Block.bare, Placed.reread, Function.comp_def, Option.toList_map]

theorem block_reread {b : Block} (h : ∀ x ∈ b.placed, x.reread = x) : b.reread = b.bare := by
  have hphis : b.phis.map Phi.reread = b.phis :=
    (List.map_congr_left fun φ hφ => Placed.phi.inj (h (.phi φ) (by simp [Block.placed, hφ]))).trans
      (List.map_id _)
  have hbody : b.body.map Instr.reread = b.body :=
    (List.map_congr_left fun i hi => Placed.body.inj (h (.body i) (by simp [Block.placed, hi]))).trans
      (List.map_id _)
  have hjump : b.jump.map Terminator.reread = b.jump :=
    (Option.map_congr fun t ht => Placed.last.inj (h (.last t) (by simp [Block.placed, ht]))).trans
      Option.map_id_apply
  rw [Block.reread, hphis, hbody, hjump]
  rfl

theorem text_block_reread {b : Block} (h : ∀ v ∈ b.values, v.reread = v) :
    b.reread.text = b.text := by
  have htext : ∀ x ∈ b.placed, x.reread.text = x.text := by
    intro x hx
    have hx : ∀ v ∈ x.values, v.reread = v := fun v hv => h v (List.mem_flatMap.2 ⟨x, hx, hv⟩)
    cases x with
    | phi φ => exact congrArg Phi.text (reread_phi hx)
    | body i =>
      refine (congrArg Instr.text (reread_instr hx)).trans ?_
      cases i <;> rfl
    | last t => exact congrArg Terminator.text (reread_terminator hx)
  have hplaced : b.reread.placed.map Placed.text = b.placed.map Placed.text := by
    rw [placed_reread, List.map_map]
    exact List.map_congr_left htext
  rw [Block.text, Grammar.texts_placed, hplaced, Block.text, Grammar.texts_placed]
  rfl

section
variable {p : Program} (R : Rereadable p)
include R

theorem isNarrow_iff {g : Global} (hg : g ∈ p.globals) :
    g.IsNarrow ↔ ∀ w ∈ g.words, w.toNat < 0x8000000000000000 := by
  obtain ⟨-, hlen, hself⟩ := R.globals g hg
  unfold Global.IsNarrow Global.numbers
  cases harray : g.isArray with
  | false =>
    have hwords : g.words = [g.scalarWord] := by
      rw [← hself, Global.reread, harray]
      rfl
    simp [hwords]
  | true =>
    cases hzeroed : g.isZeroed with
    | true =>
      have hwords : g.words = List.replicate g.len 0 := by
        rw [← hself, Global.reread, harray, hzeroed]
        simp [Global.words, Global.zeroed, Global.Item.words, Global.len, Global.lenOf, Global.Item.len]
      simp +contextual [hwords, hlen]
    | false => simp [hlen]

theorem globals_reread : p.globals.map Global.reread = p.globals :=
  (List.map_congr_left fun g hg => (R.globals g hg).2.2).trans (List.map_id _)

theorem text_reread (hv : ∀ f ∈ p.funcs, ∀ v ∈ f.values, v.reread = v) :
    p.reread.text = p.text := by
  have hfunc (i : Nat) (f : Func) (hi : p.funcs[i]? = some f) : (f.reread i).text = f.text := by
    have hblocks : (f.reread i).blocks.map Block.text = f.blocks.map Block.text :=
      calc (f.reread i).blocks.map Block.text
        _ = ((f.reread i).blocks.map Block.bare).map Block.text := by
          rw [List.map_map]
          rfl
        _ = ((f.blocks.map Block.reread).map Block.bare).map Block.text := by
          rw [show (f.reread i).blocks = linked i _ from rfl, bare_linked]
        _ = f.blocks.map Block.text := by
          rw [List.map_map, List.map_map]
          exact List.map_congr_left fun b hb => text_block_reread fun v hvb =>
            hv f (List.mem_of_getElem? hi) v (List.mem_flatMap.2 ⟨b, hb, hvb⟩)
    unfold Func.text
    rw [hblocks]
    rfl
  have hfuncs : (p.funcs.mapIdx Func.reread).map Func.text = p.funcs.map Func.text := by
    refine List.ext_getElem? fun i => ?_
    rw [List.getElem?_map, List.getElem?_map, List.getElem?_mapIdx, Option.map_map]
    exact Option.map_congr fun f hf => hfunc i f hf
  unfold Program.text Program.reread
  rw [globals_reread R, hfuncs]

omit R in
/-- The statements of a function that comes back are themselves. -/
private theorem placed_of_reread {i : Nat} {f : Func} (h : f.reread i = f) {b : Block}
    (hb : b ∈ f.blocks) : ∀ x ∈ b.placed, x.reread = x := by
  have hblocks : (f.blocks.map Block.reread).map Block.bare = f.blocks.map Block.bare := by
    rw [← bare_linked i]
    exact congrArg (fun f : Func => f.blocks.map Block.bare) h
  rw [List.map_map, List.map_inj_left] at hblocks
  have hself : b.reread.bare.placed = b.bare.placed := congrArg Block.placed (hblocks b hb)
  have hplaced : b.placed.map Placed.reread = b.placed := (placed_reread b).symm.trans hself
  exact List.map_inj_left.1 (hplaced.trans (List.map_id _).symm)

theorem reread_eq_iff (ht : p.temps = highest p.funcs) : p.reread = p ↔
    ∀ f ∈ p.funcs, ∀ b ∈ f.blocks, ∀ x ∈ b.placed, x.reread = x := by
  constructor
  · intro h f hf b hb
    obtain ⟨i, hi⟩ := List.getElem?_of_mem hf
    have hfuncs : p.funcs.mapIdx Func.reread = p.funcs := congrArg Program.funcs h
    have hself : (p.funcs.mapIdx Func.reread)[i]? = some f := (congrArg (·[i]?) hfuncs).trans hi
    rw [List.getElem?_mapIdx, hi, Option.map_some] at hself
    exact placed_of_reread (Option.some.inj hself) hb
  · intro h
    have hfunc (i : Nat) (f : Func) (hi : p.funcs[i]? = some f) : f.reread i = f := by
      have hblocks : f.blocks.map Block.reread = f.blocks.map Block.bare :=
        List.map_congr_left fun b hb => block_reread (h f (List.mem_of_getElem? hi) b hb)
      rw [Func.reread, hblocks]
      exact (R.funcs i f hi).2
    have hfuncs : p.funcs.mapIdx Func.reread = p.funcs := by
      refine List.ext_getElem? fun i => ?_
      rw [List.getElem?_mapIdx]
      cases hi : p.funcs[i]? with
      | none => rfl
      | some f => exact congrArg some (hfunc i f hi)
    rw [Program.reread, hfuncs, globals_reread R, ← ht]

end

end Source
end LoopClock
