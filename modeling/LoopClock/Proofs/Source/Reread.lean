import LoopClock.Proofs.Source.Resolving
import LoopClock.Proofs.Source.Wellformed

/-! What is read from the items that a program is written as: the same program, with all that the
reader works out for itself worked out again. -/
namespace LoopClock
open Source

namespace Block

/-- The blocks that a terminator leads to, by their ids. -/
def leads (b : Block) : List Int := (named b.jump).eraseDups

/-- A block without neighbours. -/
def bare (b : Block) : Block := { b with prev := [], succ := [] }

/-- A block as it is read from its text, before it gets neighbours. -/
def reread (b : Block) : Block :=
  { b.bare with
    phis := b.phis.map Phi.reread
    body := b.body.map Instr.reread
    jump := b.jump.map Terminator.reread }

/-- What the reader needs of a block to read it from its text. -/
structure Readable (b : Block) : Prop where
  spelled : b.IsSpelled
  typed : ∀ x ∈ b.placed, x.Typed
  small : b.id < 0x80000000

end Block

namespace Func

/-- A function of blocks that have their neighbours from their terminators. -/
def assembled (index : Nat) (name : String) (ret : Ty) (params : List Temp) (bs : List Block) : Func :=
  ⟨name, ret, params, (bs.map (·.id)).foldl max 0, linked index (bs.map fun b => (b, b.leads))⟩

/-- A function as it is read from its text. -/
def reread (index : Nat) (f : Func) : Func :=
  assembled index f.name f.ret f.params (f.blocks.map Block.reread)

end Func

namespace Source

/-! ## Blocks -/

private theorem addStatement_placed {func label : String} {b : Block} {x : Placed}
    (hj : b.jump = none) (hx : placed x.statement = .ok x.reread) :
    addStatement func label b x.statement = .ok (addPlaced b x.reread) := by
  rw [addStatement, hj, hx]
  rfl

private theorem foldlM_phis {func label : String} {φs : List Phi} {b : Block} (hj : b.jump = none)
    (h : ∀ φ ∈ φs, placed φ.statement = .ok (.phi φ.reread)) :
    (φs.map Phi.statement).foldlM (addStatement func label) b =
      .ok { b with phis := b.phis ++ φs.map Phi.reread } := by
  induction φs generalizing b with
  | nil => simp [pure, Except.pure]
  | cons φ φs ih =>
    obtain ⟨hφ, hrest⟩ := List.forall_mem_cons.1 h
    have hadd : addStatement func label b φ.statement = .ok (addPlaced b (.phi φ.reread)) :=
      addStatement_placed (x := .phi φ) hj hφ
    rw [List.map_cons, List.foldlM_cons, hadd]
    refine (ih (b := addPlaced b (.phi φ.reread)) hj hrest).trans ?_
    simp [addPlaced]

private theorem foldlM_body {func label : String} {is : List Instr} {b : Block} (hj : b.jump = none)
    (h : ∀ i ∈ is, placed i.statement = .ok (.body i.reread)) :
    (is.map Instr.statement).foldlM (addStatement func label) b =
      .ok { b with body := b.body ++ is.map Instr.reread } := by
  induction is generalizing b with
  | nil => simp [pure, Except.pure]
  | cons i is ih =>
    obtain ⟨hi, hrest⟩ := List.forall_mem_cons.1 h
    have hadd : addStatement func label b i.statement = .ok (addPlaced b (.body i.reread)) :=
      addStatement_placed (x := .body i) hj hi
    rw [List.map_cons, List.foldlM_cons, hadd]
    refine (ih (b := addPlaced b (.body i.reread)) hj hrest).trans ?_
    simp [addPlaced]

theorem block_written {func : String} {b : Block} (hb : b.Readable)
    (hr : ∀ v ∈ b.values, v.IsPlain) : block func b.written = .ok b.reread := by
  obtain ⟨⟨hnonneg, hends, hspelled⟩, htyped, hsmall⟩ := hb
  have hplaced : ∀ x ∈ b.placed, placed x.statement = .ok x.reread := fun x hx =>
    placed_statement (hspelled x hx) (htyped x hx) fun v hv => hr v (List.mem_flatMap.2 ⟨x, hx, hv⟩)
  have hphis : ∀ φ ∈ b.phis, placed φ.statement = .ok (.phi φ.reread) := fun φ hφ =>
    hplaced (.phi φ) (by simp [Block.placed, hφ])
  have hbody : ∀ i ∈ b.body, placed i.statement = .ok (.body i.reread) := fun i hi =>
    hplaced (.body i) (by simp [Block.placed, hi])
  obtain ⟨t, ht⟩ := Option.isSome_iff_exists.1 hends
  have hjump : placed t.statement = .ok (.last t.reread) := hplaced (.last t) (by simp [Block.placed, ht])
  have hstatements : b.placed.map Placed.statement =
      b.phis.map Phi.statement ++ (b.body.map Instr.statement ++ [t.statement]) := by
    simp [Block.placed, ht, Function.comp_def, Placed.statement]
  have hlast {func label : String} {c : Block} (hc : c.jump = none) :
      [t.statement].foldlM (addStatement func label) c = .ok { c with jump := some t.reread } := by
    have hadd : addStatement func label c t.statement = .ok (addPlaced c (.last t.reread)) :=
      addStatement_placed (x := .last t) hc hjump
    rw [List.foldlM_cons, hadd]
    rfl
  have hid : b.written.label.id? = some b.id := Label.id?_ofId hnonneg hsmall
  rw [block, hid]
  dsimp only [Block.written]
  rw [hstatements, List.foldlM_append, foldlM_phis rfl hphis]
  show ((b.body.map Instr.statement ++ [t.statement]).foldlM _ _ >>= _) = _
  rw [List.foldlM_append, foldlM_body (by rfl) hbody]
  show ([t.statement].foldlM _ _ >>= _) = _
  rw [hlast (by rfl)]
  show Except.ok _ = Except.ok _
  simp [Block.reread, Block.bare, ht]

theorem blocks_written {func : String} {bs cs : List Block} (hbs : ∀ b ∈ bs, b.Readable)
    (hr : ∀ b ∈ bs, ∀ v ∈ b.values, v.IsPlain) (hn : ((cs ++ bs).map (·.id)).Nodup) :
    (bs.map Block.written).foldlM (addBlock func) cs = .ok (cs ++ bs.map Block.reread) := by
  induction bs generalizing cs with
  | nil => simp [pure, Except.pure]
  | cons b bs ih =>
    obtain ⟨hb, hbs⟩ := List.forall_mem_cons.1 hbs
    obtain ⟨hv, hr⟩ := List.forall_mem_cons.1 hr
    have hnew : b.reread.id ∉ cs.map (·.id) := by
      rw [List.map_append, List.nodup_append] at hn
      intro hmem
      exact hn.2.2 b.id hmem b.id (by simp) rfl
    have hn' : ((cs ++ [b.reread] ++ bs).map (·.id)).Nodup := by
      simpa [Block.reread, Block.bare] using hn
    rw [List.map_cons, List.foldlM_cons, addBlock, block_written hb hv]
    show ((if _ ∈ _ then _ else _) >>= _) = _
    rw [if_neg hnew]
    refine (ih hbs hr hn').trans ?_
    simp

/-! ## Functions -/

/-- What the reader checks of the blocks of a function once it has them. -/
structure Checked (params : List Temp) (bs : List Block) : Prop where
  entry : (bs.map (·.id)).head? = some 0
  known : ∀ b ∈ bs, ∀ t ∈ b.reads, t.isGlobal = false →
    ∃ u ∈ params ++ bs.flatMap Block.writes, u.name = t.name
  resolved : ∀ b ∈ bs, ∀ l ∈ (b.jump.map Terminator.targets).getD [],
    ∃ j ∈ bs.map (·.id), l.id? = some j

theorem destinations_eq_ok {func : String} {ids : List Int} {b : Block} :
    destinations func ids b = .ok b.leads ↔
      ∀ l ∈ (b.jump.map Terminator.targets).getD [], ∃ j ∈ ids, l.id? = some j := by
  refine ⟨fun h => (of_destinations h).2.2, fun h => ?_⟩
  have hall : ((b.jump.map Terminator.targets).getD []).mapM (destination func ids) =
      .ok (named b.jump) := by
    rw [named]
    generalize (b.jump.map Terminator.targets).getD [] = ls at h
    induction ls with
    | nil => rfl
    | cons l ls ih =>
      obtain ⟨⟨j, hj, hl⟩, hrest⟩ := List.forall_mem_cons.1 h
      have hdest : destination func ids l = .ok j := by
        rw [destination, hl]
        exact if_pos hj
      rw [List.mapM_cons, hdest, ih hrest, List.filterMap_cons, hl]
      rfl
  rw [destinations, hall]
  rfl

theorem checkReads_eq_ok {func : String} {params : List Temp} {bs : List Block} :
    checkReads func params bs = .ok () ↔ ∀ b ∈ bs, ∀ t ∈ b.reads, t.isGlobal = false →
      ∃ u ∈ params ++ bs.flatMap Block.writes, u.name = t.name := by
  have hfind : checkReads func params bs = .ok () ↔
      (bs.flatMap Block.reads).find? (fun t => !t.isGlobal &&
        !((params ++ bs.flatMap Block.writes).map (·.name)).contains t.name) = none := by
    rw [checkReads]
    split
    · next t h => exact iff_of_false (by simp) (h.trans_ne (Option.some_ne_none t))
    · next h => exact iff_of_true rfl h
  rw [hfind, List.find?_eq_none]
  simp only [List.mem_flatMap, forall_exists_index, and_imp, Bool.and_eq_true, Bool.not_eq_true',
    not_and, Bool.not_eq_false, List.contains_iff_mem, List.mem_map]
  exact ⟨fun h b hb t ht => h t b hb ht, fun h t b hb ht => h b hb t ht⟩

private theorem mapM_destinations {func : String} {ids : List Int} {bs : List Block}
    {leads : List (List Int)} (h : bs.mapM (destinations func ids) = .ok leads) :
    leads = bs.map Block.leads ∧ ∀ b ∈ bs, ∀ l ∈ (b.jump.map Terminator.targets).getD [],
      ∃ j ∈ ids, l.id? = some j := by
  have hf := mapM_ok h
  clear h
  induction hf with
  | nil => simp
  | cons hb _ ih =>
    obtain ⟨rfl, hall⟩ := ih
    obtain ⟨rfl, -, hres⟩ := of_destinations hb
    exact ⟨rfl, List.forall_mem_cons.2 ⟨hres, hall⟩⟩

theorem function_eq_ok {i : Nat} {ret : Ty} {name : String} {params : List (Ty × String)}
    {sections : List Section} {bs : List Block} {f : Func}
    (hbs : sections.foldlM (addBlock name) [] = .ok bs) :
    function i ret name params sections = .ok f ↔ Checked (params.map fun p => localTemp p.2 p.1) bs ∧
      Func.assembled i name ret (params.map fun p => localTemp p.2 p.1) bs = f := by
  rw [function, hbs]
  show ((if (bs.map (·.id)).head? ≠ some 0 then _ else _) : Except Fault Func) = _ ↔ _
  constructor
  · intro h
    split at h
    · cases h
    · next hentry =>
      obtain ⟨_, hreads, h⟩ := bind_eq_ok.1 h
      obtain ⟨leads, hleads, h⟩ := bind_eq_ok.1 h
      obtain ⟨rfl, hresolved⟩ := mapM_destinations hleads
      refine ⟨⟨not_not.1 hentry, checkReads_eq_ok.1 hreads, hresolved⟩, ?_⟩
      rw [← pure_eq_ok.1 h, Func.assembled, List.map_prod_left_eq_zip]
  · rintro ⟨hc, rfl⟩
    have hleads : (bs.map id).mapM (destinations name (bs.map (·.id))) = .ok (bs.map Block.leads) :=
      mapM_map_ok fun b hb => destinations_eq_ok.2 (hc.resolved b hb)
    rw [List.map_id] at hleads
    rw [if_neg (not_not.2 hc.entry), checkReads_eq_ok.2 hc.known, hleads]
    show Except.ok _ = Except.ok _
    rw [Func.assembled, List.map_prod_left_eq_zip]

end Source

/-- What the reader needs of a function to read it from its text. -/
structure Func.Readable (f : Func) : Prop where
  spelled : f.IsSpelled
  nodup : f.ids.Nodup
  blocks : ∀ b ∈ f.blocks, b.Readable
  checked : Source.Checked f.params f.blocks

namespace Source

private theorem temps_reread (vs : List Value) : temps (vs.map Value.reread) = temps vs := by
  rw [temps, List.filterMap_map]
  exact List.filterMap_congr fun v _ => v.temp?_reread

private theorem reads_phi (φ : Phi) : φ.reread.reads = φ.reads := by
  rw [Phi.reads, Phi.reads, ← temps_reread (φ.source.map (·.1)), List.map_map]
  simp [Phi.reread, Function.comp_def]

private theorem reads_instr (i : Instr) : i.reread.reads = i.reads := by
  cases i with
  | arith t op ty lhs rhs => exact temps_reread [lhs, rhs]
  | comp t op ty lhs rhs => exact temps_reread [lhs, rhs]
  | alloca t ty length => exact temps_reread [length]
  | store value addr => exact temps_reread [value, addr]
  | load t ty addr => exact temps_reread [addr]
  | gep t ty addr offset => exact temps_reread [addr, offset]
  | call t ty callee args =>
    show temps ((args.map fun a => (a.1, a.2.reread)).map (·.2)) = temps (args.map (·.2))
    rw [← temps_reread (args.map (·.2)), List.map_map, List.map_map]
    rfl

private theorem reads_terminator (t : Terminator) : t.reread.reads = t.reads := by
  cases t with
  | jump l => rfl
  | branch ty cond l m => exact temps_reread [cond]
  | ret value =>
    cases value with
    | none => rfl
    | some v => exact temps_reread [v]

private theorem reads_reread (b : Block) : b.reread.reads = b.reads := by
  have hphis : b.reread.phis.flatMap Phi.reads = b.phis.flatMap Phi.reads :=
    (List.flatMap_map ..).trans (congrArg (List.flatMap · b.phis) (funext reads_phi))
  have hbody : b.reread.body.flatMap Instr.reads = b.body.flatMap Instr.reads :=
    (List.flatMap_map ..).trans (congrArg (List.flatMap · b.body) (funext reads_instr))
  have hjump : b.reread.jump.map Terminator.reads = b.jump.map Terminator.reads :=
    (Option.map_map ..).trans (congrArg (Option.map · b.jump) (funext reads_terminator))
  rw [Block.reads, hphis, hbody, hjump, Block.reads]

theorem writes_reread (b : Block) :
    b.reread.writes.map (·.name) = b.writes.map (·.name) := by
  have h : ∀ i : Instr, i.reread.target?.map (·.name) = i.target?.map (·.name) :=
    fun i => by cases i <;> rfl
  simp [Block.writes, Block.reread, Block.bare, List.filterMap_map, List.map_filterMap,
    Function.comp_def, h, Phi.reread]

theorem targets_reread (t : Terminator) : t.reread.targets = t.targets := by cases t <;> rfl

private theorem checked_reread {params : List Temp} {bs : List Block} (h : Checked params bs) :
    Checked params (bs.map Block.reread) := by
  have hids : (bs.map Block.reread).map (·.id) = bs.map (·.id) := by
    rw [List.map_map]
    rfl
  refine ⟨hids ▸ h.entry, ?_, ?_⟩
  · intro c hc t ht hg
    obtain ⟨b, hb, rfl⟩ := List.mem_map.1 hc
    obtain ⟨u, hu, hname⟩ := h.known b hb t (reads_reread b ▸ ht) hg
    have hmem : u.name ∈ (params ++ (bs.map Block.reread).flatMap Block.writes).map (·.name) := by
      have : u.name ∈ (params ++ bs.flatMap Block.writes).map (·.name) := List.mem_map_of_mem hu
      simpa [List.flatMap_map, List.map_flatMap, writes_reread] using this
    obtain ⟨w, hw, heq⟩ := List.mem_map.1 hmem
    exact ⟨w, hw, heq.trans hname⟩
  · intro c hc l hl
    obtain ⟨b, hb, rfl⟩ := List.mem_map.1 hc
    refine hids ▸ h.resolved b hb l ?_
    rw [Block.reread, Option.map_map] at hl
    simpa [Function.comp_def, targets_reread] using hl

theorem function_written {i : Nat} {f : Func} (hf : f.Readable)
    (hr : ∀ v ∈ f.values, v.IsPlain) :
    function i f.ret f.name (f.params.map fun p => (p.ty, p.name)) (f.blocks.map Block.written) =
      .ok (f.reread i) := by
  have hbs : (f.blocks.map Block.written).foldlM (addBlock f.name) [] =
      .ok ([] ++ f.blocks.map Block.reread) :=
    blocks_written hf.blocks (fun b hb v hv => hr v (List.mem_flatMap.2 ⟨b, hb, hv⟩)) hf.nodup
  have hparams : (f.params.map fun p => (p.ty, p.name)).map (fun p => localTemp p.2 p.1) = f.params := by
    rw [List.map_map]
    refine (List.map_congr_left fun t ht => ?_).trans (List.map_id f.params)
    exact localTemp_eq (hf.spelled.params t ht)
  refine (function_eq_ok hbs).2 ⟨?_, ?_⟩
  · rw [hparams]
    exact checked_reread hf.checked
  · rw [hparams]
    rfl

/-! ## What has been read -/

theorem small_of_id? {l : Label} {i : Int} (h : l.id? = some i) : i < 0x80000000 := by
  unfold Label.id? at h
  split at h
  · exact Option.some.inj h ▸ (by decide : (0 : Int) < _)
  · split at h
    · obtain ⟨h, -⟩ := Option.filter_eq_some_iff.1 h
      obtain ⟨-, h⟩ := Option.filter_eq_some_iff.1 h
      simp only [Numeral.fits32, Bool.and_eq_true, decide_eq_true_eq] at h
      exact h.2
    · cases h

private theorem mem_placed_addPlaced {b : Block} (hj : b.jump = none) {x y : Placed}
    (h : y ∈ (addPlaced b x).placed) : y ∈ b.placed ∨ y = x := by
  cases x <;> simp only [Block.placed, addPlaced, hj, List.map_append, List.map_cons, List.map_nil,
    List.mem_append, List.mem_singleton, Option.toList] at h ⊢ <;> grind

private theorem readable_of_block {func : String} {s : Section} {b : Block}
    (hs : ∀ st ∈ s.statements, st.IsSpelled) (h : block func s = .ok b) : b.Readable ∧ b.bare = b := by
  obtain ⟨hnonneg, hjump⟩ := bare_of_block h
  rw [block] at h
  split at h
  · cases h
  · next id hid =>
    obtain ⟨c, hc, h⟩ := bind_eq_ok.1 h
    have hkeep : (∀ x ∈ c.placed, x.IsSpelled ∧ x.Typed) ∧ c.prev = [] ∧ c.succ = [] := by
      refine foldlM_ok_of_mem
        (I := fun c => (∀ x ∈ c.placed, x.IsSpelled ∧ x.Typed) ∧ c.prev = [] ∧ c.succ = []) ?_
        ⟨by simp [Block.placed], rfl, rfl⟩ hc
      rintro st hst c d ⟨hall, hprev, hsucc⟩ hd
      rw [addStatement] at hd
      split at hd
      · cases hd
      · next hj =>
        obtain ⟨x, hx, rfl⟩ := map_eq_ok.1 hd
        have hj : c.jump = none := by simpa using hj
        refine ⟨fun y hy => ?_, ?_, ?_⟩
        · rcases mem_placed_addPlaced hj hy with hy | rfl
          · exact hall y hy
          · exact spelled_of_placed (hs st hst) hx
        · cases x <;> exact hprev
        · cases x <;> exact hsucc
    have hcid := id_of_statements hc
    split at h
    · obtain rfl := pure_eq_ok.1 h
      obtain ⟨hall, hprev, hsucc⟩ := hkeep
      refine ⟨⟨⟨hnonneg, hjump, fun x hx => (hall x hx).1⟩, fun x hx => (hall x hx).2, ?_⟩, ?_⟩
      · rw [hcid]
        exact small_of_id? hid
      · obtain ⟨⟩ := c
        cases hprev
        cases hsucc
        rfl
    · cases h

private theorem readable_of_sections {func : String} {ss : List Section} {bs : List Block}
    (hs : ∀ s ∈ ss, ∀ st ∈ s.statements, st.IsSpelled) (h : ss.foldlM (addBlock func) [] = .ok bs) :
    ∀ b ∈ bs, b.Readable ∧ b.bare = b := by
  refine foldlM_ok_of_mem (I := fun bs : List Block => ∀ b ∈ bs, b.Readable ∧ b.bare = b) ?_
    (List.forall_mem_nil _) h
  intro s hmem bs cs hbs hcs
  rw [addBlock] at hcs
  obtain ⟨b, hb, hcs⟩ := bind_eq_ok.1 hcs
  split at hcs
  · cases hcs
  · obtain rfl := pure_eq_ok.1 hcs
    intro c hc
    rcases List.mem_append.1 hc with hc | hc
    · exact hbs c hc
    · exact List.mem_singleton.1 hc ▸ readable_of_block (hs s hmem) hb

theorem bare_linked (i : Nat) (bs : List Block) :
    (linked i (bs.map fun b => (b, b.leads))).map Block.bare = bs.map Block.bare := by
  simp [linked, Function.comp_def, Block.bare]

theorem checked_bare {params : List Temp} {bs : List Block} :
    Checked params (bs.map Block.bare) ↔ Checked params bs := by
  have hids : (bs.map Block.bare).map (·.id) = bs.map (·.id) := by
    rw [List.map_map]
    rfl
  have hwrites : (bs.map Block.bare).flatMap Block.writes = bs.flatMap Block.writes := by
    rw [List.flatMap_map]
    rfl
  constructor
  · rintro ⟨hentry, hknown, hresolved⟩
    rw [hids] at hentry hresolved
    rw [hwrites] at hknown
    exact ⟨hentry, fun b hb => hknown b.bare (List.mem_map_of_mem hb),
      fun b hb => hresolved b.bare (List.mem_map_of_mem hb)⟩
  · rintro ⟨hentry, hknown, hresolved⟩
    refine ⟨hids ▸ hentry, ?_, ?_⟩
    · rw [hwrites]
      exact List.forall_mem_map.2 hknown
    · rw [hids]
      exact List.forall_mem_map.2 hresolved

theorem readable_bare {b : Block} : b.bare.Readable ↔ b.Readable := by
  constructor <;> rintro ⟨⟨hid, hphis, hbody⟩, hjump, hspelled⟩ <;>
    exact ⟨⟨hid, hphis, hbody⟩, hjump, hspelled⟩

/-- A function that has been read can be read again, and is made of its own blocks. -/
theorem readable_of_function {i : Nat} {ret : Ty} {name : String} {params : List (Ty × String)}
    {sections : List Section} {f : Func} (hname : IsName name) (hparams : ∀ q ∈ params, IsName q.2)
    (hs : ∀ s ∈ sections, ∀ st ∈ s.statements, st.IsSpelled)
    (h : function i ret name params sections = .ok f) :
    f.Readable ∧ Func.assembled i f.name f.ret f.params (f.blocks.map Block.bare) = f := by
  obtain ⟨bs, hbs, -⟩ := bind_eq_ok.1 h
  obtain ⟨hchecked, rfl⟩ := (function_eq_ok hbs).1 h
  have hall := readable_of_sections hs hbs
  have hbare : bs.map Block.bare = bs :=
    (List.map_congr_left fun b hb => (hall b hb).2).trans (List.map_id bs)
  have hlinked := (bare_linked i bs).trans hbare
  have hmem : ∀ b ∈ linked i (bs.map fun b => (b, b.leads)), b.Readable := fun b hb =>
    readable_bare.1 (hall b.bare (hlinked ▸ List.mem_map_of_mem hb)).1
  refine ⟨⟨⟨hname, ?_, ?_, fun b hb => (hmem b hb).spelled⟩, ?_, hmem, ?_⟩, ?_⟩
  · intro t ht
    obtain ⟨q, hq, rfl⟩ := List.mem_map.1 ht
    exact isLocal_localTemp (hparams q hq) q.1
  · intro h
    have hnil : bs = [] := by
      rw [← hlinked]
      exact List.map_eq_nil_iff.2 h
    subst hnil
    cases hchecked.entry
  · have hids : Func.ids (Func.assembled i name ret (params.map fun p => localTemp p.2 p.1) bs) =
        bs.map (·.id) := by
      simp [Func.ids, Func.assembled, linked, Function.comp_def]
    rw [hids]
    exact (blocks_of_sections hbs).1
  · refine checked_bare.1 ?_
    show Checked _ ((linked i (bs.map fun b => (b, b.leads))).map Block.bare)
    rw [hlinked]
    exact hchecked
  · show Func.assembled i name ret _ ((linked i (bs.map fun b => (b, b.leads))).map Block.bare) = _
    rw [hlinked]
    rfl

end Source
end LoopClock
