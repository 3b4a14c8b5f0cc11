import LoopClock.Proofs.Branches
import LoopClock.Proofs.Reachable
import LoopClock.Proofs.Run.Counters
import LoopClock.Proofs.Run.Legible

/-! Programs whose functions come back from their text as they are, but for the order in which blocks list
those before them. Passes lead from such programs to such programs. -/
namespace LoopClock
open Graph Program Source

variable {K : Config → Prop} {p₀ p q : Program} {v : Vertex} {i : Nat} {f : Func} {b : Block}
  {txt : String}

namespace Program

/-- Labels are in their usual spelling. -/
def Usual (p : Program) : Prop :=
  ∀ v, ∀ t ∈ p.jump v, ∀ l ∈ t.targets, ∀ j, l.id? = some j → l = Label.ofId j

/-- The functions of the program can be written and come back. -/
structure Recoverable (p : Program) : Prop where
  sound : p.Sound
  named : ∀ f ∈ p.funcs, IsName f.name ∧ ∀ t ∈ f.params, t.IsLocal
  legible : p.Legible
  tight : p.Tight
  usual : p.Usual
  printed : ∀ v, p.succ v = p.printed v
  resolved : ∀ v, ∀ t ∈ p.jump v, ∀ l ∈ t.targets, ∃ j ∈ p.ids v.func, l.id? = some j
  small : ∀ i, p.total i < 0x80000000

/-! ## Writing -/

theorem Legible.placed (h : p.Legible) (hb : p.block? v = some b) : ∀ x ∈ b.placed, x.Legible := by
  intro x hx
  simp only [Block.placed, List.mem_append, List.mem_map, Option.mem_toList] at hx
  rcases hx with (⟨φ, hφ, rfl⟩ | ⟨y, hy, rfl⟩) | ⟨t, ht, rfl⟩
  · exact Placed.legible_phi.2 (h.phis v φ (by rwa [Program.phis, hb]))
  · exact h.body v y (by rwa [Program.body, hb])
  · exact h.jump v t (by rw [Program.jump, hb]; exact ht)

theorem legible_of_placed (h : ∀ f ∈ p.funcs, ∀ b ∈ f.blocks, ∀ x ∈ b.placed, x.Legible) :
    p.Legible := by
  have hblock : ∀ {v b}, p.block? v = some b → ∀ x ∈ b.placed, x.Legible := fun hb => by
    obtain ⟨f, hf, hmem⟩ := mem_blocks_of_block? hb
    exact h f (List.mem_of_getElem? hf) _ hmem
  constructor
  · intro v φ hφ
    cases hb : p.block? v with
    | none => simp [phis, hb] at hφ
    | some b =>
      have hφ : φ ∈ b.phis := by simpa [phis, hb] using hφ
      exact Placed.legible_phi.1 (hblock hb _ (by simp [Block.placed, hφ]))
  · intro v x hx
    cases hb : p.block? v with
    | none => simp [Program.body, hb] at hx
    | some b =>
      have hx : x ∈ b.body := by simpa [Program.body, hb] using hx
      exact hblock hb _ (by simp [Block.placed, hx])
  · intro v t ht
    obtain ⟨b, hb, ht⟩ := Option.bind_eq_some_iff.1 ht
    exact hblock hb _ (by simp [Block.placed, ht])

namespace Recoverable

variable (R : p.Recoverable)
include R

theorem placed (hf : p.funcs[i]? = some f) (hb : b ∈ f.blocks) : ∀ x ∈ b.placed, x.Legible :=
  R.legible.placed (block?_of_mem (R.sound.proper.nodup i) hf hb)

theorem readable_func (hf : p.funcs[i]? = some f) : f.Readable := by
  have I := R.sound.intact.funcs i f hf
  have hblock : ∀ b ∈ f.blocks, p.block? ⟨i, b.id⟩ = some b := fun b hb =>
    block?_of_mem (R.sound.proper.nodup i) hf hb
  obtain ⟨hname, hparams⟩ := R.named f (List.mem_of_getElem? hf)
  have hspelled : ∀ b ∈ f.blocks, b.IsSpelled := fun b hb =>
    ⟨(I.bound b.id (List.mem_map_of_mem hb)).1, I.ends b hb,
      fun x hx => (R.placed hf hb x hx).spelled⟩
  refine ⟨⟨hname, hparams, fun hnil => ?_, hspelled⟩, I.nodup, fun b hb => ?_, I.entry, ?_, ?_⟩
  · have hentry := I.entry
    rw [Func.ids, hnil] at hentry
    cases hentry
  · have hle := (I.bound b.id (List.mem_map_of_mem hb)).2
    have hlt := R.small i
    rw [total, hf, Option.map_some, Option.getD_some] at hlt
    exact ⟨hspelled b hb, fun x hx => (R.placed hf hb x hx).typed, by omega⟩
  · intro b hb t ht hg
    obtain ⟨u, hu, _, hname⟩ := I.known b hb t ht hg
    exact ⟨u, hu, hname⟩
  · intro b hb l hl
    cases hj : b.jump with
    | none => simp [hj] at hl
    | some t =>
      rw [hj] at hl
      have ht : p.jump ⟨i, b.id⟩ = some t := by
        rw [Program.jump, hblock b hb]
        exact hj
      have hids := R.resolved _ t ht l hl
      rwa [ids_eq hf] at hids

theorem readable (hd : ∀ d ∈ p.decls, IsName d.name) (hg : ∀ g ∈ p.globals, g.IsSpelled) :
    p.Readable where
  decls := hd
  globals := hg
  funcs f hf := by
    obtain ⟨i, hi⟩ := List.getElem?_of_mem hf
    exact R.readable_func hi
  names := R.sound.names

theorem isPlain : p.IsPlain := by
  refine isPlain_iff.2 fun f hf v hv => ?_
  obtain ⟨i, hi⟩ := List.getElem?_of_mem hf
  obtain ⟨b, hb, hv⟩ := List.mem_flatMap.1 hv
  obtain ⟨x, hx, hv⟩ := List.mem_flatMap.1 hv
  exact (R.placed hi hb x hx).plain v hv

/-! ## Reading -/

/-- Linking the blocks again gives them the blocks that they lead to. -/
theorem onward_func (hf : p.funcs[i]? = some f) : (f.reread i).onward = f.onward := by
  have I := R.sound.intact.funcs i f hf
  have htotal : (f.blocks.map (·.id)).foldl max 0 = f.total := by
    have hmem := R.tight.total i (List.getElem?_eq_some_iff.1 hf).1
    rw [total, hf, ids_eq hf, Option.map_some, Option.getD_some] at hmem
    refine Int.le_antisymm ?_ ((le_foldl_max _ _).2 _ hmem)
    rcases foldl_max_mem (f.blocks.map (·.id)) 0 with h | h
    · rw [h]
      exact (I.bound _ hmem).1
    · exact (I.bound _ h).2
  have hblocks : f.blocks.map Block.reread = f.blocks.map Block.bare :=
    List.map_congr_left fun b hb => block_reread fun x hx => (R.placed hf hb x hx).reread
  have hids : (f.blocks.map Block.bare).map (·.id) = f.blocks.map (·.id) := by
    rw [List.map_map]
    rfl
  have hlinked : (linked i ((f.blocks.map Block.bare).map fun b => (b, b.leads))).map Block.onward =
      f.blocks.map Block.onward := by
    rw [linked, List.map_map, List.map_map, List.map_map]
    refine List.map_congr_left fun b hb => ?_
    have hsucc := R.printed ⟨i, b.id⟩
    rw [Program.succ, Program.printed, Program.jump,
      block?_of_mem (R.sound.proper.nodup i) hf hb] at hsucc
    exact congrArg (fun s => { b with prev := [], succ := s }) hsucc.symm
  rw [Func.reread, hblocks, Func.assembled, hids, htotal, Func.onward, hlinked]
  rfl

theorem onward_funcs : (p.funcs.mapIdx Func.reread).map Func.onward = p.funcs.map Func.onward := by
  refine List.ext_getElem? fun i => ?_
  rw [List.getElem?_map, List.getElem?_map, List.getElem?_mapIdx, Option.map_map]
  exact Option.map_congr fun f hf => R.onward_func hf

theorem temps_reread : highest (p.funcs.mapIdx Func.reread) = p.temps := by
  have hwrites : ∀ fs : List Func, fs.flatMap Func.writes = (fs.map Func.onward).flatMap Func.writes :=
    fun fs => by
      rw [List.flatMap_map]
      refine List.flatMap_congr fun f _ => congrArg (f.params ++ ·) ?_
      rw [Func.onward, List.flatMap_map]
      rfl
  rw [highest, hwrites, R.onward_funcs, ← hwrites]
  refine highest_eq R.sound.proper.nodup R.sound.numbered R.tight fun f hf t ht => ?_
  obtain ⟨i, hi⟩ := List.getElem?_of_mem hf
  exact ((R.readable_func hi).spelled.isLocal t ht).notGlobal

/-- What is read back has the same text, and leads to the same flow graphs. -/
theorem same_reread (h : parse txt = .ok p.reread) : Same p p.reread where
  twin := ⟨R.sound.proper, (wellformed_of_parse h).proper, by
    rw [onward, onward, reread]
    exact congrArg₂ (fun fs n => ({ funcs := fs, temps := n } : Program)) R.onward_funcs R.temps_reread⟩
  decls := rfl
  globals := by
    rw [reread, List.forall₂_map_right_iff]
    exact List.forall₂_same.2 fun g _ => Global.alike_reread g

end Recoverable

/-! ## Passes -/

theorem Edit.tracks (h : Edit K p q) (hp : p.Proper) (hfit : ∀ i, q.total i < 0x80000000)
    (T : Tracks p₀ p) : Tracks p₀ q := by
  cases h with
  | around h => exact T.rebodied (.of_funcs h.funcs)
  | split C S => exact T.split C S hfit
  | time _ S => exact T.rebodied (S.rebodied hp)
  | report _ h => exact T.rebodied h.rebodied

theorem Edit.total_le (h : Edit K p q) (hp : p.Proper) (i : Nat) : p.total i ≤ q.total i := by
  cases h with
  | around h => exact ((Rebodied.of_funcs h.funcs).total i).ge
  | split C S => exact C.total_le S i
  | time _ S => exact ((S.rebodied hp).total i).ge
  | report _ h => exact (h.rebodied.total i).ge

/-- Labels that were in their usual spelling still are, and so are the new ones. -/
theorem Tracks.usual (T : Tracks p q) (W : Wellformed p) (hu : p.Usual) (hq : q.Proper)
    (hfit : ∀ i, q.total i < 0x80000000) : q.Usual := by
  intro v t ht l hl j hj
  obtain ⟨s, dest, ho, _, F⟩ := T.follows v
  rw [F.jump] at ht
  obtain ⟨s, rfl, rfl⟩ := Option.map_eq_some_iff.1 ht
  obtain ⟨k, hk, rfl⟩ := Terminator.mem_targets_relabel.1 hl
  obtain ⟨a, rfl, ha⟩ : ∃ a, k = Label.ofId a ∧ (Label.ofId a).id? = some a := by
    rcases ho with ho | ⟨_, a, hs, ha⟩
    · obtain ⟨a, _, ha⟩ := W.resolved v s ho.symm k hk
      have hka := hu v s ho.symm k hk a ha
      exact ⟨a, hka, hka ▸ ha⟩
    · obtain rfl := Option.some.inj hs
      exact ⟨a, List.mem_singleton.1 hk, ha⟩
  rw [Label.follow_ofId ha] at hj ⊢
  rw [F.id?_dest hq hfit (mem_named.2 ⟨s, rfl, _, hk, ha⟩)] at hj
  rw [Option.some.inj hj]

/-- What is read and comes back as it is can be written. -/
theorem legible_of_parse (h : parse txt = .ok p) (hback : parse p.text = .ok p) : p.Legible := by
  have hread := readable_of_parse h
  obtain ⟨R, htemps⟩ := rereadable_of_parse h
  obtain ⟨hplain, -, hself⟩ := (parse_text hread).1 hback
  have hself := (reread_eq_iff R htemps).1 hself
  refine legible_of_placed fun f hf b hb x hx => ?_
  have hb' := (hread.funcs f hf).blocks b hb
  refine ⟨hb'.spelled.placed x hx, hb'.typed x hx, fun v hv => ?_, hself f hf b hb x hx⟩
  exact isPlain_iff.1 hplain f hf v
    (List.mem_flatMap.2 ⟨b, hb, List.mem_flatMap.2 ⟨x, hx, hv⟩⟩)

/-- From a program that was read and comes back as it is, passes lead to programs that come back. -/
theorem Edits.recoverable (h : Edits Config.IsNamed p q) (hparse : parse txt = .ok p)
    (hback : parse p.text = .ok p) (hu : p.Usual) (hfit : q.Fits) : q.Recoverable := by
  have W := wellformed_of_parse hparse
  have hsound := sound_of_parse hparse
  obtain ⟨hsignatures, hlegible, hrest⟩ : q.signatures = p.signatures ∧ q.Legible ∧
      (q.temps < 0x100000000 → (∀ i, q.total i < 0x80000000) → q.Tight ∧ Tracks p q) := by
    clear hfit
    induction h with
    | refl =>
      exact ⟨rfl, legible_of_parse hparse hback,
        fun _ _ => ⟨tight_of_parse hparse, tracks_start W.printed⟩⟩
    | @tail r s hr hs ih =>
      obtain ⟨hsig, hl, ih⟩ := ih
      have hp := Edits.proper hr W.proper
      refine ⟨(hs.signatures hp).trans hsig, hs.legible hp hl, fun htemps htotal => ?_⟩
      have hle := (hs.grows hp).le
      obtain ⟨ht, T⟩ := ih (by omega) fun i => Int.lt_of_le_of_lt (hs.total_le hp i) (htotal i)
      exact ⟨hs.tight hp htemps ht, hs.tracks hp htotal T⟩
  have hsmall := hfit.total_lt
  obtain ⟨htight, T⟩ := hrest hfit.2 hsmall
  have hq := Edits.sound h hsound
  have husual := T.usual W hu hq.proper hsmall
  refine ⟨hq, fun f hf => ?_, hlegible, htight, husual, fun v => ?_, fun v t ht l hl =>
    T.resolved W hq.proper hsmall ht hl, hsmall⟩
  · have hmem : f.signature ∈ p.signatures := hsignatures ▸ List.mem_map_of_mem hf
    obtain ⟨g, hg, heq⟩ := List.mem_map.1 hmem
    obtain ⟨hname, -, hparams⟩ : g.name = f.name ∧ g.ret = f.ret ∧ g.params = f.params := by
      simpa [Func.signature] using heq
    have hread := ((readable_of_parse hparse).funcs g hg).spelled
    exact ⟨hname ▸ hread.named, hparams ▸ hread.params⟩
  · exact (T.succ_eq_printed_iff W hq.proper hsmall).2 fun t ht l hl j hj =>
      .inl (hu v t ht l hl j hj)

end Program

end LoopClock
