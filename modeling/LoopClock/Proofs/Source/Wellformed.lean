import LoopClock.Proofs.Program.Names
import LoopClock.Proofs.Source.Outcomes
import LoopClock.Source.Parse

/-! What is known of a program that has been read: its flow graph is proper, its branches and its edges
agree, and its names are numbered. -/
namespace LoopClock
open Graph

/-- The numbers that the labels in a terminator stand for. -/
def named (t : Option Terminator) : List Int :=
  ((t.map Terminator.targets).getD []).filterMap Label.id?

namespace Program

/-- The blocks that the terminator of a block names, each once. -/
def printed (p : Program) (v : Vertex) : List Vertex :=
  (named (p.jump v)).eraseDups.map (Vertex.mk v.func)

end Program

namespace Source
open Program

/-! ## Blocks -/

/-- A block as it is read, before it has neighbours. -/
structure Bare (b : Block) : Prop where
  nonneg : 0 ≤ b.id
  jump : b.jump.isSome

theorem id_addPlaced (b : Block) (s : Placed) : (addPlaced b s).id = b.id := by
  cases s <;> rfl

theorem id_of_statements {func label : String} {ss : List Statement} {b b' : Block}
    (h : ss.foldlM (addStatement func label) b = .ok b') : b'.id = b.id := by
  refine foldlM_ok (I := fun c => c.id = b.id) ?_ rfl h
  intro c s d hc hd
  rw [addStatement] at hd
  split at hd
  · cases hd
  · obtain ⟨q, _, rfl⟩ := map_eq_ok.1 hd
    exact (id_addPlaced c q).trans hc

theorem bare_of_block {func : String} {s : Section} {b : Block} (h : block func s = .ok b) :
    Bare b := by
  rw [block] at h
  split at h
  · cases h
  · next id hid =>
    obtain ⟨c, hc, h⟩ := bind_eq_ok.1 h
    split at h
    · next hj =>
      obtain rfl := pure_eq_ok.1 h
      exact ⟨by rw [id_of_statements hc]; exact Label.nonneg_of_id? hid, hj⟩
    · cases h

theorem blocks_of_sections {func : String} {ss : List Section} {bs : List Block}
    (h : ss.foldlM (addBlock func) [] = .ok bs) :
    (bs.map (·.id)).Nodup ∧ ∀ b ∈ bs, Bare b := by
  refine foldlM_ok (I := fun bs => (bs.map (·.id)).Nodup ∧ ∀ b ∈ bs, Bare b) ?_
    ⟨List.nodup_nil, by simp⟩ h
  intro bs s cs ⟨hn, hb⟩ hcs
  rw [addBlock] at hcs
  obtain ⟨b, hblock, hcs⟩ := bind_eq_ok.1 hcs
  split at hcs
  · cases hcs
  · next hnew =>
    obtain rfl := pure_eq_ok.1 hcs
    refine ⟨?_, fun c hc => ?_⟩
    · rw [List.map_append, List.nodup_append]
      refine ⟨hn, List.nodup_singleton _, fun j hj k hk => ?_⟩
      obtain rfl := List.mem_singleton.1 hk
      exact fun h : j = b.id => hnew (h ▸ hj)
    · rcases List.mem_append.1 hc with hc | hc
      · exact hb c hc
      · exact List.mem_singleton.1 hc ▸ bare_of_block hblock

/-! ## Neighbours -/

theorem of_destination {func : String} {ids : List Int} {l : Label} {j : Int}
    (h : destination func ids l = .ok j) : l.id? = some j ∧ j ∈ ids := by
  rw [destination] at h
  split at h
  · next k hk =>
    split at h
    · next hmem => exact Except.ok.inj h ▸ ⟨hk, hmem⟩
    · cases h
  · cases h

private theorem of_destination_all {func : String} {ids ks : List Int} {ls : List Label}
    (h : List.Forall₂ (fun l k => destination func ids l = .ok k) ls ks) :
    ls.filterMap Label.id? = ks ∧ (∀ k ∈ ks, k ∈ ids) ∧ ∀ l ∈ ls, ∃ j ∈ ids, l.id? = some j := by
  induction h with
  | nil => simp
  | @cons l k ls ks hl _ ih =>
    obtain ⟨hid, hmem⟩ := of_destination hl
    obtain ⟨heq, hk, hls⟩ := ih
    refine ⟨by rw [List.filterMap_cons, hid, heq], fun j hj => ?_, fun m hm => ?_⟩
    · rcases List.mem_cons.1 hj with rfl | hj
      · exact hmem
      · exact hk j hj
    · rcases List.mem_cons.1 hm with rfl | hm
      · exact ⟨k, hmem, hid⟩
      · exact hls m hm

/-- The ids that a block leads to are read off its terminator. -/
theorem of_destinations {func : String} {ids : List Int} {b : Block} {js : List Int}
    (h : destinations func ids b = .ok js) :
    js = (((b.jump.map Terminator.targets).getD []).filterMap Label.id?).eraseDups ∧
      (∀ j ∈ js, j ∈ ids) ∧
      ∀ l ∈ (b.jump.map Terminator.targets).getD [], ∃ j ∈ ids, l.id? = some j := by
  rw [destinations] at h
  obtain ⟨ks, hks, h⟩ := bind_eq_ok.1 h
  obtain rfl := pure_eq_ok.1 h
  obtain ⟨heq, hk, hls⟩ := of_destination_all (mapM_ok hks)
  exact ⟨by rw [heq], fun j hj => hk j (List.mem_eraseDups.1 hj), hls⟩

/-- A function as it is read: its blocks with the ids they lead to, before these are linked. -/
structure Read (i : Nat) (f : Func) (bs : List (Block × List Int)) : Prop where
  blocks : f.blocks = linked i bs
  nodup : (bs.map (·.1.id)).Nodup
  entry : (bs.map (·.1.id)).head? = some 0
  bound : ∀ b ∈ bs, 0 ≤ b.1.id ∧ b.1.id ≤ f.total
  jump : ∀ b ∈ bs, b.1.jump.isSome
  leads : ∀ b ∈ bs,
    b.2 = (named b.1.jump).eraseDups
  inside : ∀ b ∈ bs, ∀ j ∈ b.2, j ∈ bs.map (·.1.id)
  resolved : ∀ b ∈ bs, ∀ l ∈ (b.1.jump.map Terminator.targets).getD [],
    ∃ j ∈ bs.map (·.1.id), l.id? = some j
  known : ∀ b ∈ bs, ∀ t ∈ b.1.reads, t.isGlobal = false →
    ∃ u ∈ f.params ++ (bs.map (·.1)).flatMap Block.writes, u.name = t.name

theorem read_of_function {i : Nat} {ret : Ty} {name : String} {params : List (Ty × String)}
    {sections : List Section} {f : Func} (h : function i ret name params sections = .ok f) :
    f.name = name ∧ ∃ bs, Read i f bs := by
  rw [function] at h
  obtain ⟨bs, hbs, h⟩ := bind_eq_ok.1 h
  obtain ⟨hn, hbare⟩ := blocks_of_sections hbs
  dsimp only at h
  split at h
  · cases h
  · next hentry =>
    obtain ⟨_, hreads, h⟩ := bind_eq_ok.1 h
    obtain ⟨leads, hleads, h⟩ := bind_eq_ok.1 h
    obtain rfl := pure_eq_ok.1 h
    have hf := mapM_ok hleads
    have hfst : (bs.zip leads).map (·.1) = bs := List.map_fst_zip (Nat.le_of_eq hf.length_eq)
    have hids : (bs.zip leads).map (·.1.id) = bs.map (·.id) := by
      rw [← hfst, List.map_map, hfst]
      rfl
    have hmem : ∀ b ∈ bs.zip leads, b.1 ∈ bs := fun b hb => (List.of_mem_zip hb).1
    have hdest : ∀ b ∈ bs.zip leads, destinations name (bs.map (·.id)) b.1 = .ok b.2 :=
      fun b hb => List.forall₂_zip hf hb
    refine ⟨rfl, bs.zip leads, ?_⟩
    constructor
    · rfl
    · rw [hids]
      exact hn
    · rw [hids]
      simpa using hentry
    · intro b hb
      exact ⟨(hbare b.1 (hmem b hb)).nonneg,
        (le_foldl_max _ _).2 b.1.id (List.mem_map_of_mem (hmem b hb))⟩
    · exact fun b hb => (hbare b.1 (hmem b hb)).jump
    · exact fun b hb => (of_destinations (hdest b hb)).1
    · intro b hb
      rw [hids]
      exact (of_destinations (hdest b hb)).2.1
    · intro b hb
      rw [hids]
      exact (of_destinations (hdest b hb)).2.2
    · intro b hb t ht hg
      rw [hfst]
      rw [checkReads] at hreads
      split at hreads
      · cases hreads
      · next hnone =>
        have ht' := List.find?_eq_none.1 hnone t (List.mem_flatMap.2 ⟨b.1, hmem b hb, ht⟩)
        simp only [hg, Bool.not_false, Bool.true_and, Bool.not_eq_true', Bool.not_eq_false,
          List.contains_iff_mem] at ht'
        exact List.mem_map.1 ht'

/-! ## Programs -/

/-- What is known of every program that has been read. -/
structure Wellformed (p : Program) : Prop where
  proper : p.Proper
  numbered : p.Numbered
  names : (p.funcs.map (·.name)).Nodup
  printed : ∀ v, p.succ v = p.printed v
  ends : ∀ v b, p.block? v = some b → ∃ t, b.jump = some t
  resolved : ∀ v t, p.jump v = some t → ∀ l ∈ t.targets, ∃ j ∈ p.ids v.func, l.id? = some j

/-- All functions are as they have been read. -/
structure Functions (p : Program) : Prop where
  read : ∀ i f, p.funcs[i]? = some f → ∃ bs, Read i f bs
  names : (p.funcs.map (·.name)).Nodup

theorem functions_of_items {items : List Item} {p : Program}
    (h : items.foldlM addItem {} = .ok p) : Functions p := by
  have start : Functions {} := ⟨fun i f h => (nomatch h), List.nodup_nil⟩
  refine foldlM_ok (I := Functions) ?_ start h
  intro p item q hp hq
  cases item with
  | declare ret name params =>
    obtain rfl := Except.ok.inj hq
    exact ⟨hp.read, hp.names⟩
  | globalVar name init =>
    obtain ⟨g, _, hq⟩ := bind_eq_ok.1 hq
    obtain rfl := pure_eq_ok.1 hq
    exact ⟨hp.read, hp.names⟩
  | define ret name params sections =>
    obtain ⟨f, hf, hq⟩ := bind_eq_ok.1 hq
    obtain ⟨hname, bs, hread⟩ := read_of_function hf
    dsimp only at hq
    split at hq
    · cases hq
    · next hnew =>
      obtain rfl := pure_eq_ok.1 hq
      refine ⟨fun i g hg => ?_, ?_⟩
      · rcases Nat.lt_trichotomy i p.funcs.length with hi | rfl | hi
        · exact hp.read i g (by simpa [List.getElem?_append_left hi] using hg)
        · simp only [List.getElem?_concat_length, Option.some.injEq] at hg
          exact ⟨bs, hg ▸ hread⟩
        · rw [List.getElem?_eq_none (by simpa using Nat.succ_le_of_lt hi)] at hg
          cases hg
      · rw [List.map_append, List.nodup_append]
        refine ⟨hp.names, List.nodup_singleton _, fun m hm k hk heq => ?_⟩
        obtain ⟨g, hg, rfl⟩ := List.mem_map.1 hm
        obtain rfl := List.mem_singleton.1 hk
        refine hnew (List.find?_isSome.2 ⟨g, hg, ?_⟩)
        simpa using heq.trans hname

section
variable {p : Program} (F : Functions p) {v w : Vertex} {f : Func} {bs : List (Block × List Int)}
include F

omit F in
theorem ids_of_read {i : Nat} (hf : p.funcs[i]? = some f) (R : Read i f bs) :
    p.ids i = bs.map (·.1.id) := by
  rw [ids_eq hf, Func.ids, R.blocks, linked, List.map_map]
  rfl

/-- The vertices from which a block is entered, before it has neighbours. -/
private def entering (i : Nat) (bs : List (Block × List Int)) (j : Int) : List Vertex :=
  ((bs.filter (j ∈ ·.2)).map (·.1.id)).map (Vertex.mk i)

omit F in
private theorem block?_of_read {i : Nat} (hf : p.funcs[i]? = some f) (R : Read i f bs)
    {b : Block × List Int} (hb : b ∈ bs) : p.block? ⟨i, b.1.id⟩ =
      some { b.1 with prev := entering i bs b.1.id, succ := b.2.map (Vertex.mk i) } := by
  have hn : (p.ids i).Nodup := ids_of_read hf R ▸ R.nodup
  refine block?_of_mem (b := { b.1 with prev := entering i bs b.1.id, succ := b.2.map (Vertex.mk i) })
    hn hf ?_
  rw [R.blocks, linked]
  exact List.mem_map_of_mem hb

private theorem exists_read {b : Block} (hb : p.block? v = some b) :
    ∃ f bs, p.funcs[v.func]? = some f ∧ Read v.func f bs ∧ ∃ c ∈ bs, c.1.id = v.id ∧
      b = { c.1 with prev := entering v.func bs c.1.id, succ := c.2.map (Vertex.mk v.func) } := by
  obtain ⟨f, hf, hbf⟩ := mem_blocks_of_block? hb
  obtain ⟨bs, R⟩ := F.read v.func f hf
  rw [R.blocks] at hbf
  obtain ⟨⟨c, leads⟩, hc, rfl⟩ := List.mem_map.1 hbf
  have hid := id_of_block? hb
  exact ⟨f, bs, hf, R, (c, leads), hc, hid, rfl⟩

private theorem edge_iff_read : p.Edge v w ↔ w.func = v.func ∧ ∃ f bs, p.funcs[v.func]? = some f ∧
    Read v.func f bs ∧ ∃ c ∈ bs, c.1.id = v.id ∧ w.id ∈ c.2 := by
  constructor
  · intro h
    obtain ⟨b, hb⟩ := exists_block? (mem_ids_of_mem_succ h)
    obtain ⟨f, bs, hf, R, c, hc, hid, rfl⟩ := exists_read F hb
    have h : w ∈ p.succ v := h
    rw [succ, hb, Option.map_some, Option.getD_some] at h
    obtain ⟨j, hj, rfl⟩ := List.mem_map.1 h
    exact ⟨rfl, f, bs, hf, R, c, hc, hid, hj⟩
  · rintro ⟨hwf, f, bs, hf, R, c, hc, hid, hj⟩
    have hv : v = ⟨v.func, c.1.id⟩ := Vertex.ext rfl hid.symm
    show w ∈ p.succ v
    rw [hv, succ, block?_of_read hf R hc, Option.map_some, Option.getD_some]
    exact List.mem_map.2 ⟨w.id, hj, Vertex.ext hwf.symm rfl⟩

private theorem mem_prev_iff_read : v ∈ p.prev w ↔ w.func = v.func ∧ ∃ f bs,
    p.funcs[v.func]? = some f ∧ Read v.func f bs ∧ ∃ c ∈ bs, c.1.id = v.id ∧ w.id ∈ c.2 := by
  constructor
  · intro h
    obtain ⟨b, hb⟩ := exists_block? (mem_ids_of_mem_prev h)
    obtain ⟨f, bs, hf, R, c, hc, hid, rfl⟩ := exists_read F hb
    rw [prev, hb, Option.map_some, Option.getD_some, entering, List.map_map] at h
    obtain ⟨d, hd, rfl⟩ := List.mem_map.1 h
    obtain ⟨hd, hj⟩ := List.mem_filter.1 hd
    exact ⟨rfl, f, bs, hf, R, d, hd, rfl, by simpa [hid] using hj⟩
  · rintro ⟨hwf, f, bs, hf, R, d, hd, hid, hj⟩
    obtain ⟨c, hc, hcw⟩ := List.mem_map.1 (R.inside d hd w.id hj)
    have hw : w = ⟨v.func, c.1.id⟩ := Vertex.ext hwf hcw.symm
    rw [hw, prev, block?_of_read hf R hc, Option.map_some, Option.getD_some, entering, List.map_map]
    refine List.mem_map.2 ⟨d, List.mem_filter.2 ⟨hd, by simpa [hcw] using hj⟩, ?_⟩
    exact Vertex.ext rfl hid

theorem proper_of_functions : p.Proper where
  nodup i := by
    cases hf : p.funcs[i]? with
    | none => simp [Program.ids, hf]
    | some f =>
      obtain ⟨bs, R⟩ := F.read i f hf
      exact ids_of_read hf R ▸ R.nodup
  entry i hi := by
    obtain ⟨bs, R⟩ := F.read i _ (List.getElem?_eq_getElem hi)
    exact ids_of_read (List.getElem?_eq_getElem hi) R ▸ R.entry
  bound i j hj := by
    cases hf : p.funcs[i]? with
    | none => simp [Program.ids, hf] at hj
    | some f =>
      obtain ⟨bs, R⟩ := F.read i f hf
      rw [ids_of_read hf R] at hj
      obtain ⟨b, hb, rfl⟩ := List.mem_map.1 hj
      simpa [Program.total, hf] using R.bound b hb
  func_eq v w h := ((edge_iff_read F).1 h).1
  mem_ids v w h := by
    obtain ⟨hwf, f, bs, hf, R, c, hc, _, hj⟩ := (edge_iff_read F).1 h
    rw [hwf, ids_of_read hf R]
    exact R.inside c hc w.id hj
  mem_prev v w := (mem_prev_iff_read F).trans (edge_iff_read F).symm
  nodup_succ v := by
    cases hb : p.block? v with
    | none => simp [succ, hb]
    | some b =>
      obtain ⟨f, bs, hf, R, c, hc, hid, rfl⟩ := exists_read F hb
      rw [succ, hb, Option.map_some, Option.getD_some, R.leads c hc]
      exact (nodup_eraseDups _).map fun a b h => (Vertex.mk.inj h).2
  nodup_prev v := by
    cases hb : p.block? v with
    | none => simp [prev, hb]
    | some b =>
      obtain ⟨f, bs, hf, R, c, hc, hid, rfl⟩ := exists_read F hb
      rw [prev, hb, Option.map_some, Option.getD_some, entering]
      refine List.Nodup.map (fun a b h => (Vertex.mk.inj h).2) ?_
      exact R.nodup.sublist (List.filter_sublist.map _)

private theorem jump_of_read {b : Block} (hb : p.block? v = some b) :
    ∃ f bs, p.funcs[v.func]? = some f ∧ Read v.func f bs ∧ ∃ c ∈ bs, p.jump v = c.1.jump ∧
      p.succ v = c.2.map (Vertex.mk v.func) ∧ c.1.jump.isSome := by
  obtain ⟨f, bs, hf, R, c, hc, _, rfl⟩ := exists_read F hb
  exact ⟨f, bs, hf, R, c, hc, by rw [jump, hb]; rfl, by rw [succ, hb]; rfl, R.jump c hc⟩

private theorem printed_of_functions (v : Vertex) : p.succ v = p.printed v := by
  cases hb : p.block? v with
  | none => simp [printed, named, succ, jump, hb]
  | some b =>
    obtain ⟨f, bs, hf, R, c, hc, hjump, hsucc, _⟩ := jump_of_read F hb
    rw [printed, hjump, hsucc, R.leads c hc]

private theorem ends_of_functions {b : Block} (hb : p.block? v = some b) :
    ∃ t, b.jump = some t := by
  obtain ⟨f, bs, hf, R, c, hc, hjump, _, hsome⟩ := jump_of_read F hb
  rw [← hjump, jump, hb, Option.bind_some] at hsome
  exact Option.isSome_iff_exists.1 hsome

private theorem resolved_of_functions {t : Terminator} (ht : p.jump v = some t) :
    ∀ l ∈ t.targets, ∃ j ∈ p.ids v.func, l.id? = some j := by
  obtain ⟨b, hb, _⟩ := Option.bind_eq_some_iff.1 ht
  obtain ⟨f, bs, hf, R, c, hc, hjump, _, _⟩ := jump_of_read F hb
  intro l hl
  rw [ids_of_read hf R]
  refine R.resolved c hc l ?_
  rw [← hjump, ht]
  exact hl

/-! ### Names -/

omit F in
theorem number_le_highest {t : Temp} (hf : f ∈ p.funcs) (ht : t ∈ f.writes) :
    t.number ≤ highest p.funcs := by
  have hmem : t.number ∈ (p.funcs.flatMap Func.writes).map Temp.number :=
    List.mem_map_of_mem (List.mem_flatMap.2 ⟨f, hf, ht⟩)
  exact (le_foldl_max _ 0).2 _ hmem

omit F in
private theorem writes_of_read {i : Nat} (R : Read i f bs) :
    f.writes = f.params ++ (bs.map (·.1)).flatMap Block.writes := by
  rw [Func.writes, R.blocks, linked, List.flatMap_map, List.flatMap_map]
  rfl

/-- Every local name in a block is written somewhere in its function. -/
private theorem written_of_block {b : Block} {t : Temp} (hb : p.block? v = some b)
    (hg : t.isGlobal = false) (ht : t ∈ b.writes ∨ t ∈ b.reads) :
    ∃ f ∈ p.funcs, ∃ u ∈ f.writes, u.name = t.name := by
  obtain ⟨f, bs, hf, R, c, hc, _, rfl⟩ := exists_read F hb
  refine ⟨f, List.mem_of_getElem? hf, ?_⟩
  rw [writes_of_read R]
  rcases ht with ht | ht
  · exact ⟨t, List.mem_append_right _
      (List.mem_flatMap.2 ⟨c.1, List.mem_map_of_mem hc, ht⟩), rfl⟩
  · exact R.known c hc t ht hg

private theorem written_of_occurs {s : String} (h : p.Occurs s) :
    ∃ f ∈ p.funcs, ∃ t ∈ f.writes, t.name = s := by
  have known : ∀ {v : Vertex} {b : Block} {ts : List Temp}, p.block? v = some b →
      (∀ t ∈ ts, t ∈ b.writes ∨ t ∈ b.reads) → s ∈ localNames ts →
      ∃ f ∈ p.funcs, ∃ u ∈ f.writes, u.name = s := by
    intro v b ts hb hts hs
    obtain ⟨t, ht, hg, rfl⟩ := mem_localNames.1 hs
    exact written_of_block F hb hg (hts t ht)
  rcases h with ⟨⟨i, f, hf, hs⟩ | ⟨v, φ, hφ, hs⟩ | ⟨v, t, ht, hs⟩⟩ | ⟨v, x, hx, hs⟩
  · obtain ⟨g, hg, rfl⟩ := Option.map_eq_some_iff.1 hf
    obtain ⟨t, ht, _, rfl⟩ := mem_localNames.1 hs
    exact ⟨g, List.mem_of_getElem? hg, t, List.mem_append_left _ ht, rfl⟩
  · cases hb : p.block? v with
    | none => simp [phis, hb] at hφ
    | some b =>
      have hφ : φ ∈ b.phis := by simpa [phis, hb] using hφ
      refine known hb (fun t ht => ?_) hs
      simp only [Block.writes, Block.reads, List.mem_append, List.mem_map, List.mem_flatMap]
      rcases List.mem_cons.1 ht with rfl | ht
      · exact .inl (.inl ⟨φ, hφ, rfl⟩)
      · exact .inr (.inl (.inl ⟨φ, hφ, ht⟩))
  · obtain ⟨b, hb, hj⟩ := Option.bind_eq_some_iff.1 ht
    refine known hb (fun u hu => ?_) hs
    simp only [Block.reads, hj, List.mem_append]
    exact .inr (.inr hu)
  · cases hb : p.block? v with
    | none => simp [Program.body, hb] at hx
    | some b =>
      have hx : x ∈ b.body := by simpa [Program.body, hb] using hx
      refine known hb (fun t ht => ?_) hs
      simp only [Block.writes, Block.reads, List.mem_append, List.mem_filterMap, List.mem_flatMap]
      rcases List.mem_append.1 ht with ht | ht
      · exact .inl (.inr ⟨x, hx, Option.mem_toList.1 ht⟩)
      · exact .inr (.inl (.inr ⟨x, hx, ht⟩))

/-- No local name denotes a number greater than the highest that is written. -/
private theorem numbered_of_functions {s : String} (h : p.Occurs s) :
    (Numeral.word32? s.toList).getD 0 ≤ highest p.funcs := by
  obtain ⟨f, hf, t, ht, rfl⟩ := written_of_occurs F h
  exact number_le_highest hf ht

/-- Counting the temporaries leaves the functions as they have been read. -/
private theorem wellformed_of_functions : Wellformed { p with temps := highest p.funcs } := by
  have hr : Rebodied p { p with temps := highest p.funcs } :=
    ⟨fun _ => rfl, fun _ => rfl, rfl, rfl, rfl, rfl⟩
  constructor
  · exact hr.proper (proper_of_functions F)
  · intro s h
    refine numbered_of_functions F ?_
    cases h with
    | outside h => exact .outside (hr.outside h)
    | body v x hx hs => exact .body v x hx hs
  · exact F.names
  · exact fun v => printed_of_functions (p := p) F v
  · exact fun v b hb => ends_of_functions (p := p) F hb
  · exact fun v t ht => resolved_of_functions (p := p) F ht

end

theorem wellformed_of_parse {txt : String} (h : parse txt = .ok p) : Wellformed p := by
  rw [parse] at h
  obtain ⟨items, _, h⟩ := bind_eq_ok.1 h
  have h := mapError_eq_ok.1 h
  rw [program] at h
  obtain ⟨q, hq, h⟩ := bind_eq_ok.1 h
  obtain rfl := pure_eq_ok.1 h
  exact wellformed_of_functions (functions_of_items hq)

end Source
end LoopClock
