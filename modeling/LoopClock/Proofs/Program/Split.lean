import LoopClock.Proofs.Program.View

/-! What splitting the edges into a block does to a program, block by block. -/
namespace LoopClock.Program

variable {p : Program} {v w a e n : Vertex} {b : Block} {i j : Nat}

/-! ## Leading edges to another block -/

/-- What becomes of a block when the edges from `preds` into `e` are led to `n`. -/
def gathered (e n : Vertex) (preds : List Vertex) (v : Vertex) (b : Block) : Block :=
  { b with
    prev := if v = e then b.prev.filter (· ∉ preds) else if v = n then b.prev ++ preds else b.prev
    succ := if v ∈ preds then b.succ.replace e n else b.succ
    jump := if v ∈ preds then b.jump.map (Terminator.retarget e.label n.label) else b.jump }

private theorem revised_reroute (han : a ≠ n) (hen : e ≠ n) (hs : e ∈ p.succ a) :
    Revised (gathered e n [a]) p (reroute e n p a) := by
  rw [reroute, redirect, if_pos hs, retarget]
  have h := ((revised_update (p := p) (v := a)
    (c := fun b => { b with succ := b.succ.replace e n }) fun _ => rfl).trans
    (revised_update (v := e) (c := fun b => { b with prev := b.prev.filter (· != a) })
      fun _ => rfl)).trans
    (revised_update (v := n) (c := fun b => { b with prev := b.prev ++ [a] }) fun _ => rfl)
  refine (h.trans (revised_update (v := a) (c := fun b =>
    { b with jump := b.jump.map (Terminator.retarget e.label n.label) }) fun _ => rfl)).congr
    fun v b _ => ?_
  have hleft : ∀ l : List Vertex, l.filter (· != a) = l.filter (fun x => !decide (x = a)) :=
    fun l => List.filter_congr fun x _ => by by_cases hx : x = a <;> simp [hx]
  by_cases hva : v = a
  · subst hva
    by_cases hve : v = e
    · subst hve
      simp [gathered, hen, hleft]
    · simp [gathered, hve, han]
  · by_cases hve : v = e
    · subst hve
      simp [gathered, hva, hen, hleft]
    · by_cases hvn : v = n
      · subst hvn
        simp [gathered, hva, hve]
      · simp [gathered, hva, hve, hvn]

private theorem gathered_cons {as : List Vertex} (ha : a ∉ as) :
    gathered e n as v (gathered e n [a] v b) = gathered e n (a :: as) v b := by
  simp only [gathered, List.mem_cons, List.not_mem_nil, or_false]
  congr 1
  · by_cases hve : v = e
    · simp [hve, List.filter_filter, Bool.and_comm]
    · by_cases hvn : v = n
      · simp [hvn ▸ hve, hvn]
      · simp [hve, hvn]
  · by_cases hva : v = a
    · simp [hva, ha]
    · simp [hva]
  · by_cases hva : v = a
    · simp [hva, ha]
    · simp [hva]

theorem revised_gather {preds : List Vertex} (hn : n ∉ preds) (hen : e ≠ n)
    (hnd : preds.Nodup) (hs : ∀ a ∈ preds, e ∈ p.succ a) :
    Revised (gathered e n preds) p (preds.foldl (reroute e n) p) := by
  induction preds generalizing p with
  | nil => exact Revised.refl.congr fun v b _ => by simp [gathered]
  | cons a as ih =>
    obtain ⟨ha, hnd⟩ := List.nodup_cons.1 hnd
    rw [List.mem_cons, not_or] at hn
    have hfirst := revised_reroute (Ne.symm hn.1) hen (hs a List.mem_cons_self)
    rw [List.foldl_cons]
    refine (hfirst.trans (ih hn.2 hnd fun c hc => ?_)).congr fun v b _ =>
      gathered_cons ha
    have hca : c ≠ a := fun hca => ha (hca ▸ hc)
    have hold := hs c (List.mem_cons_of_mem a hc)
    rw [succ] at hold ⊢
    rw [hfirst.block?, Option.map_map]
    simpa [gathered, hca, Function.comp_def] using hold

/-! ## Laying out a new block -/

private theorem place_blocks (f : Func) (b : Block) (before : Option Int) :
    ∃ pre post, f.blocks = pre ++ post ∧ (f.place b before).blocks = pre ++ b :: post ∧
      (f.blocks ≠ [] → pre ≠ []) := by
  refine ⟨_, _, (List.take_append_drop _ _).symm, rfl, fun hne hpre => ?_⟩
  rcases List.take_eq_nil_iff.1 hpre with h | h
  · omega
  · exact hne h

theorem ids_place (f : Func) (b : Block) (before : Option Int) :
    (f.place b before).ids = f.ids.take (max (f.ids.findIdx (some · == before)) 1) ++
      b.id :: f.ids.drop (max (f.ids.findIdx (some · == before)) 1) := by
  simp [Func.place, Func.ids, List.findIdx_map, Function.comp_def]

/-- `q` is `p` with the block `b` laid out as `n`, never in front of the entry. -/
structure Extended (p : Program) (n : Vertex) (b : Block) (q : Program) : Prop where
  bare : ∀ i, q.bare? i =
    if i = n.func then (p.bare? i).map fun f => { f with total := n.id } else p.bare? i
  ids : ∀ i, i ≠ n.func → q.ids i = p.ids i
  laid : ∃ pre post, p.ids n.func = pre ++ post ∧ q.ids n.func = pre ++ n.id :: post ∧
    (p.ids n.func ≠ [] → pre ≠ [])
  block? : ∀ v, q.block? v = if v = n then some b else p.block? v

theorem extended_addBlock (before : Vertex) (hf : n.func < p.funcs.length) (hb : b.id = n.id)
    (hn : n.id ∉ p.ids n.func) : Extended p n b (p.addBlock n b before) := by
  obtain ⟨f, hpf⟩ : ∃ f, p.funcs[n.func]? = some f := ⟨_, List.getElem?_eq_getElem hf⟩
  rw [ids_eq hpf] at hn
  obtain ⟨pre, post, hblocks, hplace, hpre⟩ :=
    place_blocks f b (if before.func = n.func then some before.id else none)
  have hget : ∀ i, (p.addBlock n b before).funcs[i]? =
      if i = n.func then some { f.place b
        (if before.func = n.func then some before.id else none) with total := n.id }
      else p.funcs[i]? := fun i => by
    rw [addBlock, List.getElem?_modify]
    by_cases hi : n.func = i
    · subst hi
      simp [hpf]
    · simp [hi, Ne.symm hi]
  refine ⟨fun i => ?_, fun i hi => ?_, ⟨pre.map (·.id), post.map (·.id), ?_, ?_, ?_⟩, fun v => ?_⟩
  · rw [bare?, hget]
    split
    · next hi => simp [bare?, hi, hpf, Func.bare, Func.place]
    · rfl
  · simp [Program.ids, hget, hi]
  · rw [ids_eq hpf, Func.ids, hblocks, List.map_append]
  · simp only [Program.ids, hget, if_true, Option.map_some, Option.getD_some, Func.ids, hplace,
      List.map_append, List.map_cons, hb]
  · rw [ids_eq hpf, Func.ids]
    intro hne hnil
    exact hpre (fun h => hne (by rw [h]; rfl)) (List.map_eq_nil_iff.1 hnil)
  · have hpre : pre.find? (·.id == n.id) = none := by
      rw [List.find?_eq_none]
      intro c hc
      have hmem : c.id ∈ f.ids := List.mem_map_of_mem (hblocks ▸ List.mem_append_left post hc)
      have hne : c.id ≠ n.id := fun h => hn (h ▸ hmem)
      simpa using hne
    rw [Program.block?, Program.block?, hget]
    by_cases hv : v.func = n.func
    · simp only [hv, if_true, Option.bind_some, Func.block?, hpf, hplace, hblocks,
        List.find?_append, List.find?_cons, hb]
      by_cases hid : v.id = n.id
      · have hvn : v = n := by
          cases v
          cases n
          simp_all
        simp [hvn, hpre]
      · have hvn : v ≠ n := fun h => hid (h ▸ rfl)
        have hne : (n.id == v.id) = false := by simpa using Ne.symm hid
        simp [hvn, hne]
    · have hvn : v ≠ n := fun h => hv (h ▸ rfl)
      simp [hv, hvn]

theorem ids_addBlock {before : Vertex} (hf : n.func < p.funcs.length) (hb : b.id = n.id)
    (hbefore : before.func = n.func) : (p.addBlock n b before).ids n.func =
      (p.ids n.func).take (max ((p.ids n.func).idxOf before.id) 1) ++
        n.id :: (p.ids n.func).drop (max ((p.ids n.func).idxOf before.id) 1) := by
  obtain ⟨f, hpf⟩ : ∃ f, p.funcs[n.func]? = some f := ⟨_, List.getElem?_eq_getElem hf⟩
  have hget : (p.addBlock n b before).funcs[n.func]? =
      some { f.place b (some before.id) with total := n.id } := by
    rw [addBlock, List.getElem?_modify]
    simp [hpf, hbefore]
  have hids : Func.ids { f.place b (some before.id) with total := n.id } =
      (f.place b (some before.id)).ids := rfl
  rw [ids_eq hget, hids, ids_place, ids_eq hpf, hb]
  rfl

/-! ## Splitting -/

/-- What becomes of an old block when the edges from `preds` into `e` are split. The phis of `e` that
stay are `stay`. -/
def rerouted (e n : Vertex) (preds : List Vertex) (stay : List Phi) (v : Vertex) (b : Block) : Block :=
  { b with
    prev := if v = e then b.prev.filter (· ∉ preds) ++ [n] else b.prev
    succ := if v ∈ preds then b.succ.replace e n else b.succ
    phis := if v = e then stay else b.phis
    jump := if v ∈ preds then b.jump.map (Terminator.retarget e.label n.label) else b.jump }

theorem rerouted_eq {preds : List Vertex} {stay : List Phi} (hv : v ≠ e) (hp : v ∉ preds) :
    rerouted e n preds stay v b = b := by
  simp [rerouted, hv, hp]

/-- The phis that stay, the phis of the new block, and the number of the last temporary. -/
abbrev splitPhis (p : Program) (e n : Vertex) (preds : List Vertex) : List Phi × List Phi × Nat :=
  Phi.rerouteAll (preds.map Vertex.label) n.label p.temps (p.phis e)

/-- `q` is `p` with the edges from `preds` into `e` led through the new block `n`. -/
structure Split (p : Program) (e n : Vertex) (preds : List Vertex) (q : Program) : Prop where
  bare : ∀ i, q.bare? i =
    if i = n.func then (p.bare? i).map fun f => { f with total := n.id } else p.bare? i
  ids : ∀ i, i ≠ n.func → q.ids i = p.ids i
  laid : ∃ pre post, p.ids n.func = pre ++ post ∧ q.ids n.func = pre ++ n.id :: post ∧
    (p.ids n.func ≠ [] → pre ≠ [])
  new : q.block? n =
    some ⟨n.id, preds, [e], (p.splitPhis e n preds).2.1, [], some (.jump e.label)⟩
  old : ∀ v, v ≠ n → q.block? v =
    (p.block? v).map (rerouted e n preds (p.splitPhis e n preds).1 v)
  temps : q.temps = (p.splitPhis e n preds).2.2
  placed : e.func = n.func → q.ids n.func =
    (p.ids n.func).take (max ((p.ids n.func).idxOf e.id) 1) ++
      n.id :: (p.ids n.func).drop (max ((p.ids n.func).idxOf e.id) 1)

theorem split_splitPredecessors {preds : List Vertex} (hi : i < p.funcs.length)
    (hn : (p.nextVertex i).id ∉ p.ids i) (hen : e ≠ p.nextVertex i)
    (hnp : p.nextVertex i ∉ preds) (hnd : preds.Nodup) (hs : ∀ a ∈ preds, e ∈ p.succ a) :
    Split p e (p.nextVertex i) preds (p.splitPredecessors i e preds).1 := by
  set n := p.nextVertex i with hnv
  set R := p.splitPhis e n preds with hR
  have hne : n ≠ e := Ne.symm hen
  have hx := extended_addBlock (p := p) (n := n)
    (b := ⟨n.id, [], [], R.2.1, [], some (.jump e.label)⟩) e hi rfl hn
  set p₁ := p.addBlock n ⟨n.id, [], [], R.2.1, [], some (.jump e.label)⟩ e with hp₁
  have hg : Revised (gathered e n preds) p₁ (preds.foldl (reroute e n) p₁) :=
    revised_gather hnp hen hnd fun a ha => by
      have han : a ≠ n := fun h => hnp (h ▸ ha)
      simpa [succ, hx.block?, han] using hs a ha
  have hk := hg.trans (revised_update (v := e) (c := fun b => { b with phis := R.1 }) fun _ => rfl)
  set p₃ := (preds.foldl (reroute e n) p₁).update e fun b => { b with phis := R.1 } with hp₃
  have hsucc : p₃.succ n = [] := by
    simp [succ, hk.block?, hx.block?, gathered, hnp, hne]
  have hlink : p₃.link n e = (p₃.update n fun b => { b with succ := b.succ ++ [e] }).update e
      fun b => { b with prev := b.prev ++ [n] } := by
    simp [link, hsucc]
  have hq : (p.splitPredecessors i e preds).1 = { p₃.link n e with temps := R.2.2 } := rfl
  have hall := ((hk.trans (revised_update (v := n)
    (c := fun b => { b with succ := b.succ ++ [e] }) fun _ => rfl)).trans
    (revised_update (v := e) (c := fun b => { b with prev := b.prev ++ [n] }) fun _ => rfl)).trans
    (Revised.of_funcs (q := { p₃.link n e with temps := R.2.2 }) (by rw [hlink]))
  rw [hq]
  refine ⟨fun j => (hall.bare j).trans (hx.bare j), fun j hj => (hall.ids j).trans (hx.ids j hj),
    ?_, ?_, fun v hv => ?_, rfl, fun he => (hall.ids _).trans (ids_addBlock hi rfl he)⟩
  · obtain ⟨pre, post, h, h', hpre⟩ := hx.laid
    exact ⟨pre, post, h, (hall.ids _).trans h', hpre⟩
  · rw [hall.block?, hx.block?, if_pos rfl, Option.map_some]
    simp [gathered, hne, hnp, ← hR]
  · rw [hall.block?, hx.block?, if_neg hv]
    refine Option.map_congr fun b _ => ?_
    by_cases hve : v = e
    · simp [gathered, rerouted, hve, hen, ← hR]
    · simp [gathered, rerouted, hv, hve]

namespace Split

variable {q : Program} {preds : List Vertex} (S : Split p e n preds q)
include S

theorem mem_ids_iff {j : Int} :
    j ∈ q.ids i ↔ j ∈ p.ids i ∨ i = n.func ∧ j = n.id := by
  by_cases hi : i = n.func
  · obtain ⟨pre, post, h, h', _⟩ := S.laid
    rw [hi, h, h', List.mem_append, List.mem_append, List.mem_cons]
    simp only [true_and]
    rw [or_left_comm, or_comm]
  · simp [S.ids i hi, hi]

/-- The new block is not laid out ahead of the entry. -/
theorem head?_ids {j : Int} (h : (p.ids i).head? = some j) :
    (q.ids i).head? = some j := by
  by_cases hi : i = n.func
  · obtain ⟨pre, post, hp, hq, hpre⟩ := S.laid
    subst hi
    have hne : p.ids n.func ≠ [] := fun hnil => by simp [hnil] at h
    rw [hq, List.head?_append_of_ne_nil _ (hpre hne)]
    rw [hp, List.head?_append_of_ne_nil _ (hpre hne)] at h
    exact h
  · rw [S.ids i hi]
    exact h

theorem signatures : q.signatures = p.signatures := by
  refine List.ext_getElem? fun i => ?_
  rw [signatures_get?, signatures_get?, S.bare]
  split
  · rw [Option.map_map]
    rfl
  · rfl

theorem length_eq : q.funcs.length = p.funcs.length := length_of_signatures S.signatures

end Split

end LoopClock.Program
