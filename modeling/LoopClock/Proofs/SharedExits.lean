import LoopClock.Proofs.Program.Moves
import LoopClock.Proofs.Run.Standard

/-! Giving a loop exits of its own, for any set of blocks taken as a loop. Each exit that is also entered
from elsewhere gets one block in front of it, which takes over the edges from the loop. All other edges
and blocks stay as they are. -/
namespace LoopClock
open Graph Program

/-- Putting `b` in front of `a`, but not in front of all. -/
theorem insert_eq_flatMap {α : Type} [DecidableEq α] {as : List α} {a : α} (hn : as.Nodup) (ha : a ∈ as)
    (b : α) : as.take (max (as.idxOf a) 1) ++ b :: as.drop (max (as.idxOf a) 1) =
      as.flatMap fun c => if c = a then if as.head? = some c then [c, b] else [b, c] else [c] := by
  obtain ⟨pre, post, rfl⟩ := List.append_of_mem ha
  rw [List.nodup_append, List.nodup_cons] at hn
  obtain ⟨_, ⟨hpost, _⟩, hpre⟩ := hn
  have hpre : a ∉ pre := fun h => hpre a h a List.mem_cons_self rfl
  have rest : ∀ {cs : List α} (f : α → List α), a ∉ cs →
      (cs.flatMap fun c => if c = a then f c else [c]) = cs := by
    intro cs f hcs
    have hsingle : ∀ c ∈ cs, (if c = a then f c else [c]) = [c] := fun c hc =>
      if_neg fun h : c = a => hcs (h ▸ hc)
    rw [List.flatMap_congr hsingle, List.flatMap_singleton']
  rw [List.flatMap_append, List.flatMap_cons, rest _ hpre, rest _ hpost, if_pos rfl,
    List.idxOf_append_of_notMem hpre, List.idxOf_cons_self]
  cases pre with
  | nil => simp
  | cons c cs =>
    have hca : c ≠ a := fun h => hpre (h ▸ List.mem_cons_self)
    have hmax : max ((c :: cs).length + 0) 1 = (c :: cs).length := by simp
    rw [hmax, List.take_left, List.drop_left]
    simp [hca]

namespace Program.Split

variable {p q : Program} {e n : Vertex} {preds : List Vertex}

/-- The new block is laid out in front of the target, or behind the entry if that is the target. -/
theorem layout_eq (S : Split p e n preds q) (hn : (p.ids n.func).Nodup)
    (he : e ∈ (p.flow n.func).layout) :
    (q.flow n.func).layout = (p.flow n.func).layout.flatMap fun v =>
      if v = e then if p.first? n.func = some v then [v, n] else [n, v] else [v] := by
  obtain ⟨hf, hid⟩ := mem_layout.1 he
  have hvertex : ∀ {j : Int} {v : Vertex}, v.func = n.func → ((⟨n.func, j⟩ : Vertex) = v ↔ j = v.id) := by
    rintro j ⟨_, _⟩ rfl
    simp
  have hfirst : ∀ j : Int, p.first? n.func = some ⟨n.func, j⟩ ↔ (p.ids n.func).head? = some j := by
    intro j
    rw [← head?_layout, flow, List.head?_map, Option.map_eq_some_iff]
    simp
  have hlayout : ∀ p : Program, (p.flow n.func).layout = (p.ids n.func).map (⟨n.func, ·⟩) := fun _ => rfl
  rw [hlayout, S.placed hf, insert_eq_flatMap hn hid, List.map_flatMap, hlayout, List.flatMap_map]
  refine List.flatMap_congr fun j _ => ?_
  simp only [hvertex hf, hfirst]
  by_cases hj : j = e.id
  · by_cases hh : (p.ids n.func).head? = some j
    · simp [← hj, hh]
    · simp [← hj, hh]
  · simp [hj]

end Program.Split

namespace Program

/-- A block that is not entered from the loop only. The entry `r` of the function never is. -/
def IsShared (p : Program) (l : Loop) (r x : Vertex) : Prop := x = r ∨ ∃ v ∈ p.prev x, v ∉ l.blocks

instance (p : Program) (l : Loop) (r x : Vertex) : Decidable (p.IsShared l r x) :=
  inferInstanceAs (Decidable (_ ∨ _))

theorem not_isShared {p : Program} {l : Loop} {r x : Vertex} :
    ¬ p.IsShared l r x ↔ x ≠ r ∧ ∀ v ∈ p.prev x, v ∈ l.blocks := by
  simp [IsShared]

def sharedExits (p : Program) (l : Loop) (r : Vertex) : List Vertex :=
  (p.exitBlocks l).filter (p.IsShared l r ·)

end Program

/-- `q` is `p` with the edges by which the loop `l` of function `i` is left for a block `e` of `es` led
through the block `via e`. -/
structure Led (p : Program) (i : Nat) (r : Vertex) (l : Loop) (es : List Vertex)
    (via : Vertex → Vertex) (q : Program) : Prop where
  regular : q.Regular i
  first : q.first? i = some r
  subset : ∀ e ∈ es, e ∈ (p.flow i).layout
  layout : (q.flow i).layout = (p.flow i).layout.flatMap fun v =>
    if v ∈ es then if v = r then [v, via v] else [via v, v] else [v]
  new : ∀ e ∈ es, via e ∉ (p.flow i).layout ∧ q.succ (via e) = [e] ∧
    q.prev (via e) = (p.prev e).filter (· ∈ l.blocks)
  succ : ∀ v ∈ (p.flow i).layout, q.succ v =
    (p.succ v).map fun w => if v ∈ l.blocks ∧ w ∈ es then via w else w
  prev : ∀ v ∈ (p.flow i).layout, q.prev v =
    if v ∈ es then (p.prev v).filter (· ∉ l.blocks) ++ [via v] else p.prev v
  other : ∀ v, (v.func = i → v ∈ (p.flow i).layout) → v ∉ es →
    (v ∈ l.blocks → ∀ w ∈ p.succ v, w ∉ es) → q.block? v = p.block? v

namespace Led

variable {p q q' : Program} {i : Nat} {r e v : Vertex} {l : Loop} {es : List Vertex}
  {via : Vertex → Vertex}

theorem refl (G : p.Regular i) (hr : p.first? i = some r) : Led p i r l [] via p where
  regular := G
  first := hr
  subset := nofun
  layout := by simp
  new := nofun
  succ v _ := by simp
  prev v _ := by simp
  other _ _ _ _ := rfl

/-- The edges from the loop to `e`. -/
theorem mem_preds (G : p.Regular i) (he : e ∈ (p.flow i).layout) :
    v ∈ (p.prev e).filter (· ∈ l.blocks) ↔ e ∈ p.succ v ∧ v ∈ l.blocks := by
  rw [List.mem_filter, decide_eq_true_eq, G.mem_prev v e (Program.mem_layout.1 he).1]
  rfl

section
variable (L : Led p i r l es via q)
include L

theorem mem_layout (hv : v ∈ (p.flow i).layout) : v ∈ (q.flow i).layout := by
  rw [L.layout, List.mem_flatMap]
  refine ⟨v, hv, ?_⟩
  split
  · split <;> simp
  · exact List.mem_singleton_self v

theorem via_mem_layout (he : e ∈ es) : via e ∈ (q.flow i).layout := by
  rw [L.layout, List.mem_flatMap]
  refine ⟨e, L.subset e he, ?_⟩
  rw [if_pos he]
  split <;> simp

variable (hl : ∀ v ∈ l.blocks, v ∈ (p.flow i).layout) (he : e ∈ (p.flow i).layout) (hes : e ∉ es)
include he hes

theorem moves : Moves q e (q.nextVertex i) ((p.prev e).filter (· ∈ l.blocks)) := by
  have hprev := L.prev e he
  rw [if_neg hes] at hprev
  obtain ⟨hf, hid⟩ := Program.mem_layout.1 (L.mem_layout he)
  exact {
    regular := hf ▸ L.regular
    mem_ids := hf ▸ hid
    next := by rw [hf]
    edge := fun a ha => by
      rw [← L.regular.mem_prev a e hf, hprev]
      exact List.mem_of_mem_filter ha
    nodup := by
      rw [← hprev]
      exact (L.regular.nodup_prev e hf).filter _ }

theorem ne_next (hv : v ∈ (p.flow i).layout) : v ≠ q.nextVertex i :=
  (L.moves he hes).ne_new (L.mem_layout hv)

theorem ne_via {e' : Vertex} (he' : e' ∈ es) : e' ≠ e ∧ via e' ≠ e ∧ via e' ≠ q.nextVertex i :=
  ⟨fun h => hes (h ▸ he'), fun h => (L.new e' he').1 (h ▸ he),
    (L.moves he hes).ne_new (L.via_mem_layout he')⟩

section
variable (G : p.Regular i) (S : Split q e (q.nextVertex i) ((p.prev e).filter (· ∈ l.blocks)) q')
include S

theorem layout_split : (q'.flow i).layout = (p.flow i).layout.flatMap fun v =>
    if v ∈ es ++ [e] then
      if v = r then [v, Function.update via e (q.nextVertex i) v]
      else [Function.update via e (q.nextVertex i) v, v]
    else [v] := by
  have hsplit := S.layout_eq L.regular.nodup (L.mem_layout he)
  have hfunc : (q.nextVertex i).func = i := rfl
  rw [hfunc, L.layout, List.flatMap_assoc] at hsplit
  rw [hsplit]
  refine List.flatMap_congr fun v _ => ?_
  by_cases hve : v = e
  · subst hve
    simp [hes, L.first, eq_comm]
  · by_cases hv : v ∈ es
    · have hvia := (L.ne_via he hes hv).2.1
      by_cases hvr : v = r
      · subst hvr
        simp [hv, hve, hvia]
      · simp [hv, hve, hvia, hvr]
    · simp [hv, hve]

theorem prev_split (hv : v ∈ (p.flow i).layout) : q'.prev v =
    if v ∈ es ++ [e] then
      (p.prev v).filter (· ∉ l.blocks) ++ [Function.update via e (q.nextVertex i) v]
    else p.prev v := by
  rw [(L.moves he hes).prev_eq S, if_neg (L.ne_next he hes hv)]
  by_cases hve : v = e
  · subst hve
    have hfilter : (p.prev v).filter (· ∉ (p.prev v).filter (· ∈ l.blocks)) =
        (p.prev v).filter (· ∉ l.blocks) :=
      List.filter_congr fun u hu => by simp [hu]
    rw [if_pos rfl, L.prev v hv, if_neg hes, hfilter]
    simp
  · rw [if_neg hve, L.prev v hv]
    simp [hve]

include G

include hl in
theorem new_split : ∀ e' ∈ es ++ [e],
    Function.update via e (q.nextVertex i) e' ∉ (p.flow i).layout ∧
      q'.succ (Function.update via e (q.nextVertex i) e') = [e'] ∧
      q'.prev (Function.update via e (q.nextVertex i) e') = (p.prev e').filter (· ∈ l.blocks) := by
  have M := L.moves he hes
  intro e' he'
  rw [List.mem_append, List.mem_singleton] at he'
  rcases he' with he' | rfl
  · obtain ⟨hne, hne', hnew⟩ := L.ne_via he hes he'
    have hvia : via e' ∉ (p.prev e).filter (· ∈ l.blocks) := fun h =>
      (L.new e' he').1 (hl _ ((mem_preds G he).1 h).2)
    rw [Function.update_of_ne hne, M.succ_eq S, M.prev_eq S]
    simp only [hnew, hvia, hne', if_false]
    exact L.new e' he'
  · rw [Function.update_self, M.succ_eq S, M.prev_eq S]
    simp only [if_true]
    exact ⟨fun h => L.ne_next he hes h rfl, trivial, trivial⟩

theorem succ_split (hv : v ∈ (p.flow i).layout) : q'.succ v = (p.succ v).map fun w =>
    if v ∈ l.blocks ∧ w ∈ es ++ [e] then Function.update via e (q.nextVertex i) w else w := by
  rw [(L.moves he hes).succ_eq S, if_neg (L.ne_next he hes hv), L.succ v hv]
  by_cases hp : v ∈ (p.prev e).filter (· ∈ l.blocks)
  · have hvl := ((mem_preds G he).1 hp).2
    have hn := L.regular.nodup_succ v (Program.mem_layout.1 hv).1
    rw [L.succ v hv] at hn
    rw [if_pos hp, replace_eq_map hn, List.map_map]
    refine List.map_congr_left fun w _ => ?_
    by_cases hwe : w = e
    · simp [hwe, hvl, hes]
    · by_cases hw : w ∈ es
      · simp [hwe, hvl, hw, (L.ne_via he hes hw).2.1]
      · simp [hwe, hvl, hw]
  · rw [if_neg hp]
    refine List.map_congr_left fun w hw => ?_
    by_cases hvl : v ∈ l.blocks
    · have hwe : w ≠ e := fun h => hp ((mem_preds G he).2 ⟨h ▸ hw, hvl⟩)
      simp [hwe]
    · simp [hvl]

theorem other_split (hv : v.func = i → v ∈ (p.flow i).layout) (hve : v ∉ es ++ [e])
    (hout : v ∈ l.blocks → ∀ w ∈ p.succ v, w ∉ es ++ [e]) : q'.block? v = p.block? v := by
  have hvn : v ≠ q.nextVertex i := by
    rintro rfl
    exact L.ne_next he hes (hv rfl) rfl
  have hvp : v ∉ (p.prev e).filter (· ∈ l.blocks) := by
    intro hp
    obtain ⟨hsucc, hvl⟩ := (mem_preds G he).1 hp
    exact hout hvl e hsucc (List.mem_append_right _ (List.mem_singleton_self e))
  have hout' : v ∈ l.blocks → ∀ w ∈ p.succ v, w ∉ es := fun hvl w hw hwe =>
    hout hvl w hw (List.mem_append_left _ hwe)
  rw [List.mem_append, List.mem_singleton, not_or] at hve
  rw [S.old v hvn, L.other v hv hve.1 hout']
  exact (Option.map_congr fun b _ => rerouted_eq hve.2 hvp).trans Option.map_id'

include hl

/-- The exit `e` is split. -/
theorem split : Led p i r l (es ++ [e]) (Function.update via e (q.nextVertex i)) q' where
  regular := (L.moves he hes).regular_split S L.regular
  first := S.first? L.first
  subset v hv := by
    rw [List.mem_append, List.mem_singleton] at hv
    rcases hv with hv | rfl
    · exact L.subset v hv
    · exact he
  layout := L.layout_split he hes S
  new := L.new_split hl he hes G S
  succ _ hv := L.succ_split he hes G S hv
  prev _ hv := L.prev_split he hes S hv
  other _ := L.other_split he hes G S

end

end

end Led

/-! ## One exit after the other -/

namespace Program

variable {p q : Program} {i : Nat} {r x : Vertex} {l : Loop}

/-- A block is in a loop by its id. -/
theorem holds_iff_mem (hl : ∀ v ∈ l.blocks, v.func = i) (hx : x.func = i) :
    l.holds x.id = true ↔ x ∈ l.blocks := by
  rw [Loop.holds, List.any_eq_true]
  constructor
  · rintro ⟨v, hv, hid⟩
    have hvx : v = x := Vertex.ext ((hl v hv).trans hx.symm) (by simpa using hid)
    exact hvx ▸ hv
  · intro h
    exact ⟨x, h, by simp⟩

/-- An exit is split if it is shared, and else left alone. -/
theorem val_dedicateExit (hl : ∀ v ∈ l.blocks, v.func = i) (hr : p.first? i = some r)
    (hx : ∀ v ∈ p.prev x, v.func = i) (b : Bool) : (dedicateExit i l (p, b) x).val =
      if p.IsShared l r x then
        ((p.splitPredecessors i x ((p.prev x).filter (· ∈ l.blocks))).1, true)
      else (p, b) := by
  have hholds : ∀ v ∈ p.prev x, l.holds v.id = decide (v ∈ l.blocks) := by
    intro v hv
    rw [Bool.eq_iff_iff, holds_iff_mem hl (hx v hv), decide_eq_true_eq]
  have hinside : (p.prev x).filter (l.holds ·.id) = (p.prev x).filter (· ∈ l.blocks) :=
    List.filter_congr hholds
  have houtside : (p.prev x).filter (not ∘ (l.holds ·.id)) = [] ↔ ∀ v ∈ p.prev x, v ∈ l.blocks := by
    rw [List.filter_eq_nil_iff]
    refine forall₂_congr fun v hv => ?_
    simp [hholds v hv]
  have hown : (p.prev x).filter (not ∘ (l.holds ·.id)) = [] ∧ p.first? i ≠ some x ↔
      ¬ p.IsShared l r x := by
    rw [houtside, hr, not_isShared, and_comm, ne_eq, Option.some.injEq, eq_comm]
  simp only [dedicateExit, List.partition_eq_filter_filter, hinside, hown]
  by_cases hs : p.IsShared l r x
  · rw [if_neg (not_not.2 hs), if_pos hs]
    rfl
  · rw [if_pos hs, if_neg hs]
    rfl

/-- Exits that are not shared are all left alone. -/
theorem val_foldlM_of_own (hl : ∀ v ∈ l.blocks, v.func = i) (hr : p.first? i = some r)
    {xs : List Vertex} (hxs : ∀ x ∈ xs, ¬ p.IsShared l r x) (b : Bool) :
    (xs.foldlM (dedicateExit i l) (p, b)).val = (p, b) := by
  induction xs with
  | nil => rfl
  | cons x xs ih =>
    obtain ⟨hx, hxs⟩ := List.forall_mem_cons.1 hxs
    have hval := val_dedicateExit hl hr (fun v hv => hl v ((not_isShared.1 hx).2 v hv)) b
    rw [if_neg hx] at hval
    rw [List.foldlM_cons, Traced.val_bind, hval]
    exact ih hxs

theorem Regular.mem_exitBlocks_iff (G : p.Regular i) (hl : ∀ v ∈ l.blocks, v.func = i) :
    x ∈ p.exitBlocks l ↔ (∃ v ∈ l.blocks, x ∈ p.succ v) ∧ x ∉ l.blocks := by
  rw [G.exitBlocks_eq_eraseDups hl, List.mem_eraseDups, List.mem_filter, List.mem_flatMap]
  refine and_congr_right fun ⟨v, hv, he⟩ => ?_
  rw [← holds_iff_mem hl (G.edge_target (hl v hv) he).1]
  simp

end Program

namespace Led

variable {p q : Program} {i : Nat} {r x : Vertex} {l : Loop} {es xs : List Vertex} {via : Vertex → Vertex}
  (G : p.Regular i) (hl : ∀ v ∈ l.blocks, v ∈ (p.flow i).layout)
include G hl

theorem dedicateExit (L : Led p i r l es via q) (hx : x ∈ (p.flow i).layout) (hes : x ∉ es) (b : Bool) :
    ∃ via, Led p i r l (es ++ [x].filter (p.IsShared l r ·)) via
        (Program.dedicateExit i l (q, b) x).val.1 ∧
      (Program.dedicateExit i l (q, b) x).val.2 = (b || decide (p.IsShared l r x)) := by
  have hf := (Program.mem_layout.1 hx).1
  have hprev : q.prev x = p.prev x := by rw [L.prev x hx, if_neg hes]
  have hfunc : ∀ v ∈ q.prev x, v.func = i := by
    rw [hprev]
    exact fun v hv => (G.edge_source hf ((G.mem_prev v x hf).1 hv)).1
  have hshared : q.IsShared l r x ↔ p.IsShared l r x := by rw [IsShared, IsShared, hprev]
  rw [val_dedicateExit (fun v hv => (Program.mem_layout.1 (hl v hv)).1) L.first hfunc, hprev]
  simp only [hshared]
  by_cases hs : p.IsShared l r x
  · have S := (L.moves hx hes).split
    rw [hf] at S
    refine ⟨Function.update via x (q.nextVertex i), ?_, ?_⟩
    · rw [if_pos hs, List.filter_cons_of_pos (by simpa using hs)]
      exact L.split hl hx hes G S
    · simp [hs]
  · refine ⟨via, ?_, ?_⟩
    · rw [if_neg hs, List.filter_cons_of_neg (by simpa using hs), List.filter_nil, List.append_nil]
      exact L
    · simp [hs]

theorem foldlM (L : Led p i r l es via q) (hn : xs.Nodup)
    (hxs : ∀ x ∈ xs, x ∈ (p.flow i).layout ∧ x ∉ es) (b : Bool) :
    ∃ via, Led p i r l (es ++ xs.filter (p.IsShared l r ·)) via
        (xs.foldlM (Program.dedicateExit i l) (q, b)).val.1 ∧
      (xs.foldlM (Program.dedicateExit i l) (q, b)).val.2 =
        (b || xs.any (p.IsShared l r ·)) := by
  induction xs generalizing es via q b with
  | nil => exact ⟨via, by simpa using L, by simp⟩
  | cons x xs ih =>
    obtain ⟨hxn, hn⟩ := List.nodup_cons.1 hn
    obtain ⟨⟨hx, hes⟩, hxs⟩ := List.forall_mem_cons.1 hxs
    obtain ⟨via, L', hb⟩ := L.dedicateExit G hl hx hes b
    have hxs' : ∀ y ∈ xs, y ∈ (p.flow i).layout ∧ y ∉ es ++ [x].filter (p.IsShared l r ·) := by
      intro y hy
      refine ⟨(hxs y hy).1, fun h => ?_⟩
      rcases List.mem_append.1 h with h | h
      · exact (hxs y hy).2 h
      · have hyx := List.mem_singleton.1 (List.mem_of_mem_filter h)
        exact hxn (hyx ▸ hy)
    obtain ⟨via', L'', hb'⟩ := ih L' hn hxs' (Program.dedicateExit i l (q, b) x).val.2
    rw [List.append_assoc, ← List.filter_append, List.singleton_append] at L''
    rw [List.foldlM_cons, Traced.val_bind]
    refine ⟨via', L'', hb'.trans ?_⟩
    rw [hb, List.any_cons, Bool.or_assoc]

/-- All shared exits are led through new blocks, and it is told whether there are any. -/
theorem dedicateExits (hr : p.first? i = some r) :
    ∃ via, Led p i r l (p.sharedExits l r) via (p.dedicateExits i l).val.1 ∧
      ((p.dedicateExits i l).val.2 = true ↔ p.sharedExits l r ≠ []) := by
  have hfunc : ∀ v ∈ l.blocks, v.func = i := fun v hv => (Program.mem_layout.1 (hl v hv)).1
  have hn : (p.exitBlocks l).Nodup := by
    rw [G.exitBlocks_eq_eraseDups hfunc]
    exact nodup_eraseDups _
  have hxs : ∀ x ∈ p.exitBlocks l, x ∈ (p.flow i).layout ∧ x ∉ ([] : List Vertex) := by
    intro x hx
    obtain ⟨⟨v, hv, he⟩, _⟩ := (G.mem_exitBlocks_iff hfunc).1 hx
    exact ⟨Program.mem_layout.2 (G.edge_target (hfunc v hv) he), List.not_mem_nil⟩
  have L₀ : Led p i r l [] id p := .refl G hr
  obtain ⟨via, L, hb⟩ := L₀.foldlM G hl hn hxs false
  refine ⟨via, L, ?_⟩
  rw [Program.dedicateExits, hb, sharedExits, ne_eq, List.filter_eq_nil_iff]
  simp

/-- The new blocks are entered from the loop only, and the other exits were so before. -/
theorem not_isShared_of_mem (L : Led p i r l (p.sharedExits l r) via q) (hr : p.first? i = some r) :
    ∀ x ∈ q.exitBlocks l, ¬ q.IsShared l r x := by
  intro x hx
  have hfunc : ∀ v ∈ l.blocks, v.func = i := fun v hv => (Program.mem_layout.1 (hl v hv)).1
  obtain ⟨⟨v, hv, hxv⟩, hout⟩ := (L.regular.mem_exitBlocks_iff hfunc).1 hx
  rw [L.succ v (hl v hv), List.mem_map] at hxv
  obtain ⟨w, hw, rfl⟩ := hxv
  by_cases hs : w ∈ p.sharedExits l r
  · rw [if_pos ⟨hv, hs⟩, not_isShared]
    obtain ⟨hnew, _, hprev⟩ := L.new w hs
    refine ⟨fun h => hnew ?_, fun u hu => ?_⟩
    · exact h ▸ List.mem_of_head? (head?_layout.trans hr)
    · rw [hprev, List.mem_filter, decide_eq_true_eq] at hu
      exact hu.2
  · rw [if_neg fun h => hs h.2] at hout ⊢
    have hwl := Program.mem_layout.2 (G.edge_target (hfunc v hv) hw)
    have hexit := (G.mem_exitBlocks_iff hfunc).2 ⟨⟨v, hv, hw⟩, hout⟩
    rw [IsShared, L.prev w hwl, if_neg hs]
    exact fun h => hs (List.mem_filter.2 ⟨hexit, decide_eq_true h⟩)

end Led

variable {p q : Program} {i : Nat} {r : Vertex} {l : Loop} {changed : Bool}

/-- Any blocks of a function with a regular flow graph, taken as a loop, can be given exits of their own.
Afterwards no exit is the entry, and all are entered from the loop only. Those which were so before
are untouched. Each other exit `e` has got one new block `via e`, laid out in front of it or, for the
entry, behind it. It takes over the edges from the loop to `e`, in their order, and leads on to `e`.
All other edges are kept, and so are the places of the successors of each block. It is told
whether a block was added. To do it once more changes nothing. -/
theorem dedicateExits_any_loop (G : p.Regular i) (hr : p.first? i = some r)
    (hl : ∀ v ∈ l.blocks, v ∈ (p.flow i).layout) (hq : (p.dedicateExits i l).val = (q, changed)) :
    (∀ x ∈ q.exitBlocks l, x ≠ r ∧ ∀ v ∈ q.prev x, v ∈ l.blocks) ∧
    (∀ x ∈ p.exitBlocks l, (x ≠ r ∧ ∀ v ∈ p.prev x, v ∈ l.blocks) → q.block? x = p.block? x) ∧
    (∃ via : Vertex → Vertex,
      ((q.flow i).layout = (p.flow i).layout.flatMap fun v =>
        if v ∈ p.sharedExits l r then if v = r then [v, via v] else [via v, v] else [v]) ∧
      (∀ e ∈ p.sharedExits l r, via e ∉ (p.flow i).layout ∧ q.succ (via e) = [e] ∧
        q.prev (via e) = (p.prev e).filter (· ∈ l.blocks)) ∧
      (∀ v ∈ (p.flow i).layout, q.succ v =
        (p.succ v).map fun w => if v ∈ l.blocks ∧ w ∈ p.sharedExits l r then via w else w) ∧
      ∀ v ∈ (p.flow i).layout, q.prev v =
        if v ∈ p.sharedExits l r then (p.prev v).filter (· ∉ l.blocks) ++ [via v] else p.prev v) ∧
    (q.Regular i ∧ ∀ v, v.func ≠ i → q.block? v = p.block? v) ∧
    (changed = true ↔ ∃ n ∈ (q.flow i).layout, n ∉ (p.flow i).layout) ∧
    (q.dedicateExits i l).val = (q, false) := by
  obtain ⟨via, L, hchanged⟩ := Led.dedicateExits G hl hr
  rw [hq] at L hchanged
  have hfunc : ∀ v ∈ l.blocks, v.func = i := fun v hv => (Program.mem_layout.1 (hl v hv)).1
  have hown := L.not_isShared_of_mem G hl hr
  refine ⟨fun x hx => not_isShared.1 (hown x hx), fun x hx hx' => ?_,
    ⟨via, L.layout, L.new, L.succ, L.prev⟩, ⟨L.regular, fun v hv => ?_⟩, hchanged.trans ⟨?_, ?_⟩, ?_⟩
  · obtain ⟨⟨v, hv, he⟩, hout⟩ := (G.mem_exitBlocks_iff hfunc).1 hx
    have hxl := Program.mem_layout.2 (G.edge_target (hfunc v hv) he)
    refine L.other x (fun _ => hxl) (fun h => ?_) fun h => absurd h hout
    exact not_isShared.2 hx' (of_decide_eq_true (List.mem_filter.1 h).2)
  · refine L.other v (fun h => absurd h hv) (fun h => hv ?_) fun h => absurd (hfunc v h) hv
    exact (Program.mem_layout.1 (L.subset v h)).1
  · intro hne
    obtain ⟨e, he⟩ := List.exists_mem_of_ne_nil _ hne
    exact ⟨via e, L.via_mem_layout he, (L.new e he).1⟩
  · rintro ⟨n, hn, hnew⟩ hnil
    rw [L.layout, hnil] at hn
    simp at hn
    exact hnew hn
  · exact val_foldlM_of_own hfunc L.first hown false

namespace Source

/-- The entry is also entered from `B1`, and `B2` both from the entry and from `B1`. -/
def reenteredText : String :=
  "define i32 @main(i32 %1) \x7b
entry:
br i32 %1, label %B1, label %B2
B1:
br i32 %1, label %entry, label %B2
B2:
br label %B3
B3:
br label %B4
B4:
ret i32 0
\x7d
"

def reentered : Program where
  funcs := [⟨"main", .i32, [⟨"1", false, .i32⟩], 4,
    [{ id := 0, prev := [⟨0, 1⟩], succ := [⟨0, 1⟩, ⟨0, 2⟩],
       jump := some (.branch .i32 (.temp ⟨"1", false, .i32⟩) "B1" "B2") },
     { id := 1, prev := [⟨0, 0⟩], succ := [⟨0, 0⟩, ⟨0, 2⟩],
       jump := some (.branch .i32 (.temp ⟨"1", false, .i32⟩) "entry" "B2") },
     { id := 2, prev := [⟨0, 0⟩, ⟨0, 1⟩], succ := [⟨0, 3⟩], jump := some (.jump "B3") },
     { id := 3, prev := [⟨0, 2⟩], succ := [⟨0, 4⟩], jump := some (.jump "B4") },
     { id := 4, prev := [⟨0, 3⟩], jump := some (.ret (some (.int 0))) }]⟩]
  temps := 1

-- the text is matched with a list of characters one by one
set_option maxRecDepth 4000 in
theorem parse_reentered : parse reenteredText = .ok reentered := by
  refine (parse_ofList _).trans ?_
  decide +kernel

/-- Two blocks that are no loop of the program. -/
def reenteredLoop : Loop := ⟨0, ⟨0, 1⟩, [⟨0, 1⟩, ⟨0, 3⟩], none, [], 1⟩

end Source

/-- The entry and `B2` get blocks of their own, and `B4`, which is entered from `B3` only, is untouched. -/
theorem dedicateExits_any_loop_reentered : ∃ l q changed, Source.reentered.Regular 0 ∧
    Source.reentered.first? 0 = some ⟨0, 0⟩ ∧
    (∀ v ∈ l.blocks, v ∈ (Source.reentered.flow 0).layout) ∧
    (Source.reentered.dedicateExits 0 l).val = (q, changed) ∧ l = Source.reenteredLoop ∧
    Source.reentered.exitBlocks l = [⟨0, 0⟩, ⟨0, 2⟩, ⟨0, 4⟩] ∧
    Source.reentered.sharedExits l ⟨0, 0⟩ = [⟨0, 0⟩, ⟨0, 2⟩] ∧ q.ids 0 = [0, 5, 1, 6, 2, 3, 4] ∧
    q.block? ⟨0, 4⟩ = Source.reentered.block? ⟨0, 4⟩ ∧ changed = true ∧
    (∀ x ∈ q.exitBlocks l, x ≠ ⟨0, 0⟩ ∧ ∀ v ∈ q.prev x, v ∈ l.blocks) ∧
    (q.dedicateExits 0 l).val = (q, false) := by
  have G := (Source.wellformed_of_parse Source.parse_reentered).proper.regular 0
  have hl : ∀ v ∈ Source.reenteredLoop.blocks, v ∈ (Source.reentered.flow 0).layout := by decide
  have hexits : Source.reentered.exitBlocks Source.reenteredLoop = [⟨0, 0⟩, ⟨0, 2⟩, ⟨0, 4⟩] := by
    decide +kernel
  have hids : (Source.reentered.dedicateExits 0 Source.reenteredLoop).val.1.ids 0 =
      [0, 5, 1, 6, 2, 3, 4] := by
    decide +kernel
  obtain ⟨hown, huntouched, _, _, hchanged, hagain⟩ :=
    dedicateExits_any_loop G rfl hl Prod.mk.eta.symm
  refine ⟨_, _, _, G, rfl, hl, Prod.mk.eta.symm, rfl, hexits, by decide +kernel, hids, ?_, hchanged.2 ?_,
    hown, hagain⟩
  · exact huntouched ⟨0, 4⟩ (by simp [hexits]) (by decide)
  · exact ⟨⟨0, 5⟩, Program.mem_layout.2 ⟨rfl, by simp [hids]⟩, by decide⟩

end LoopClock
