import LoopClock.Proofs.Flow.LoopForest
import Mathlib.Data.List.Perm.Subperm

/-! The nesting of loops. Of the loops around a block one lies in all the others. This is the one with the
smallest body, and no other body around the block is as small. So the parents are the loops next
outside, and the loop that is kept for a block is the innermost one. -/
namespace LoopClock
open Graph

/-- All blocks of `l` are in `m`, which has others too. -/
def Loop.IsInside (l m : Loop) : Prop := l.blocks ⊆ m.blocks ∧ ¬ m.blocks ⊆ l.blocks

instance (l m : Loop) : Decidable (l.IsInside m) := inferInstanceAs (Decidable (_ ∧ _))

namespace Loop.IsInside

variable {k l m : Loop}

theorem irrefl : ¬ l.IsInside l := fun h => h.2 h.1

theorem trans (h : k.IsInside l) (h' : l.IsInside m) : k.IsInside m :=
  ⟨List.Subset.trans h.1 h'.1, fun hmk => h'.2 (List.Subset.trans hmk h.1)⟩

end Loop.IsInside

/-- Looking up a key where some keys have no value. -/
theorem lookup_filterMap_self {α β : Type} [DecidableEq α] (as : List α) (f : α → Option β) (a : α) :
    (as.filterMap fun b => (f b).map fun c => (b, c)).lookup a = if a ∈ as then f a else none := by
  induction as with
  | nil => rfl
  | cons b as ih =>
    by_cases hab : a = b
    · subst hab
      cases hf : f a with
      | none => simp [hf, ih]
      | some c => simp [hf]
    · have hb : (a == b) = false := by simpa using hab
      cases hf : f b <;> simp [hf, List.lookup_cons, hb, ih, hab]

namespace Flow

/-- Of the loops with the headers `hs`, leaving out number `except`, number `k` is the innermost one
around `x`. -/
def Innermost (E : Vertex → Vertex → Prop) (r : Vertex) (hs : List Vertex) (except : Option Nat)
    (x : Vertex) (k : Nat) : Prop :=
  some k ≠ except ∧ ∃ h, hs[k]? = some h ∧ InLoop E r h x ∧
    ∀ j h', hs[j]? = some h' → some j ≠ except → InLoop E r h' x → InLoop E r h' h

namespace Sound

variable {g : Flow} {r x : Vertex} {except : Option Nat} {k : Nat} (hg : g.Sound r)
include hg

/-! ## The smallest body -/

theorem getElem?_headers {h : Vertex} (hk : ((g.loopBodies g.domTree).map (·.header))[k]? = some h) :
    ∃ b, (g.loopBodies g.domTree)[k]? = some b ∧ b.Natural g r ∧ b.header = h := by
  rw [List.getElem?_map, Option.map_eq_some_iff] at hk
  obtain ⟨b, hb, hbh⟩ := hk
  exact ⟨b, hb, hg.natural_of_mem (List.mem_of_getElem? hb), hbh⟩

omit hg in
theorem ids_subset {b c : LoopBody} (hb : b.Natural g r) (hc : c.Natural g r)
    (h : InLoop g.Edge r c.header b.header) : b.ids ⊆ c.ids := by
  intro y hy
  obtain ⟨v, hv, rfl⟩ := List.mem_map.1 (hb.subset hy)
  exact (hc.mem v hv).2 (h.trans hc.header hb.header ((hb.mem v hv).1 hy))

/-- A body around a block that is no larger than another one lies in it. -/
theorem inLoop_of_length_le {b c : LoopBody} (hb : b.Natural g r) (hc : c.Natural g r)
    (hx : x ∈ g.layout) (hxb : x.id ∈ b.ids) (hxc : x.id ∈ c.ids)
    (hle : b.ids.length ≤ c.ids.length) : InLoop g.Edge r c.header b.header := by
  rcases ((hc.mem x hx).1 hxc).laminar hc.header hb.header ((hb.mem x hx).1 hxb) with hin | hin
  · exact hin
  -- a body that lies in one that is no larger is the same
  have hperm := (hc.nodup.subperm (ids_subset hc hb hin)).perm_of_length_le hle
  have hbl := hg.layout_of_isHeader hb.header
  exact (hc.mem _ hbl).1 (hperm.mem_iff.2 ((hb.mem _ hbl).2 inLoop_header))

/-- No two bodies around a block have the same size. -/
theorem body_unique {b c : LoopBody} {i : Int} (hb : b ∈ g.loopBodies g.domTree)
    (hc : c ∈ g.loopBodies g.domTree) (hib : i ∈ b.ids) (hic : i ∈ c.ids)
    (hlen : b.ids.length = c.ids.length) : b = c := by
  have hbn := hg.natural_of_mem hb
  have hcn := hg.natural_of_mem hc
  obtain ⟨x, hx, rfl⟩ := List.mem_map.1 (hbn.subset hib)
  have hbc := hg.inLoop_of_length_le hbn hcn hx hib hic hlen.le
  have hcb := hg.inLoop_of_length_le hcn hbn hx hic hib hlen.ge
  have hheader := hcb.antisymm hbn.header hcn.header hbc
  rw [(hg.mem_loopBodies.1 hb).2, (hg.mem_loopBodies.1 hc).2, hheader]

/-- A body is found smallest just when its loop is the innermost one. -/
theorem innermost_of_smallestBody? (hx : x ∈ g.layout)
    (h : smallestBody? (g.loopBodies g.domTree) x.id except = some k) :
    Innermost g.Edge r ((g.loopBodies g.domTree).map (·.header)) except x k := by
  obtain ⟨hne, b, hb, hxb, hmin⟩ := smallestBody?_some h
  have hbn := hg.natural_of_mem (List.mem_of_getElem? hb)
  refine ⟨hne, b.header, by rw [List.getElem?_map, hb]; rfl, (hbn.mem x hx).1 hxb, ?_⟩
  intro j h' hj hji hin
  obtain ⟨c, hc, hcn, rfl⟩ := hg.getElem?_headers hj
  have hxc := (hcn.mem x hx).2 hin
  exact hg.inLoop_of_length_le hbn hcn hx hxb hxc (hmin j c hc hji hxc)

theorem innermost_unique {k' : Nat}
    (h : Innermost g.Edge r ((g.loopBodies g.domTree).map (·.header)) except x k)
    (h' : Innermost g.Edge r ((g.loopBodies g.domTree).map (·.header)) except x k') : k = k' := by
  obtain ⟨hk, a, ha, hax, hmin⟩ := h
  obtain ⟨hk', b, hb, hbx, hmin'⟩ := h'
  obtain ⟨c, _, hc, rfl⟩ := hg.getElem?_headers ha
  obtain ⟨d, _, hd, rfl⟩ := hg.getElem?_headers hb
  have heq := (hmin' k _ ha hk hax).antisymm hc.header hd.header (hmin k' _ hb hk' hbx)
  have hlt := (List.getElem?_eq_some_iff.1 ha).1
  exact (List.getElem?_inj hlt hg.nodup_headers).1 (ha.trans (heq ▸ hb.symm))

theorem smallestBody?_eq_some_iff (hx : x ∈ g.layout) :
    smallestBody? (g.loopBodies g.domTree) x.id except = some k ↔
      Innermost g.Edge r ((g.loopBodies g.domTree).map (·.header)) except x k := by
  refine ⟨hg.innermost_of_smallestBody? hx, fun h => ?_⟩
  cases hs : smallestBody? (g.loopBodies g.domTree) x.id except with
  | none =>
    obtain ⟨hk, a, ha, hax, _⟩ := h
    obtain ⟨b, hb, hbn, rfl⟩ := hg.getElem?_headers ha
    exact absurd ((hbn.mem x hx).2 hax) (smallestBody?_none hs hb hk)
  | some k' => rw [hg.innermost_unique h (hg.innermost_of_smallestBody? hx hs)]

/-! ## Loops in loops -/

variable {l m : Loop} {j : Int}

theorem header_mem_blocks (hl : l ∈ g.forest.loops) : l.header ∈ l.blocks :=
  ((hg.natural_of_mem_loops hl).mem _).2 inLoop_header

theorem blocks_subset_iff (hl : l ∈ g.forest.loops) (hm : m ∈ g.forest.loops) :
    l.blocks ⊆ m.blocks ↔ InLoop g.Edge r m.header l.header := by
  have hln := hg.natural_of_mem_loops hl
  have hmn := hg.natural_of_mem_loops hm
  constructor
  · intro h
    exact (hmn.mem _).1 (h (hg.header_mem_blocks hl))
  · intro h b hb
    exact (hmn.mem b).2 (h.trans hmn.header hln.header ((hln.mem b).1 hb))

theorem subset_iff_eq_or_isInside (hl : l ∈ g.forest.loops) (hm : m ∈ g.forest.loops) :
    l.blocks ⊆ m.blocks ↔ l = m ∨ l.IsInside m := by
  constructor
  · intro h
    by_cases hml : m.blocks ⊆ l.blocks
    · rw [hg.blocks_subset_iff hl hm] at h
      rw [hg.blocks_subset_iff hm hl] at hml
      have hlh := (hg.natural_of_mem_loops hl).header
      have hmh := (hg.natural_of_mem_loops hm).header
      exact .inl (hg.eq_of_header_eq hl hm (hml.antisymm hlh hmh h))
    · exact .inr ⟨h, hml⟩
  · rintro (rfl | h)
    · exact List.Subset.refl _
    · exact h.1

/-- Loops that share a block lie in each other. -/
theorem blocks_laminar (hl : l ∈ g.forest.loops) (hm : m ∈ g.forest.loops) (hxl : x ∈ l.blocks)
    (hxm : x ∈ m.blocks) : l = m ∨ l.IsInside m ∨ m.IsInside l := by
  have hln := hg.natural_of_mem_loops hl
  have hmn := hg.natural_of_mem_loops hm
  rcases ((hln.mem x).1 hxl).laminar hln.header hmn.header ((hmn.mem x).1 hxm) with h | h
  · rcases (hg.subset_iff_eq_or_isInside hm hl).1 ((hg.blocks_subset_iff hm hl).2 h) with rfl | h
    · exact .inl rfl
    · exact .inr (.inr h)
  · exact ((hg.subset_iff_eq_or_isInside hl hm).1 ((hg.blocks_subset_iff hl hm).2 h)).imp_right .inl

/-- A loop that has the header of another one among its blocks lies around it. -/
theorem isInside_iff (hl : l ∈ g.forest.loops) (hm : m ∈ g.forest.loops) :
    l.IsInside m ↔ m.id ≠ l.id ∧ l.header ∈ m.blocks := by
  have hsub := hg.blocks_subset_iff hl hm
  rw [← (hg.natural_of_mem_loops hm).mem, hg.subset_iff_eq_or_isInside hl hm] at hsub
  rw [← hsub]
  constructor
  · intro h
    refine ⟨fun hid => ?_, .inr h⟩
    have hlm := get?_eq_some_iff.2 ⟨hl, hid.symm⟩
    rw [get?_eq_some_iff.2 ⟨hm, rfl⟩] at hlm
    obtain rfl := Option.some.inj hlm
    exact h.irrefl
  · rintro ⟨hid, rfl | h⟩
    · exact absurd rfl hid
    · exact h

/-- The smallest body around a block is that of the loop which lies in all others around it. -/
theorem smallestBody?_iff_loop (hx : x ∈ g.layout) :
    smallestBody? (g.loopBodies g.domTree) x.id except = some k ↔
      ∃ m, g.forest.get? k = some m ∧ (some m.id ≠ except ∧ x ∈ m.blocks) ∧
        ∀ n ∈ g.forest.loops, some n.id ≠ except → x ∈ n.blocks → n = m ∨ m.IsInside n := by
  have hget : ∀ {j : Nat} {h : Vertex}, (g.forest.loops.map (·.header))[j]? = some h ↔
      ∃ n, g.forest.get? j = some n ∧ n.header = h := by
    intro j h
    rw [List.getElem?_map, Option.map_eq_some_iff]
    rfl
  rw [hg.smallestBody?_eq_some_iff hx, ← map_header_loops, Innermost]
  simp only [hget]
  constructor
  · rintro ⟨hk, _, ⟨m, hm, rfl⟩, hxm, hall⟩
    obtain ⟨hml, rfl⟩ := get?_eq_some_iff.1 hm
    refine ⟨m, hm, ⟨hk, ((hg.natural_of_mem_loops hml).mem x).2 hxm⟩, fun n hn hne hxn => ?_⟩
    have hin := hall n.id n.header ⟨n, get?_eq_some_iff.2 ⟨hn, rfl⟩, rfl⟩ hne
      (((hg.natural_of_mem_loops hn).mem x).1 hxn)
    rw [← hg.blocks_subset_iff hml hn, hg.subset_iff_eq_or_isInside hml hn] at hin
    exact hin.imp_left Eq.symm
  · rintro ⟨m, hm, ⟨hk, hxm⟩, hall⟩
    obtain ⟨hml, rfl⟩ := get?_eq_some_iff.1 hm
    refine ⟨hk, _, ⟨m, hm, rfl⟩, ((hg.natural_of_mem_loops hml).mem x).1 hxm, ?_⟩
    rintro j _ ⟨n, hn, rfl⟩ hne hxn
    obtain ⟨hnl, rfl⟩ := get?_eq_some_iff.1 hn
    have hor := hall n hnl hne (((hg.natural_of_mem_loops hnl).mem x).2 hxn)
    rw [← hg.blocks_subset_iff hml hnl, hg.subset_iff_eq_or_isInside hml hnl]
    exact hor.imp_left Eq.symm

theorem smallestBody?_none_iff_loop (hx : x ∈ g.layout) :
    smallestBody? (g.loopBodies g.domTree) x.id except = none ↔
      ∀ n ∈ g.forest.loops, some n.id ≠ except → x ∉ n.blocks := by
  constructor
  · intro h n hn hne hxn
    obtain ⟨c, hc, _, _, hblocks, _⟩ := loopForest_get (get?_eq_some_iff.2 ⟨hn, rfl⟩)
    rw [hblocks, List.mem_filter, decide_eq_true_eq] at hxn
    exact smallestBody?_none h hc hne hxn.2
  · intro h
    cases hk : smallestBody? (g.loopBodies g.domTree) x.id except with
    | none => rfl
    | some k =>
      obtain ⟨m, hm, ⟨hne, hxm⟩, _⟩ := (hg.smallestBody?_iff_loop hx).1 hk
      exact absurd hxm (h m (get?_eq_some_iff.1 hm).1 hne)

/-! ## Parents -/

omit hg in
theorem outer_eq (hl : l ∈ g.forest.loops) :
    l.outer = smallestBody? (g.loopBodies g.domTree) l.header.id (some l.id) := by
  obtain ⟨_, _, _, hh, _, hout⟩ := loopForest_get (get?_eq_some_iff.2 ⟨hl, rfl⟩)
  rw [hout, hh]

/-- The parent is the loop next outside. -/
theorem outer_eq_some_iff (hl : l ∈ g.forest.loops) : l.outer = some k ↔
    ∃ m, g.forest.get? k = some m ∧ l.IsInside m ∧
      ∀ n ∈ g.forest.loops, l.IsInside n → n = m ∨ m.IsInside n := by
  have hx := mem_layout_of_mem_blocks hl (hg.header_mem_blocks hl)
  rw [outer_eq hl, hg.smallestBody?_iff_loop hx]
  refine exists_congr fun m => and_congr_right fun hm => ?_
  obtain ⟨hml, _⟩ := get?_eq_some_iff.1 hm
  rw [hg.isInside_iff hl hml]
  refine and_congr (by simp) (forall₂_congr fun n hn => ?_)
  rw [hg.isInside_iff hl hn]
  simp

theorem outer_eq_none_iff (hl : l ∈ g.forest.loops) :
    l.outer = none ↔ ∀ n ∈ g.forest.loops, ¬ l.IsInside n := by
  have hx := mem_layout_of_mem_blocks hl (hg.header_mem_blocks hl)
  rw [outer_eq hl, hg.smallestBody?_none_iff_loop hx]
  refine forall₂_congr fun n hn => ?_
  rw [hg.isInside_iff hl hn]
  simp

theorem isInside_of_mem_children (hl : l ∈ g.forest.loops) (hm : m ∈ g.forest.children (some l.id)) :
    m.IsInside l := by
  obtain ⟨hmf, ho⟩ := LoopForest.mem_children.1 hm
  obtain ⟨n, hn, hin, _⟩ := (hg.outer_eq_some_iff hmf).1 ho
  obtain rfl := Option.some.inj (hn.symm.trans (get?_eq_some_iff.2 ⟨hl, rfl⟩))
  exact hin

/-- A loop inside `l` has its parent there, and with it all loops that have this parent. -/
theorem eq_or_isInside_of_outer_eq {x y : Loop} (hl : l ∈ g.forest.loops) (hx : x ∈ g.forest.loops)
    (hy : y ∈ g.forest.loops) (hxl : x.blocks ⊆ l.blocks) (ho : x.outer = y.outer) :
    x = l ∨ y.IsInside l := by
  refine ((hg.subset_iff_eq_or_isInside hx hl).1 hxl).imp_right fun hin => ?_
  cases hk : x.outer with
  | none => exact absurd hin ((hg.outer_eq_none_iff hx).1 hk l hl)
  | some k =>
    obtain ⟨m, hm, _, hall⟩ := (hg.outer_eq_some_iff hx).1 hk
    obtain ⟨m', hm', hym, _⟩ := (hg.outer_eq_some_iff hy).1 (ho.symm.trans hk)
    obtain rfl := Option.some.inj (hm.symm.trans hm')
    rcases hall l hl hin with rfl | hml
    · exact hym
    · exact hym.trans hml

/-- Loops with one parent share no block. -/
theorem eq_of_outer_eq {b : Vertex} (hl : l ∈ g.forest.loops) (hm : m ∈ g.forest.loops)
    (ho : l.outer = m.outer) (hbl : b ∈ l.blocks) (hbm : b ∈ m.blocks) : l = m := by
  rcases hg.blocks_laminar hl hm hbl hbm with h | h | h
  · exact h
  · exact (hg.eq_or_isInside_of_outer_eq hm hl hm h.1 ho).resolve_right Loop.IsInside.irrefl
  · exact ((hg.eq_or_isInside_of_outer_eq hl hm hl h.1 ho.symm).resolve_right
      Loop.IsInside.irrefl).symm

/-! ## The loop of a block -/

theorem holds_iff (hl : l ∈ g.forest.loops) (hx : x ∈ g.layout) :
    l.holds x.id = true ↔ x ∈ l.blocks := by
  rw [Loop.holds, List.any_eq_true]
  constructor
  · rintro ⟨y, hy, hid⟩
    have hyx := hg.inj (mem_layout_of_mem_blocks hl hy) hx (by simpa using hid)
    exact hyx ▸ hy
  · intro h
    exact ⟨x, h, by simp⟩

omit hg in
/-- A block that belongs to a loop is laid out. -/
theorem mem_ids_of_holds (hl : l ∈ g.forest.loops) (h : l.holds j = true) : j ∈ g.ids := by
  obtain ⟨x, hx, hid⟩ := List.any_eq_true.1 h
  obtain rfl : x.id = j := by simpa using hid
  exact Flow.mem_ids (mem_layout_of_mem_blocks hl hx)

omit hg in
theorem loopFor?_eq (j : Int) : g.forest.loopFor? j =
    if j ∈ g.ids then (smallestBody? (g.loopBodies g.domTree) j none).bind g.forest.get? else none := by
  have hinner : g.forest.innermost = g.ids.filterMap fun b =>
      (smallestBody? (g.loopBodies g.domTree) b none).map fun i => (b, i) := rfl
  rw [LoopForest.loopFor?, hinner, lookup_filterMap_self]
  split <;> rfl

/-- The loop of a block is the innermost one around it. -/
theorem loopFor?_eq_some_iff : g.forest.loopFor? j = some l ↔
    l ∈ g.forest.loops ∧ l.holds j = true ∧
      ∀ m ∈ g.forest.loops, m.holds j = true → m = l ∨ l.IsInside m := by
  by_cases hj : j ∈ g.ids
  · obtain ⟨x, hx, rfl⟩ := List.mem_map.1 hj
    rw [loopFor?_eq, if_pos hj, Option.bind_eq_some_iff]
    simp only [hg.smallestBody?_iff_loop hx]
    constructor
    · rintro ⟨k, ⟨m, hm, ⟨_, hxm⟩, hall⟩, hk⟩
      obtain rfl := Option.some.inj (hm.symm.trans hk)
      have hml := (get?_eq_some_iff.1 hm).1
      refine ⟨hml, (hg.holds_iff hml hx).2 hxm, fun n hn hxn => ?_⟩
      exact hall n hn (Option.some_ne_none _) ((hg.holds_iff hn hx).1 hxn)
    · rintro ⟨hl, hxl, hall⟩
      have hget := get?_eq_some_iff.2 ⟨hl, rfl⟩
      refine ⟨l.id, ⟨l, hget, ⟨Option.some_ne_none _, (hg.holds_iff hl hx).1 hxl⟩, ?_⟩, hget⟩
      intro n hn _ hxn
      exact hall n hn ((hg.holds_iff hn hx).2 hxn)
  · rw [loopFor?_eq, if_neg hj]
    refine iff_of_false nofun fun h => hj (mem_ids_of_holds h.1 h.2.1)

theorem loopFor?_eq_none_iff :
    g.forest.loopFor? j = none ↔ ∀ m ∈ g.forest.loops, m.holds j = false := by
  by_cases hj : j ∈ g.ids
  · obtain ⟨x, hx, rfl⟩ := List.mem_map.1 hj
    have hget : ∀ {k : Nat}, smallestBody? (g.loopBodies g.domTree) x.id none = some k →
        g.forest.get? k ≠ none := by
      intro k hk hn
      obtain ⟨m, hm, _⟩ := (hg.smallestBody?_iff_loop hx).1 hk
      rw [hn] at hm
      cases hm
    have hnone : g.forest.loopFor? x.id = none ↔
        smallestBody? (g.loopBodies g.domTree) x.id none = none := by
      rw [loopFor?_eq, if_pos hj]
      cases hk : smallestBody? (g.loopBodies g.domTree) x.id none with
      | none => simp
      | some k => simpa using hget hk
    rw [hnone, hg.smallestBody?_none_iff_loop hx]
    refine forall₂_congr fun m hm => ?_
    rw [← hg.holds_iff hm hx]
    simp
  · rw [loopFor?_eq, if_neg hj]
    refine iff_of_true rfl fun m hm => ?_
    rw [← Bool.not_eq_true]
    exact fun h => hj (mem_ids_of_holds hm h)

end Sound

end Flow

end LoopClock
