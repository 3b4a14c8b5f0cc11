import LoopClock.Proofs.Flow.Dominators
import Mathlib.Data.List.Perm.Subperm

/-! The immediate dominator of a block. Along the chain of its dominators each one dominates more blocks
than the next, so the strict dominator that dominates the fewest is the one that all the others
dominate, and the choice is never between two. From dominator to dominator the way leads to the
entry. -/
namespace LoopClock
open Graph Relation

namespace Graph

variable {V : Type} {E : V → V → Prop} {r a b c : V}

/-- A strict dominator of `b` that every strict dominator of `b` dominates. -/
def IsIdom (E : V → V → Prop) (r a b : V) : Prop :=
  (a ≠ b ∧ Dominates E r a b) ∧ ∀ c, c ≠ b → Dominates E r c b → Dominates E r c a

theorem IsIdom.unique (ha : IsIdom E r a b) (hc : IsIdom E r c b) : a = c :=
  (hc.2 a ha.1.1 ha.1.2).antisymm (ha.2 c hc.1.1 hc.1.2)

/-- The root has no strict dominator. -/
theorem eq_root_of_dominates (h : Dominates E r a r) : a = r := by
  by_contra hne
  exact h.2 (.refl (Ne.symm hne))

end Graph

/-- The list of the blocks that `a` dominates. -/
structure Flow.Dominated (g : Flow) (r a : Vertex) (bs : List Int) : Prop where
  nodup : bs.Nodup
  subset : bs ⊆ g.ids
  mem : ∀ b ∈ g.layout, b.id ∈ bs ↔ Dominates g.Edge r a b

namespace Flow.Rooted

variable {g : Flow} {r a b c : Vertex} {as bs cs : List Int} {x y : Int × List Int}
  (hg : g.Rooted r)
include hg

theorem layout_of_dominates (h : Dominates g.Edge r a b) : a ∈ g.layout ∧ b ∈ g.layout :=
  ⟨hg.layout_of_reaches hg.entry_mem h.root_reaches, hg.layout_of_reaches hg.entry_mem h.reaches⟩

/-! ## The lists of the tree -/

private theorem dominated_of_mem_layout (ha : a ∈ g.layout) : g.Dominated r a
    ((g.reachableWithout none).filter (· ∉ g.reachableWithout (some a.id))) where
  nodup := by
    have hn := hg.nodup_reachable
    rw [hg.reachable_domTree] at hn
    exact hn.filter _
  subset := by
    intro j hj
    have hj := List.mem_of_mem_filter (mem_of_mem_reached (List.mem_of_mem_filter hj))
    rwa [hg.space] at hj
  mem b hb := by
    have hall := hg.mem_reachableWithout_none hb
    have hothers := hg.mem_reachableWithout_some ha hb
    rw [List.mem_filter, decide_eq_true_eq, hall, hothers, Graph.Dominates]

/-- The tree has a list for every reachable block. -/
theorem exists_dominated (ha : Reaches g.Edge r a) :
    ∃ as, (a.id, as) ∈ g.domTree.dominated ∧ g.Dominated r a as := by
  have hl := hg.layout_of_reaches hg.entry_mem ha
  refine ⟨_, ?_, dominated_of_mem_layout hg hl⟩
  rw [hg.domTree_eq]
  exact List.mem_map.2 ⟨a.id, (hg.mem_reachableWithout_none hl).2 ha, rfl⟩

/-- The tree has lists for reachable blocks only. -/
theorem dominated_of_mem (hx : x ∈ g.domTree.dominated) :
    ∃ a, a.id = x.1 ∧ Reaches g.Edge r a ∧ g.Dominated r a x.2 := by
  rw [hg.domTree_eq] at hx
  obtain ⟨j, hj, rfl⟩ := List.mem_map.1 hx
  have hids : j ∈ g.ids := by
    have hj := List.mem_of_mem_filter (mem_of_mem_reached hj)
    rwa [hg.space] at hj
  obtain ⟨a, ha, rfl⟩ := List.mem_map.1 hids
  exact ⟨a, rfl, (hg.mem_reachableWithout_none ha).1 hj, dominated_of_mem_layout hg ha⟩

/-- No block has two lists. -/
theorem eq_of_mem_dominated (hx : x ∈ g.domTree.dominated) (hy : y ∈ g.domTree.dominated)
    (h : x.1 = y.1) : x = y :=
  List.inj_on_of_nodup_map hg.nodup_reachable hx hy h

/-- A strict dominator dominates more blocks. -/
theorem length_lt_of_dominates (ha : g.Dominated r a as) (hc : g.Dominated r c cs) (hne : a ≠ c)
    (hd : Dominates g.Edge r a c) : cs.length < as.length := by
  obtain ⟨hal, hcl⟩ := hg.layout_of_dominates hd
  have hnot : a.id ∉ cs := by
    intro h
    exact hne (hd.antisymm ((hc.mem a hal).1 h))
  have hsub : a.id :: cs ⊆ as := by
    intro j hj
    rcases List.mem_cons.1 hj with rfl | hj
    · exact (ha.mem a hal).2 (.refl hd.root_reaches)
    · obtain ⟨b, hb, rfl⟩ := List.mem_map.1 (hc.subset hj)
      exact (ha.mem b hb).2 (hd.trans ((hc.mem b hb).1 hj))
  have hle := ((List.nodup_cons.2 ⟨hnot, hc.nodup⟩).subperm hsub).length_le
  rw [List.length_cons] at hle
  omega

/-! ## The choice -/

/-- The lists to choose from are those of the strict dominators. -/
theorem strict_of_mem (hb : b ∈ g.layout) (hx : x ∈ g.domTree.dominated)
    (hxb : x.1 ≠ b.id ∧ b.id ∈ x.2) :
    ∃ a, a.id = x.1 ∧ a ≠ b ∧ Dominates g.Edge r a b ∧ g.Dominated r a x.2 := by
  obtain ⟨a, hax, _, ha⟩ := hg.dominated_of_mem hx
  refine ⟨a, hax, ?_, (ha.mem b hb).1 hxb.2, ha⟩
  rintro rfl
  exact hxb.1 hax.symm

private theorem mem_strict (hb : b ∈ g.layout) (ha : (a.id, as) ∈ g.domTree.dominated)
    (has : g.Dominated r a as) (hne : a ≠ b) (hd : Dominates g.Edge r a b) :
    (a.id, as) ∈ g.domTree.dominated.filter fun p => p.1 ≠ b.id ∧ b.id ∈ p.2 := by
  obtain ⟨hal, _⟩ := hg.layout_of_dominates hd
  rw [List.mem_filter, decide_eq_true_eq]
  exact ⟨ha, fun h => hne (hg.inj hal hb h), (has.mem b hb).2 hd⟩

/-- No two strict dominators of a block dominate equally many blocks. -/
theorem eq_of_length_eq (hb : b ∈ g.layout) (hx : x ∈ g.domTree.dominated)
    (hxb : x.1 ≠ b.id ∧ b.id ∈ x.2) (hy : y ∈ g.domTree.dominated)
    (hyb : y.1 ≠ b.id ∧ b.id ∈ y.2) (hlen : x.2.length = y.2.length) : x = y := by
  obtain ⟨a, hax, _, had, ha⟩ := hg.strict_of_mem hb hx hxb
  obtain ⟨c, hcy, _, hcd, hc⟩ := hg.strict_of_mem hb hy hyb
  by_cases hac : a = c
  · subst hac
    exact hg.eq_of_mem_dominated hx hy (hax.symm.trans hcy)
  · rcases had.total hcd with hd | hd
    · have := hg.length_lt_of_dominates ha hc hac hd
      omega
    · have := hg.length_lt_of_dominates hc ha (Ne.symm hac) hd
      omega

private theorem isIdom_of_idom? (hb : b ∈ g.layout) {j : Int}
    (h : g.domTree.idom? b.id = some j) : ∃ a, a.id = j ∧ IsIdom g.Edge r a b := by
  rw [DomTree.idom?, Option.map_eq_some_iff] at h
  obtain ⟨x, hx, rfl⟩ := h
  obtain ⟨hx, hmin⟩ := leastBy_some hx
  rw [List.mem_filter, decide_eq_true_eq] at hx
  obtain ⟨a, hax, hne, hd, ha⟩ := hg.strict_of_mem hb hx.1 hx.2
  refine ⟨a, hax, ⟨hne, hd⟩, fun c hcb hc => ?_⟩
  rcases hc.total hd with hca | hac
  · exact hca
  by_cases hne : a = c
  · exact hne ▸ .refl hd.root_reaches
  -- a dominator below `a` would dominate fewer blocks
  obtain ⟨cs, hcs, hcm⟩ := hg.exists_dominated hc.root_reaches
  have hle := hmin (c.id, cs) (mem_strict hg hb hcs hcm hcb hc)
  have hlt := hg.length_lt_of_dominates ha hcm hne hac
  dsimp only at hle
  omega

theorem idom?_eq_none_iff (hb : b ∈ g.layout) :
    g.domTree.idom? b.id = none ↔ b = r ∨ ¬ Reaches g.Edge r b := by
  constructor
  · intro h
    by_contra hnot
    obtain ⟨hne, hreach⟩ := not_or.1 hnot
    have hreach := not_not.1 hreach
    obtain ⟨rs, hrs, hrm⟩ := hg.exists_dominated (a := r) .refl
    have hmem := mem_strict hg hb hrs hrm (Ne.symm hne) (dominates_root hreach)
    rw [DomTree.idom?, Option.map_eq_none_iff] at h
    rw [leastBy_none h] at hmem
    cases hmem
  · intro h
    cases hj : g.domTree.idom? b.id with
    | none => rfl
    | some j =>
      obtain ⟨a, _, ⟨hne, hd⟩, _⟩ := isIdom_of_idom? hg hb hj
      rcases h with rfl | h
      · exact absurd (eq_root_of_dominates hd) hne
      · exact absurd hd.reaches h

theorem idom?_eq_some_iff (ha : a ∈ g.layout) (hb : b ∈ g.layout) :
    g.domTree.idom? b.id = some a.id ↔ IsIdom g.Edge r a b := by
  constructor
  · intro h
    obtain ⟨c, hca, hc⟩ := isIdom_of_idom? hg hb h
    obtain ⟨hcl, _⟩ := hg.layout_of_dominates hc.1.2
    exact hg.inj hcl ha hca ▸ hc
  · intro h
    cases hj : g.domTree.idom? b.id with
    | none =>
      rcases (hg.idom?_eq_none_iff hb).1 hj with rfl | hreach
      · exact absurd (eq_root_of_dominates h.1.2) h.1.1
      · exact absurd h.1.2.reaches hreach
    | some j =>
      obtain ⟨c, rfl, hc⟩ := isIdom_of_idom? hg hb hj
      rw [hc.unique h]

/-! ## The way to the entry -/

/-- From dominator to dominator, every reachable block leads to the entry. -/
theorem climbs (hb : Reaches g.Edge r b) :
    ReflTransGen (fun j k => g.domTree.idom? j = some k) b.id r.id := by
  obtain ⟨bs, -, hbs⟩ := hg.exists_dominated hb
  -- on the way up the lists get longer, and none is longer than the layout
  induction hn : g.ids.length - bs.length using Nat.strong_induction_on generalizing b bs with
  | _ n ih =>
    have hbl := hg.layout_of_reaches hg.entry_mem hb
    cases hj : g.domTree.idom? b.id with
    | none =>
      rcases (hg.idom?_eq_none_iff hbl).1 hj with rfl | hreach
      · exact .refl
      · exact absurd hb hreach
    | some j =>
      obtain ⟨a, rfl, ⟨hne, hd⟩, _⟩ := isIdom_of_idom? hg hbl hj
      obtain ⟨as, _, has⟩ := hg.exists_dominated hd.root_reaches
      have hlt := hg.length_lt_of_dominates has hbs hne hd
      have hle := (has.nodup.subperm has.subset).length_le
      exact .head hj (ih (g.ids.length - as.length) (by omega) hd.root_reaches as has rfl)

end Flow.Rooted

end LoopClock
