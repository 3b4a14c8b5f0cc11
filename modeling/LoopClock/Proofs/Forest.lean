import LoopClock.Proofs.Dominance
import LoopClock.Proofs.Flow.VisitOrder

/-! The loops of a function are a forest by inclusion. Each loop has the next loop outside as its parent,
its level says how many are around it, and the visits come to it after the loops in it. Nothing is
decided by the order in which the loops are found, for no two loops around a block have the same
size. -/
namespace LoopClock
open Graph

namespace LoopForest

/-- The loops met on the way outwards, from number to number, until a loop has no parent. -/
inductive Outward (f : LoopForest) : Option Nat → List Loop → Prop
  | stop : f.Outward none []
  | step {k : Nat} {l : Loop} {ls : List Loop} (hl : f.get? k = some l) (h : f.Outward l.outer ls) :
      f.Outward (some k) (l :: ls)

end LoopForest

namespace Flow

namespace Sound

variable {g : Flow} {r : Vertex} (hg : g.Sound r)

include hg

/-! ## The way outwards -/

/-- The way outwards ends, and leads to the loops around, the inner ones first. -/
private theorem exists_outward_pairwise {l : Loop} (hl : l ∈ g.forest.loops) : ∃ chain,
    g.forest.Outward l.outer chain ∧ chain.Pairwise Loop.IsInside ∧
      ∀ m, m ∈ chain ↔ m ∈ g.forest.enclosing l := by
  refine hg.parent_induction (fun l hl ho => ?_) (fun l hl m hm ho h => ?_) hl
  · have hnone := (hg.outer_eq_none_iff hl).1 ho
    refine ⟨[], ho ▸ .stop, .nil, fun m => ?_⟩
    rw [LoopForest.mem_enclosing]
    exact iff_of_false List.not_mem_nil fun h => hnone m h.1 h.2
  · obtain ⟨chain, hout, hpair, hchain⟩ := h
    obtain ⟨n, hn, hin, hall⟩ := (hg.outer_eq_some_iff hl).1 ho
    obtain rfl := Option.some.inj (hn.symm.trans (get?_eq_some_iff.2 ⟨hm, rfl⟩))
    refine ⟨n :: chain, ho ▸ .step hn hout, .cons (fun x hx => ?_) hpair, fun x => ?_⟩
    · exact (LoopForest.mem_enclosing.1 ((hchain x).1 hx)).2
    · rw [List.mem_cons, hchain, LoopForest.mem_enclosing, LoopForest.mem_enclosing]
      constructor
      · rintro (rfl | ⟨hx, hnx⟩)
        · exact ⟨hm, hin⟩
        · exact ⟨hx, hin.trans hnx⟩
      · rintro ⟨hx, hlx⟩
        exact (hall x hx hlx).imp_right fun h => ⟨hx, h⟩

theorem exists_outward {l : Loop} (hl : l ∈ g.forest.loops) :
    ∃ chain, g.forest.Outward l.outer chain ∧ chain.Perm (g.forest.enclosing l) := by
  obtain ⟨chain, hout, hpair, hchain⟩ := hg.exists_outward_pairwise hl
  have hn : chain.Nodup := hpair.imp fun h heq => (heq ▸ h).irrefl
  exact ⟨chain, hout, (List.perm_ext_iff_of_nodup hn (loops_nodup.filter _)).2 hchain⟩

omit hg in
/-- The numbers that the search for the level comes to are those met on the way outwards. -/
private theorem mem_outward_iff {o : Option Nat} {chain : List Loop} (h : g.forest.Outward o chain)
    {k : Nat} :
    (∃ j ∈ o.toList, Within (· ∈ List.range g.forest.loops.length)
      (Leads fun i => ((g.forest.loops.map (·.outer))[i]?.join).toList) j k) ↔
      k ∈ chain.map (·.id) := by
  induction h with
  | stop => simp
  | @step j l ls hl _ ih =>
    have hid := (get?_eq_some_iff.1 hl).2
    have hj : j ∈ List.range g.forest.loops.length :=
      List.mem_range.2 (List.getElem?_eq_some_iff.1 hl).1
    have hleads : ∀ i, Leads (fun i => ((g.forest.loops.map (·.outer))[i]?.join).toList) j i ↔
        i ∈ l.outer.toList := by
      intro i
      rw [Leads, getElem?_outer hl]
    rw [List.map_cons, List.mem_cons, ← ih, hid]
    constructor
    · rintro ⟨i, hi, hw⟩
      obtain rfl : i = j := by simpa using hi
      rcases hw.cases_head with rfl | ⟨c, hc, hw⟩
      · exact .inl rfl
      · exact .inr ⟨c, (hleads c).1 hc, hw⟩
    · rintro (rfl | ⟨c, hc, hw⟩)
      · exact ⟨k, by simp, .refl hj⟩
      · exact ⟨j, by simp, .head hj ((hleads c).2 hc) hw⟩

omit hg in
private theorem level_eq_of_outward {l : Loop} {chain : List Loop} (hl : l ∈ g.forest.loops)
    (h : g.forest.Outward l.outer chain) (hn : (chain.map (·.id)).Nodup) :
    l.level = 1 + chain.length := by
  have hstart := getElem?_outer (get?_eq_some_iff.2 ⟨hl, rfl⟩)
  have hmarked : Marked (fun i : Nat => i)
      (fun i => ((g.forest.loops.map (·.outer))[i]?.join).toList) fun _ => True :=
    ⟨fun _ _ _ _ => trivial, fun _ _ _ _ h => h⟩
  have hperm : (reached (fun i => i) queue
      (fun i => ((g.forest.loops.map (·.outer))[i]?.join).toList) l.outer.toList
      (List.range g.forest.loops.length)).Perm (chain.map (·.id)) := by
    refine (List.perm_ext_iff_of_nodup (nodup_reached List.nodup_range) hn).2 fun k => ?_
    rw [mem_reached hmarked joins_queue (fun _ _ => trivial) List.nodup_range trivial,
      mem_outward_iff h]
  have hlength := hperm.length_eq
  rw [List.length_map] at hlength
  rw [(loopForest_outers hl).2, levelOf]
  simp only [hstart, List.length_map, hlength]
  omega

/-- The level counts the loops around. -/
theorem level_eq {l : Loop} (hl : l ∈ g.forest.loops) :
    l.level = 1 + (g.forest.enclosing l).length := by
  obtain ⟨chain, hout, hperm⟩ := hg.exists_outward hl
  have hn : ((g.forest.enclosing l).map (·.id)).Nodup := by
    apply List.Nodup.sublist (List.filter_sublist.map _)
    exact map_id_loops g g.domTree ▸ List.nodup_range
  rw [level_eq_of_outward hl hout ((hperm.map _).nodup_iff.2 hn), hperm.length_eq]

/-! ## The order of visits -/

/-- `x` comes before `y` in the order of numbers, if both have one parent. -/
private def Ahead (x y : Loop) : Prop := x.outer = y.outer → x.id < y.id

private theorem postOrder_ahead : g.forest.postOrder.Pairwise Ahead := by
  refine hg.postOrder_pairwise_of (fun l hl x hx hxl ho => ?_) ?_
  · rcases hg.eq_or_isInside_of_outer_eq hl hx hl hxl.1 ho with rfl | h
    · exact absurd hxl Loop.IsInside.irrefl
    · exact absurd h Loop.IsInside.irrefl
  · intro l hl m hm hlm hlt x hx y hy hxl hym ho
    have hne : l ≠ m := fun h => Nat.ne_of_lt hlt (congrArg Loop.id h)
    have hdisjoint : ∀ b ∈ l.blocks, b ∉ m.blocks := fun b hbl hbm =>
      hne (hg.eq_of_outer_eq hl hm hlm hbl hbm)
    -- a loop farther in would take the other one, which has its parent, along
    have hxeq : x = l := by
      refine (hg.eq_or_isInside_of_outer_eq hl hx hy hxl ho).resolve_right fun hin => ?_
      have hb := hg.header_mem_blocks hy
      exact hdisjoint _ (hin.1 hb) (hym hb)
    have hyeq : y = m := by
      refine (hg.eq_or_isInside_of_outer_eq hm hy hx hym ho.symm).resolve_right fun hin => ?_
      have hb := hg.header_mem_blocks hx
      exact hdisjoint _ (hxl hb) (hin.1 hb)
    rw [hxeq, hyeq]
    exact hlt

/-- Loops with one parent are visited in the order of their numbers. -/
theorem filter_postOrder (o : Option Nat) :
    g.forest.postOrder.filter (·.outer = o) = g.forest.loops.filter (·.outer = o) := by
  have hsorted : (g.forest.postOrder.filter (·.outer = o)).Pairwise fun l m => l.id < m.id := by
    refine (hg.postOrder_ahead.filter _).imp_of_mem fun {l m} hl hm h => h ?_
    simp only [List.mem_filter, decide_eq_true_eq] at hl hm
    exact hl.2.trans hm.2.symm
  refine (hg.postOrder_perm.filter _).eq_of_pairwise ?_ hsorted (pairwise_id.filter _)
  intro l m _ _ hlm hml
  omega

end Sound

end Flow

variable {p : Program} {i : Nat} {r : Vertex} {f : LoopForest}

/-- In a function whose edges are known at both ends, two loops have no block in common, or one lies
inside the other. The parent of a loop is the one loop around it that lies inside all others, the
subloops are the loops with this parent, and the way from parent to parent ends after the loops
around, which the level counts. No two bodies around a block are of the same size. A block is
kept with the loop around it that lies inside all others. The visits end. They come to each loop
once, after all loops inside it, and to the loops with one parent in the order of their headers. -/
theorem forest_by_inclusion (G : p.Symmetric i) (hr : p.first? i = some r)
    (hf : (p.flow i).forest = f) :
    (f.loops.map (·.id) = List.range f.loops.length ∧
      (f.loops.map (·.header)).Sublist (p.flow i).layout) ∧
    (∀ l ∈ f.loops, ∀ m ∈ f.loops,
      l = m ∨ l.blocks.Disjoint m.blocks ∨ l.IsInside m ∨ m.IsInside l) ∧
    (∀ l ∈ f.loops, (l.outer = none ↔ ∀ m ∈ f.loops, ¬ l.IsInside m) ∧
      (∀ k, l.outer = some k ↔ ∃ m, f.get? k = some m ∧ l.IsInside m ∧
        ∀ n ∈ f.loops, l.IsInside n → n = m ∨ m.IsInside n) ∧
      l.subloops = (f.loops.filter (·.outer = some l.id)).map (·.id) ∧
      l.level = 1 + (f.enclosing l).length ∧
      ∃ chain, f.Outward l.outer chain ∧ chain.Perm (f.enclosing l)) ∧
    (∀ x, ∀ b ∈ (p.flow i).loopBodies (p.flow i).domTree,
      ∀ c ∈ (p.flow i).loopBodies (p.flow i).domTree, x ∈ b.ids → x ∈ c.ids →
        b.ids.length = c.ids.length → b = c) ∧
    (∀ b, (f.loopFor? b = none ↔ ∀ l ∈ f.loops, l.holds b = false) ∧
      ∀ l, f.loopFor? b = some l ↔ l ∈ f.loops ∧ l.holds b = true ∧
        ∀ m ∈ f.loops, m.holds b = true → m = l ∨ l.IsInside m) ∧
    f.Visits f.topLevel f.postOrder ∧ f.postOrder.Perm f.loops ∧
    (f.postOrder.Pairwise fun l m => ¬ m.IsInside l) ∧
    ∀ o, f.postOrder.filter (·.outer = o) = f.loops.filter (·.outer = o) := by
  subst hf
  have hg := G.sound hr
  refine ⟨⟨Flow.map_id_loops _ _, ?_⟩, fun l hl m hm => ?_, fun l hl => ?_,
    fun x b hb c hc => hg.body_unique hb hc,
    fun b => ⟨hg.loopFor?_eq_none_iff, fun l => hg.loopFor?_eq_some_iff⟩, hg.visits_postOrder,
    hg.postOrder_perm, ?_, hg.filter_postOrder⟩
  · rw [Flow.forest, Flow.map_header_loops, Flow.headers_loopBodies]
    exact List.filter_sublist
  · by_cases hd : l.blocks.Disjoint m.blocks
    · exact .inr (.inl hd)
    · simp only [List.Disjoint, not_forall, not_false_eq_true] at hd
      obtain ⟨b, hbl, hbm, _⟩ := hd
      exact (hg.blocks_laminar hl hm hbl hbm).imp_right .inr
  · exact ⟨hg.outer_eq_none_iff hl, fun k => hg.outer_eq_some_iff hl, Flow.subloops_eq hl,
      hg.level_eq hl, hg.exists_outward hl⟩
  · refine hg.postOrder_pairwise.imp_of_mem fun {l m} hl hm hnot hin => hnot ?_
    exact (hg.blocks_subset_iff (hg.mem_postOrder.1 hm) (hg.mem_postOrder.1 hl)).1 hin.1

/-- The loops of `B1` and `B2` in the nested program. -/
def Source.nestedLoops : List Loop :=
  [⟨0, ⟨0, 1⟩, [⟨0, 1⟩, ⟨0, 2⟩, ⟨0, 3⟩, ⟨0, 4⟩], none, [1], 1⟩,
    ⟨1, ⟨0, 2⟩, [⟨0, 2⟩, ⟨0, 3⟩], some 0, [], 2⟩]

/-- The loop of `B2` lies in the loop of `B1`, and is visited before it. No loop holds `B6`. -/
theorem forest_by_inclusion_nested : ∃ f outer inner, Source.nested.Symmetric 0 ∧
    Source.nested.first? 0 = some ⟨0, 0⟩ ∧ (Source.nested.flow 0).forest = f ∧
    f.loops = Source.nestedLoops ∧ f.loops = [outer, inner] ∧ inner.IsInside outer ∧
    inner.level = 1 + (f.enclosing inner).length ∧ f.loopFor? 3 = some inner ∧
    f.loopFor? 6 = none ∧ f.Visits [outer] [inner, outer] := by
  have hloops : (Source.nested.flow 0).forest.loops = Source.nestedLoops := by decide +kernel
  have htop : (Source.nested.flow 0).forest.topLevel = Source.nestedLoops.take 1 := by decide +kernel
  have hpost : (Source.nested.flow 0).forest.postOrder = Source.nestedLoops.reverse := by
    decide +kernel
  have hget : (Source.nested.flow 0).forest.get? 0 = Source.nestedLoops[0]? := by
    rw [LoopForest.get?, hloops]
  obtain ⟨_, _, hloop, _, hfor, hvisits, _⟩ := forest_by_inclusion Source.symmetric_nested rfl rfl
  have hinner := hloop Source.nestedLoops[1] (by simp [hloops])
  obtain ⟨_, houter, _, hlevel, _⟩ := hinner
  obtain ⟨m, hm, hin, _⟩ := (houter 0).1 rfl
  obtain rfl := Option.some.inj (hget.symm.trans hm)
  rw [htop, hpost] at hvisits
  refine ⟨_, Source.nestedLoops[0], Source.nestedLoops[1], Source.symmetric_nested, rfl, rfl, hloops,
    hloops, hin, hlevel, (hfor 3).2 _ |>.2 ?_, (hfor 6).1.2 ?_, hvisits⟩
  · rw [hloops]
    decide
  · rw [hloops]
    decide

end LoopClock
