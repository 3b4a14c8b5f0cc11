import LoopClock.Proofs.Flow.Nesting

/-! The order of the visits. They go down from loop to loop, and end because a loop that is nested `n` deep is
met `n` levels below the outermost loop around it. What is visited for a loop lies in it, so that
loops with one parent are visited apart from each other. -/
namespace LoopClock
open Graph

namespace LoopForest

variable {f : LoopForest} {l m : Loop}

/-- The loops around a loop. -/
def enclosing (f : LoopForest) (l : Loop) : List Loop := f.loops.filter (l.IsInside ·)

theorem mem_enclosing : m ∈ f.enclosing l ↔ m ∈ f.loops ∧ l.IsInside m := by
  rw [enclosing, List.mem_filter, decide_eq_true_eq]

/-- The farther out a loop is, the fewer loops are around it. -/
theorem length_enclosing_lt (hm : m ∈ f.loops) (h : l.IsInside m) :
    (f.enclosing m).length < (f.enclosing l).length := by
  have hsub : f.enclosing m = (f.enclosing l).filter (m.IsInside ·) := by
    rw [enclosing, enclosing, List.filter_filter]
    refine List.filter_congr fun n _ => ?_
    by_cases hn : m.IsInside n
    · simp [hn, h.trans hn]
    · simp [hn]
  rw [hsub]
  apply List.length_filter_lt_length_iff_exists.2
  exact ⟨m, mem_enclosing.2 ⟨hm, h⟩, by simp [Loop.IsInside.irrefl]⟩

theorem length_enclosing_lt_length (hl : l ∈ f.loops) :
    (f.enclosing l).length < f.loops.length := by
  apply List.length_filter_lt_length_iff_exists.2
  exact ⟨l, hl, by simp [Loop.IsInside.irrefl]⟩

/-- The visits to some loops, each after the visits to the loops nested in it. -/
inductive Visits (f : LoopForest) : List Loop → List Loop → Prop
  | nil : f.Visits [] []
  | cons {l : Loop} {ls inner rest : List Loop}
      (hsub : f.Visits (l.subloops.filterMap f.get?) inner) (hrest : f.Visits ls rest) :
      f.Visits (l :: ls) (inner ++ l :: rest)

namespace Visits

variable {ls ms as bs : List Loop}

theorem append (h : f.Visits ls as) (k : f.Visits ms bs) : f.Visits (ls ++ ms) (as ++ bs) := by
  induction h with
  | nil => exact k
  | cons hsub _ _ ih =>
    rw [List.append_assoc, List.cons_append]
    exact .cons hsub ih

theorem flatMap {visit : Loop → List Loop} (h : ∀ l ∈ ls, f.Visits [l] (visit l)) :
    f.Visits ls (ls.flatMap visit) := by
  induction ls with
  | nil => exact .nil
  | cons l ls ih =>
    obtain ⟨hl, hls⟩ := List.forall_mem_cons.1 h
    exact hl.append (ih hls)

theorem subset (h : f.Visits ls as) : ls ⊆ as := by
  induction h with
  | nil => exact List.Subset.refl _
  | cons _ _ _ ih =>
    refine List.cons_subset.2 ⟨by simp, fun m hm => ?_⟩
    exact List.mem_append_right _ (List.mem_cons_of_mem _ (ih hm))

/-- With a loop the loops nested in it are visited. -/
theorem subloops_subset (h : f.Visits ls as) (hl : l ∈ as) :
    l.subloops.filterMap f.get? ⊆ as := by
  induction h with
  | nil => cases hl
  | cons hsub _ ihsub ihrest =>
    rcases List.mem_append.1 hl with hl | hl
    · exact List.subset_append_of_subset_left _ (ihsub hl)
    rcases List.mem_cons.1 hl with rfl | hl
    · exact List.subset_append_of_subset_left _ hsub.subset
    · exact List.subset_append_of_subset_right _ (List.subset_cons_of_subset _ (ihrest hl))

end Visits

end LoopForest

namespace Flow

variable {g : Flow}

/-- Loops with one parent, in the order of their numbers. -/
private def Siblings (ls : List Loop) : Prop :=
  ls.Pairwise fun l m => l.outer = m.outer ∧ l.id < m.id

private theorem siblings_children (o : Option Nat) : Siblings (g.forest.children o) := by
  refine (pairwise_id.filter _).imp_of_mem fun {l m} hl hm hlt => ⟨?_, hlt⟩
  exact (LoopForest.mem_children.1 hl).2.trans (LoopForest.mem_children.1 hm).2.symm

namespace Sound

variable {r : Vertex} {l m x : Loop} {ls vs : List Loop} (hg : g.Sound r)
include hg

/-- What holds of a loop if it holds of the parent holds of all loops. -/
@[elab_as_elim]
theorem parent_induction {P : Loop → Prop} (top : ∀ l ∈ g.forest.loops, l.outer = none → P l)
    (nested : ∀ l ∈ g.forest.loops, ∀ m ∈ g.forest.loops, l.outer = some m.id → P m → P l)
    (hl : l ∈ g.forest.loops) : P l := by
  induction hn : (g.forest.enclosing l).length using Nat.strong_induction_on generalizing l with
  | _ n ih =>
    cases ho : l.outer with
    | none => exact top l hl ho
    | some k =>
      obtain ⟨m, hm, hin, _⟩ := (hg.outer_eq_some_iff hl).1 ho
      obtain ⟨hml, rfl⟩ := get?_eq_some_iff.1 hm
      exact nested l hl m hml ho (ih _ (hn ▸ LoopForest.length_enclosing_lt hml hin) hml rfl)

/-! ## The end of the visits -/

/-- Below a loop with `n` loops around it, the visits go at most as deep as there are other loops. -/
theorem visits_postOrderFrom {depth : Nat} (hl : l ∈ g.forest.loops)
    (hdepth : g.forest.loops.length ≤ depth + (g.forest.enclosing l).length) :
    g.forest.Visits [l] (g.forest.postOrderFrom depth l) := by
  induction depth generalizing l with
  | zero =>
    have hlt := LoopForest.length_enclosing_lt_length hl
    omega
  | succ depth ih =>
    refine .cons (.flatMap fun s hs => ?_) .nil
    rw [filterMap_subloops hl] at hs
    have hlt := LoopForest.length_enclosing_lt hl (hg.isInside_of_mem_children hl hs)
    exact ih (LoopForest.mem_children.1 hs).1 (by omega)

/-- The visits come to an end with the post order. -/
theorem visits_postOrder : g.forest.Visits g.forest.topLevel g.forest.postOrder := by
  refine .flatMap fun l hl => ?_
  exact hg.visits_postOrderFrom (List.mem_of_mem_filter hl) (Nat.le_add_right ..)

/-! ## What is visited for a loop -/

/-- All that is visited for a loop lies in it. -/
theorem subset_of_mem_visits (h : g.forest.Visits ls vs) (hls : ls ⊆ g.forest.loops) (hx : x ∈ vs) :
    x ∈ g.forest.loops ∧ ∃ l ∈ ls, x.blocks ⊆ l.blocks := by
  induction h with
  | nil => cases hx
  | @cons l ls inner rest hsub hrest ihsub ihrest =>
    obtain ⟨hl, hls⟩ := List.cons_subset.1 hls
    rw [filterMap_subloops hl] at ihsub
    rcases List.mem_append.1 hx with hx | hx
    · obtain ⟨hxm, s, hs, hxs⟩ := ihsub (LoopForest.children_subset ..) hx
      have hsl := (hg.isInside_of_mem_children hl hs).1
      exact ⟨hxm, l, List.mem_cons_self, List.Subset.trans hxs hsl⟩
    rcases List.mem_cons.1 hx with rfl | hx
    · exact ⟨hl, x, List.mem_cons_self, List.Subset.refl _⟩
    · obtain ⟨hxm, m, hm, hxm'⟩ := ihrest hls hx
      exact ⟨hxm, m, List.mem_cons_of_mem _ hm, hxm'⟩

/-- Exactly the loops of the forest are visited. -/
theorem mem_postOrder : l ∈ g.forest.postOrder ↔ l ∈ g.forest.loops := by
  refine ⟨fun h => (hg.subset_of_mem_visits hg.visits_postOrder (List.filter_subset_self _) h).1,
    fun hl => ?_⟩
  refine hg.parent_induction (fun l hl ho => ?_) (fun l hl m hm ho h => ?_) hl
  · apply hg.visits_postOrder.subset
    exact topLevel_eq g ▸ LoopForest.mem_children.2 ⟨hl, ho⟩
  · apply hg.visits_postOrder.subloops_subset h
    exact filterMap_subloops hm ▸ LoopForest.mem_children.2 ⟨hl, ho⟩

/-! ## Earlier and later visits -/

/-- Of two visits one is to a loop around the other one, or they lie in two loops with one parent. -/
private theorem visits_pairwise {R : Loop → Loop → Prop}
    (up : ∀ l ∈ g.forest.loops, ∀ x ∈ g.forest.loops, x.IsInside l → R x l)
    (across : ∀ l ∈ g.forest.loops, ∀ m ∈ g.forest.loops, l.outer = m.outer → l.id < m.id →
      ∀ x ∈ g.forest.loops, ∀ y ∈ g.forest.loops, x.blocks ⊆ l.blocks → y.blocks ⊆ m.blocks → R x y)
    (h : g.forest.Visits ls vs) (hls : ls ⊆ g.forest.loops) (hs : Siblings ls) :
    vs.Pairwise R := by
  induction h with
  | nil => exact .nil
  | @cons l ls inner rest hsub hrest ihsub ihrest =>
    obtain ⟨hl, hls⟩ := List.cons_subset.1 hls
    obtain ⟨hahead, hs⟩ := List.pairwise_cons.1 hs
    rw [filterMap_subloops hl] at hsub ihsub
    have hinner : ∀ x ∈ inner, x ∈ g.forest.loops ∧ x.IsInside l := by
      intro x hx
      obtain ⟨hxm, s, hs, hxs⟩ := hg.subset_of_mem_visits hsub (LoopForest.children_subset ..) hx
      have hsl := hg.isInside_of_mem_children hl hs
      exact ⟨hxm, List.Subset.trans hxs hsl.1, fun h => hsl.2 (List.Subset.trans h hxs)⟩
    have hlater : ∀ x ∈ g.forest.loops, x.blocks ⊆ l.blocks → ∀ y ∈ rest, R x y := by
      intro x hx hxl y hy
      obtain ⟨hym, m, hm, hyb⟩ := hg.subset_of_mem_visits hrest hls hy
      exact across l hl m (hls hm) (hahead m hm).1 (hahead m hm).2 x hx y hym hxl hyb
    rw [List.pairwise_append, List.pairwise_cons]
    refine ⟨ihsub (LoopForest.children_subset ..) (siblings_children _),
      ⟨hlater l hl (List.Subset.refl _), ihrest hls hs⟩, fun x hx y hy => ?_⟩
    obtain ⟨hxm, hxl⟩ := hinner x hx
    rcases List.mem_cons.1 hy with rfl | hy
    · exact up y hl x hxm hxl
    · exact hlater x hxm hxl.1 y hy

theorem postOrder_pairwise_of {R : Loop → Loop → Prop}
    (up : ∀ l ∈ g.forest.loops, ∀ x ∈ g.forest.loops, x.IsInside l → R x l)
    (across : ∀ l ∈ g.forest.loops, ∀ m ∈ g.forest.loops, l.outer = m.outer → l.id < m.id →
      ∀ x ∈ g.forest.loops, ∀ y ∈ g.forest.loops, x.blocks ⊆ l.blocks → y.blocks ⊆ m.blocks → R x y) :
    g.forest.postOrder.Pairwise R :=
  hg.visits_pairwise up across hg.visits_postOrder (List.filter_subset_self _)
    (topLevel_eq g ▸ siblings_children none)

/-- No loop of the visiting order holds the header of a later one. -/
theorem postOrder_pairwise :
    g.forest.postOrder.Pairwise fun x y => ¬ InLoop g.Edge r x.header y.header := by
  refine hg.postOrder_pairwise_of (fun l hl x hx hin hlx => ?_) ?_
  · exact hin.2 ((hg.blocks_subset_iff hl hx).2 hlx)
  · intro l hl m hm ho hlt x hx y hy hxl hym hyx
    have hb := hg.header_mem_blocks hy
    have hbx := (hg.blocks_subset_iff hy hx).2 hyx hb
    have heq := hg.eq_of_outer_eq hl hm ho (hxl hbx) (hym hb)
    exact Nat.ne_of_lt hlt (congrArg Loop.id heq)

/-- No header is visited twice. -/
theorem postOrder_nodup : (g.forest.postOrder.map (·.header)).Nodup := by
  rw [List.Nodup, List.pairwise_map]
  refine hg.postOrder_pairwise.imp fun {l m} hnot heq => hnot ?_
  rw [heq]
  exact inLoop_header

/-- Every loop is visited once. -/
theorem postOrder_perm : g.forest.postOrder.Perm g.forest.loops :=
  (List.perm_ext_iff_of_nodup (List.Nodup.of_map _ hg.postOrder_nodup) loops_nodup).2
    fun _ => hg.mem_postOrder

end Sound

end Flow

end LoopClock
