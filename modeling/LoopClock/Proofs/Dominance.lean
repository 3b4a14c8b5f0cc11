import LoopClock.Proofs.Flow.ImmediateDominators
import LoopClock.Proofs.Run.Standard

/-! The dominator tree of a function says what its paths say. A block is reachable when a path leads to it,
and it is dominated by the blocks that are on all of these paths. The immediate dominator is the last
of the strict dominators, and the way from one to the next ends at the entry. -/
namespace LoopClock
open Graph Relation

variable {p : Program} {i : Nat} {r : Vertex} {a b j : Int} {d : DomTree}

/-! ## By ids -/

namespace Program.Contained

variable (G : p.Contained i) (hr : p.first? i = some r)
include G hr

theorem mem_layout_of_reaches (h : Reaches p.Edge r ⟨i, b⟩) : ⟨i, b⟩ ∈ (p.flow i).layout :=
  (G.rooted hr).layout_of_reaches (G.rooted hr).entry_mem h

theorem mem_layout_of_dominates (h : Dominates p.Edge r ⟨i, a⟩ ⟨i, b⟩) :
    ⟨i, a⟩ ∈ (p.flow i).layout ∧ ⟨i, b⟩ ∈ (p.flow i).layout :=
  (G.rooted hr).layout_of_dominates h

/-- The tree has lists of ids of the function under ids of the function. -/
theorem mem_ids_of_mem_dominated {x : Int × List Int} (hx : x ∈ (p.flow i).domTree.dominated) :
    ⟨i, x.1⟩ ∈ (p.flow i).layout ∧ ∀ b ∈ x.2, ⟨i, b⟩ ∈ (p.flow i).layout := by
  obtain ⟨v, hv, hreach, hd⟩ := (G.rooted hr).dominated_of_mem hx
  have hl := (G.rooted hr).layout_of_reaches (G.rooted hr).entry_mem hreach
  refine ⟨mem_layout.2 ⟨rfl, hv ▸ (mem_layout.1 hl).2⟩, fun b hb => ?_⟩
  have hb := hd.subset hb
  rw [ids_flow] at hb
  exact mem_layout.2 ⟨rfl, hb⟩

theorem isReachable_iff :
    (p.flow i).domTree.isReachable b ↔ Reaches p.Edge r ⟨i, b⟩ := by
  by_cases hb : ⟨i, b⟩ ∈ (p.flow i).layout
  · exact (G.rooted hr).isReachable_iff hb
  · refine iff_of_false (fun h => hb ?_) fun h => hb (G.mem_layout_of_reaches hr h)
    simp only [DomTree.isReachable, DomTree.reachable, decide_eq_true_eq, List.mem_map] at h
    obtain ⟨x, hx, rfl⟩ := h
    exact (G.mem_ids_of_mem_dominated hr hx).1

theorem dominates_iff :
    (p.flow i).domTree.dominates a b ↔ Dominates p.Edge r ⟨i, a⟩ ⟨i, b⟩ := by
  by_cases hab : ⟨i, a⟩ ∈ (p.flow i).layout ∧ ⟨i, b⟩ ∈ (p.flow i).layout
  · exact (G.rooted hr).dominates_iff hab.1 hab.2
  · refine iff_of_false (fun h => hab ?_) fun h => hab (G.mem_layout_of_dominates hr h)
    rw [DomTree.dominates, DomTree.dominatedBy?, Option.any_eq_true] at h
    obtain ⟨bs, hbs, hb⟩ := h
    obtain ⟨pre, post, heq, _⟩ := List.lookup_eq_some_iff.1 hbs
    have hmem : (a, bs) ∈ (p.flow i).domTree.dominated := heq ▸ by simp
    obtain ⟨hal, hall⟩ := G.mem_ids_of_mem_dominated hr hmem
    exact ⟨hal, hall b (of_decide_eq_true hb)⟩

theorem idom?_eq_none (hb : ⟨i, b⟩ ∉ (p.flow i).layout) :
    (p.flow i).domTree.idom? b = none := by
  have hempty : ((p.flow i).domTree.dominated.filter fun x => x.1 ≠ b ∧ b ∈ x.2) = [] := by
    rw [List.filter_eq_nil_iff]
    intro x hx hxb
    simp only [decide_eq_true_eq] at hxb
    exact hb ((G.mem_ids_of_mem_dominated hr hx).2 b hxb.2)
  rw [DomTree.idom?, hempty]
  rfl

theorem idom?_eq_none_iff : (p.flow i).domTree.idom? b = none ↔
    b = r.id ∨ (p.flow i).domTree.isReachable b = false := by
  rw [Bool.eq_false_iff, ne_eq, G.isReachable_iff hr]
  by_cases hb : ⟨i, b⟩ ∈ (p.flow i).layout
  · rw [(G.rooted hr).idom?_eq_none_iff hb, Vertex.ext_iff]
    simp only [first?_func hr, true_and]
    rfl
  · exact iff_of_true (G.idom?_eq_none hr hb) (.inr fun h => hb (G.mem_layout_of_reaches hr h))

/-- All strict dominators of a block are blocks of the function. -/
theorem isIdom_iff : IsIdom p.Edge r ⟨i, a⟩ ⟨i, b⟩ ↔
    (a ≠ b ∧ Dominates p.Edge r ⟨i, a⟩ ⟨i, b⟩) ∧ ∀ c, c ≠ b →
      Dominates p.Edge r ⟨i, c⟩ ⟨i, b⟩ → Dominates p.Edge r ⟨i, c⟩ ⟨i, a⟩ := by
  have id_ne : ∀ {j k : Int}, (⟨i, j⟩ : Vertex) ≠ ⟨i, k⟩ ↔ j ≠ k := by simp
  rw [IsIdom, id_ne]
  refine and_congr_right fun _ => ⟨fun h c hcb => h ⟨i, c⟩ (id_ne.2 hcb), ?_⟩
  rintro h ⟨f, c⟩ hcb hc
  obtain rfl : f = i := (mem_layout.1 ((G.rooted hr).layout_of_dominates hc).1).1
  exact h c (id_ne.1 hcb) hc

theorem idom?_eq_some_iff : (p.flow i).domTree.idom? b = some a ↔
    IsIdom p.Edge r ⟨i, a⟩ ⟨i, b⟩ := by
  by_cases hab : ⟨i, a⟩ ∈ (p.flow i).layout ∧ ⟨i, b⟩ ∈ (p.flow i).layout
  · exact (G.rooted hr).idom?_eq_some_iff hab.1 hab.2
  · refine iff_of_false (fun h => hab ?_) fun h => hab (G.mem_layout_of_dominates hr h.1.2)
    have hb : ⟨i, b⟩ ∈ (p.flow i).layout := by
      by_contra hb
      rw [G.idom?_eq_none hr hb] at h
      cases h
    rw [DomTree.idom?, Option.map_eq_some_iff] at h
    obtain ⟨x, hx, rfl⟩ := h
    have hx := List.mem_of_mem_filter (leastBy_some hx).1
    exact ⟨(G.mem_ids_of_mem_dominated hr hx).1, hb⟩

end Program.Contained

/-- In a function whose edges stay among its blocks, reachability and dominance are what the paths from
the entry say. Dominance orders the reachable blocks, the dominators of each in a chain. The entry and
the unreachable blocks have no immediate dominator. The one of any other block is the strict dominator
that all its strict dominators dominate; no two of these dominate equally many blocks. From any
reachable block the immediate dominators lead to the entry. -/
theorem domTree_iff_paths (G : p.Contained i) (hr : p.first? i = some r)
    (hd : (p.flow i).domTree = d) :
    (∀ b, d.isReachable b ↔ ∃ path, IsPath p.Edge r ⟨i, b⟩ path) ∧
    (∀ a b, d.dominates a b ↔
      d.isReachable b ∧ ∀ path, IsPath p.Edge r ⟨i, b⟩ path → ⟨i, a⟩ ∈ path) ∧
    ((∀ a, d.isReachable a → d.dominates a a) ∧
      (∀ a b, d.dominates a b → d.dominates b a → a = b) ∧
      (∀ a b c, d.dominates a b → d.dominates b c → d.dominates a c) ∧
      ∀ a b c, d.dominates a c → d.dominates b c → d.dominates a b ∨ d.dominates b a) ∧
    (∀ b, d.idom? b = none ↔ b = r.id ∨ d.isReachable b = false) ∧
    (∀ a b, d.idom? b = some a ↔ (a ≠ b ∧ d.dominates a b) ∧
      ∀ c, c ≠ b → d.dominates c b → d.dominates c a) ∧
    (∀ b, ∀ x ∈ d.dominated, ∀ y ∈ d.dominated, x.1 ≠ b ∧ b ∈ x.2 → y.1 ≠ b ∧ b ∈ y.2 →
      x.2.length = y.2.length → x = y) ∧
    ∀ b, d.isReachable b → ReflTransGen (fun b a => d.idom? b = some a) b r.id := by
  subst hd
  refine ⟨fun b => ?_, fun a b => ?_, ⟨fun a h => ?_, fun a b h k => ?_, fun a b c h k => ?_,
    fun a b c h k => ?_⟩, fun b => G.idom?_eq_none_iff hr, fun a b => ?_,
    fun b x hx y hy hxb hyb hlen => ?_, fun b h => ?_⟩
  · rw [G.isReachable_iff hr, reaches_iff_exists_path]
  · rw [G.dominates_iff hr, G.isReachable_iff hr, dominates_iff_forall_path]
  · exact (G.dominates_iff hr).2 (.refl ((G.isReachable_iff hr).1 h))
  · have heq := ((G.dominates_iff hr).1 h).antisymm ((G.dominates_iff hr).1 k)
    exact congrArg Vertex.id heq
  · exact (G.dominates_iff hr).2 (((G.dominates_iff hr).1 h).trans ((G.dominates_iff hr).1 k))
  · have htotal := ((G.dominates_iff hr).1 h).total ((G.dominates_iff hr).1 k)
    exact htotal.imp (G.dominates_iff hr).2 (G.dominates_iff hr).2
  · simp only [G.idom?_eq_some_iff hr, G.isIdom_iff hr, G.dominates_iff hr]
  · have hb := (G.mem_ids_of_mem_dominated hr hx).2 b hxb.2
    exact (G.rooted hr).eq_of_length_eq hb hx hxb hy hyb hlen
  · exact (G.rooted hr).climbs ((G.isReachable_iff hr).1 h)

namespace Source

/-- The loop of `B2` lies in the loop of `B1`. It is also entered from a cycle out of reach. -/
def nestedText : String :=
  "define i32 @main(i32 %1) \x7b
entry:
br label %B1
B1:
br i32 %1, label %B2, label %B5
B2:
br label %B3
B3:
br i32 %1, label %B2, label %B4
B4:
br label %B1
B5:
ret i32 0
B6:
br label %B7
B7:
br i32 %1, label %B6, label %B3
\x7d
"

def nested : Program where
  funcs := [⟨"main", .i32, [⟨"1", false, .i32⟩], 7,
    [{ id := 0, succ := [⟨0, 1⟩], jump := some (.jump "B1") },
     { id := 1, prev := [⟨0, 0⟩, ⟨0, 4⟩], succ := [⟨0, 2⟩, ⟨0, 5⟩],
       jump := some (.branch .i32 (.temp ⟨"1", false, .i32⟩) "B2" "B5") },
     { id := 2, prev := [⟨0, 1⟩, ⟨0, 3⟩], succ := [⟨0, 3⟩], jump := some (.jump "B3") },
     { id := 3, prev := [⟨0, 2⟩, ⟨0, 7⟩], succ := [⟨0, 2⟩, ⟨0, 4⟩],
       jump := some (.branch .i32 (.temp ⟨"1", false, .i32⟩) "B2" "B4") },
     { id := 4, prev := [⟨0, 3⟩], succ := [⟨0, 1⟩], jump := some (.jump "B1") },
     { id := 5, prev := [⟨0, 1⟩], jump := some (.ret (some (.int 0))) },
     { id := 6, prev := [⟨0, 7⟩], succ := [⟨0, 7⟩], jump := some (.jump "B7") },
     { id := 7, prev := [⟨0, 6⟩], succ := [⟨0, 6⟩, ⟨0, 3⟩],
       jump := some (.branch .i32 (.temp ⟨"1", false, .i32⟩) "B6" "B3") }]⟩]
  temps := 1

-- the text is matched with a list of characters one by one
set_option maxRecDepth 4000 in
theorem parse_nested : parse nestedText = .ok nested := by
  refine (parse_ofList _).trans ?_
  decide +kernel

theorem symmetric_nested : nested.Symmetric 0 :=
  ((wellformed_of_parse parse_nested).proper.regular 0).symmetric

end Source

/-- No path comes to `B4` but by `B3`, although `B3` is also entered from `B7`. -/
theorem domTree_iff_paths_nested : ∃ d, Source.nested.Contained 0 ∧
    Source.nested.first? 0 = some ⟨0, 0⟩ ∧ (Source.nested.flow 0).domTree = d ∧
    d.idom? 4 = some 3 ∧ d.idom? 7 = none ∧
    (∀ path, IsPath Source.nested.Edge ⟨0, 0⟩ ⟨0, 4⟩ path → ⟨0, 3⟩ ∈ path) ∧
    (¬ ∃ path, IsPath Source.nested.Edge ⟨0, 0⟩ ⟨0, 7⟩ path) ∧
    ReflTransGen (fun b a => d.idom? b = some a) 4 0 := by
  have G := Source.symmetric_nested.toContained
  obtain ⟨hreach, hdom, _, _, hidom, _, hclimb⟩ := domTree_iff_paths G rfl rfl
  have h43 : (Source.nested.flow 0).domTree.idom? 4 = some 3 := by decide +kernel
  obtain ⟨⟨_, h34⟩, _⟩ := (hidom 3 4).1 h43
  obtain ⟨h4, hall⟩ := (hdom 3 4).1 h34
  refine ⟨_, G, rfl, rfl, h43, by decide +kernel, hall, fun h7 => ?_, hclimb 4 h4⟩
  exact absurd ((hreach 7).2 h7) (by decide +kernel)

end LoopClock
