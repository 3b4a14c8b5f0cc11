import LoopClock.Proofs.Dominance
import LoopClock.Proofs.Flow.Nesting
import LoopClock.Proofs.Flow.Worklist

/-! The loops that are found in a function are its natural loops. Each is collected by a worklist that goes
backwards from the latches to the header, and that ends whatever the graph is. -/
namespace LoopClock
open Graph Relation

namespace Flow

/-- The turns of the worklist that collects a loop: backwards along the edges, to blocks with the given
ids. -/
abbrev Collects (g : Flow) (ids : List Int) : List Int × List Vertex → List Int × List Vertex → Prop :=
  Turn Vertex.id fun v => (g.prev v).filter (·.id ∈ ids)

theorem wellFounded_collects (g : Flow) (ids : List Int) :
    WellFounded fun s s' => g.Collects ids s' s :=
  wellFounded_turn fun _ _ h => of_decide_eq_true (List.mem_filter.1 h).2

/-- Started at the latches with the header met, the worklist ends with the loop. -/
theorem exists_collects (g : Flow) {d : DomTree} (hd : d.reachable.Nodup) (h : Int)
    (latches : List Vertex) :
    ∃ body, ReflTransGen (g.Collects d.reachable) ([h], latches.reverse) (body, []) ∧
      ∀ b, b ∈ body ↔ b = h ∨ b ∈ g.naturalLoop d h latches := by
  set beyond := ((latches.map (·.id)).filter (· ∉ d.reachable)).eraseDups with hbeyond
  have mem_beyond : ∀ b, b ∈ beyond ↔ b ∈ latches.map (·.id) ∧ b ∉ d.reachable := fun b => by
    rw [hbeyond, List.mem_eraseDups, List.mem_filter, decide_eq_true_eq]
  have hspace : (d.reachable ++ beyond).Nodup := by
    rw [List.nodup_append]
    refine ⟨hd, nodup_eraseDups _, fun a ha b hb hab => ?_⟩
    exact ((mem_beyond b).1 hb).2 (hab ▸ ha)
  have hunmet : ∀ b ∈ d.reachable ++ beyond,
      b ∈ (d.reachable ++ beyond).filter (· ≠ h) ↔ b ∉ [h] := by
    intro b hb
    rw [List.mem_filter, decide_eq_true_eq, List.mem_singleton]
    exact and_iff_right hb
  have hstep : ∀ v, ∀ b ∈ (g.prev v).filter (·.id ∈ d.reachable),
      b.id ∈ d.reachable ++ beyond := by
    intro v w hw
    exact List.mem_append_left _ (of_decide_eq_true (List.mem_filter.1 hw).2)
  have hwork : ∀ v ∈ latches.reverse, v.id ∈ d.reachable ++ beyond := by
    intro v hv
    have hv : v.id ∈ latches.map (·.id) := List.mem_map_of_mem (List.mem_reverse.1 hv)
    by_cases hr : v.id ∈ d.reachable
    · exact List.mem_append_left _ hr
    · exact List.mem_append_right _ ((mem_beyond _).2 ⟨hv, hr⟩)
  obtain ⟨body, hturns, hbody⟩ := exists_turns (hspace.filter (· ≠ h)) hunmet hstep hwork
  refine ⟨body, hturns, fun b => ?_⟩
  rw [hbody, naturalLoop, List.mem_singleton]
  simp only [reached, List.mem_filter, decide_eq_true_eq, ← hbeyond]
  tauto

end Flow

namespace Flow.Sound

variable {g : Flow} {r a b h : Vertex} (hg : g.Sound r)
include hg

/-- The headers, with the predecessors that they dominate. -/
theorem mem_headers_iff : h ∈ g.forest.loops.map (·.header) ↔
    Reaches g.Edge r h ∧ ∃ v ∈ g.prev h, Dominates g.Edge r h v := by
  rw [List.mem_map]
  constructor
  · rintro ⟨l, hl, rfl⟩
    have hh := (hg.natural_of_mem_loops hl).header
    have hl := hg.layout_of_isHeader hh
    obtain ⟨v, he, hd⟩ := hh
    exact ⟨IsHeader.reaches ⟨v, he, hd⟩, v, (hg.prev_mem v _ hl).2 he, hd⟩
  · rintro ⟨hreach, v, hv, hd⟩
    have hl := hg.layout_of_reaches hg.entry_mem hreach
    obtain ⟨l, hl, _, hh⟩ := hg.exists_byHeader? ⟨v, (hg.prev_mem v h hl).1 hv, hd⟩
    exact ⟨l, hl, hh⟩

variable {l : Loop} (hl : l ∈ g.forest.loops)
include hl

/-- The members, with the latches that they lead to. -/
theorem mem_blocks_iff : b ∈ l.blocks ↔ b = l.header ∨ Reaches g.Edge r b ∧
    ∃ v ∈ g.prev l.header, Dominates g.Edge r l.header v ∧ Avoids g.Edge l.header b v := by
  have hn := hg.natural_of_mem_loops hl
  have hprev := fun v => hg.prev_mem v _ (hg.layout_of_isHeader hn.header)
  rw [hn.mem, InLoop]
  refine or_congr_right (and_congr_right fun _ => exists_congr fun v => ?_)
  rw [hprev, Latch, and_assoc]
  rfl

theorem eq_header_of_entered (he : g.Edge a b) (ha : Reaches g.Edge r a) (hout : a ∉ l.blocks)
    (hb : b ∈ l.blocks) : b = l.header := by
  have hn := hg.natural_of_mem_loops hl
  by_contra hne
  exact hout ((hn.mem a).2 (((hn.mem b).1 hb).pred hne he ha))

/-- The worklist that starts at the latches of a loop ends with its members. -/
theorem exists_collects_blocks : ∃ body,
    ReflTransGen (g.Collects g.domTree.reachable)
      ([l.header.id], (g.latches g.domTree l.header).reverse) (body, []) ∧
      ∀ b ∈ g.layout, b ∈ l.blocks ↔ b.id ∈ body := by
  have hn := hg.natural_of_mem_loops hl
  obtain ⟨body, hturns, hbody⟩ := exists_collects g hg.nodup_reachable l.header.id
    (g.latches g.domTree l.header)
  refine ⟨body, hturns, fun b hb => ?_⟩
  have hheader := hg.layout_of_isHeader hn.header
  rw [hbody, hg.mem_naturalLoop hn.header hb, hn.mem]
  constructor
  · exact .inr
  · rintro (hid | hin)
    · exact .inl (hg.inj hb hheader hid)
    · exact hin

end Flow.Sound

variable {p : Program} {i : Nat} {r : Vertex} {f : LoopForest}

/-- In a function whose edges are known at both ends, the loops that are found are the natural loops. There
is one for each reachable block that dominates one of its predecessors. Its members are, in layout
order, this block and the reachable blocks that lead to such a predecessor around it. They all are
dominated by it, and entered from outside by it only. The worklist that collects them ends with
them, and on no graph goes on for ever. -/
theorem mem_forest_iff_natural (G : p.Symmetric i) (hr : p.first? i = some r)
    (hf : (p.flow i).forest = f) :
    ((f.loops.map (·.header)).Nodup ∧ ∀ h, h ∈ f.loops.map (·.header) ↔
      Reaches p.Edge r h ∧ ∃ v ∈ p.prev h, Dominates p.Edge r h v) ∧
    (∀ l ∈ f.loops, l.blocks.Sublist (p.flow i).layout ∧
      (∀ b, b ∈ l.blocks ↔ b = l.header ∨ Reaches p.Edge r b ∧ ∃ v ∈ p.prev l.header,
        Dominates p.Edge r l.header v ∧ Avoids p.Edge l.header b v) ∧
      (∀ b ∈ l.blocks, Reaches p.Edge r b ∧ Dominates p.Edge r l.header b) ∧
      (∀ a b, p.Edge a b → Reaches p.Edge r a → a ∉ l.blocks → b ∈ l.blocks → b = l.header) ∧
      ∃ body, ReflTransGen ((p.flow i).Collects (p.flow i).domTree.reachable)
        ([l.header.id], ((p.flow i).latches (p.flow i).domTree l.header).reverse) (body, []) ∧
        ∀ b ∈ (p.flow i).layout, b ∈ l.blocks ↔ b.id ∈ body) ∧
    ∀ (g : Flow) (ids : List Int), WellFounded fun s s' => g.Collects ids s' s := by
  subst hf
  have hg := G.sound hr
  refine ⟨⟨hg.nodup_map_header, fun h => hg.mem_headers_iff⟩, fun l hl => ?_,
    Flow.wellFounded_collects⟩
  have hn := hg.natural_of_mem_loops hl
  refine ⟨Flow.blocks_sublist hl, fun b => hg.mem_blocks_iff hl, fun b hb => ?_,
    fun a b => hg.eq_header_of_entered hl, hg.exists_collects_blocks hl⟩
  have hin := (hn.mem b).1 hb
  exact ⟨hin.reaches hn.header, hin.dominates hn.header⟩

/-- `B3` leads to the latch `B4` around `B1`. The blocks `B6` and `B7` lead to each other, but not even the
entry dominates them. -/
theorem mem_forest_iff_natural_nested : ∃ f, Source.nested.Symmetric 0 ∧
    Source.nested.first? 0 = some ⟨0, 0⟩ ∧ (Source.nested.flow 0).forest = f ∧
    f.loops.map (·.header) = [⟨0, 1⟩, ⟨0, 2⟩] ∧
    f.loops.map (·.blocks) = [[⟨0, 1⟩, ⟨0, 2⟩, ⟨0, 3⟩, ⟨0, 4⟩], [⟨0, 2⟩, ⟨0, 3⟩]] ∧
    (∃ v ∈ Source.nested.prev ⟨0, 1⟩, Dominates Source.nested.Edge ⟨0, 0⟩ ⟨0, 1⟩ v ∧
      Avoids Source.nested.Edge ⟨0, 1⟩ ⟨0, 3⟩ v) ∧
    ¬ (Reaches Source.nested.Edge ⟨0, 0⟩ ⟨0, 6⟩ ∧ ∃ v ∈ Source.nested.prev ⟨0, 6⟩,
      Dominates Source.nested.Edge ⟨0, 0⟩ ⟨0, 6⟩ v) := by
  obtain ⟨⟨_, hheader⟩, hloops, _⟩ := mem_forest_iff_natural Source.symmetric_nested rfl rfl
  have hheaders : (Source.nested.flow 0).forest.loops.map (·.header) = [⟨0, 1⟩, ⟨0, 2⟩] := by
    decide +kernel
  have houter : ∃ l ∈ (Source.nested.flow 0).forest.loops,
      l.header = ⟨0, 1⟩ ∧ ⟨0, 3⟩ ∈ l.blocks := by
    decide +kernel
  obtain ⟨l, hl, hlh, hb⟩ := houter
  obtain ⟨_, hmem, _⟩ := hloops l hl
  refine ⟨_, Source.symmetric_nested, rfl, rfl, hheaders, by decide +kernel, ?_, fun h => ?_⟩
  · rcases (hmem ⟨0, 3⟩).1 hb with heq | ⟨_, hlatch⟩
    · rw [hlh] at heq
      cases heq
    · exact hlh ▸ hlatch
  · have h6 := (hheader ⟨0, 6⟩).2 h
    rw [hheaders] at h6
    simp at h6

end LoopClock
