import LoopClock.Proofs.Flow.Subdivision
import LoopClock.Proofs.Run.Standard
import LoopClock.Proofs.Run.Steps

/-! Giving a loop exits of its own leaves dominance among the old blocks and the loop forest as they
were. A block added for an exit joins the loops that hold both the exit and the loop it is added for. -/
namespace LoopClock
open Graph Program

variable {p q : Program} {i : Nat} {r a x : Vertex} {l : Loop}

/-! ## One exit -/

namespace Program.Regular

variable (G : p.Regular i) (hr : p.first? i = some r) (hl : l.Natural (p.flow i) r)
  (hx : IsExit p.Edge r l.header x)
include G hr hl hx

theorem mem_leaving : a ∈ p.leaving l x ↔ InLoop p.Edge r l.header a ∧ p.Edge a x := by
  have hxf := G.exit_func (first?_func hr) hl hx
  rw [leaving, List.mem_filter, G.mem_prev a x hxf, and_comm]
  refine and_congr_left fun ha => G.holds_iff (first?_func hr) hl ?_
  exact (G.edge_source hxf ha).1

theorem moves_leaving : Moves p x (p.nextVertex i) (p.leaving l x) := by
  have hxf := G.exit_func (first?_func hr) hl hx
  obtain ⟨u, _, he⟩ := hx.2
  exact {
    regular := hxf ▸ G
    mem_ids := hxf ▸ G.mem_ids u x hxf he
    next := by rw [hxf]
    edge := fun a ha => ((G.mem_leaving hr hl hx).1 ha).2
    nodup := (G.nodup_prev x hxf).filter _ }

theorem root_ne_new : r ≠ p.nextVertex i :=
  (G.moves_leaving hr hl hx).ne_new (List.mem_of_head? (head?_layout.trans hr))

section
variable (S : Split p x (p.nextVertex i) (p.leaving l x) q)
include S

theorem exitReroute : ExitReroute p.Edge q.Edge r l.header x (p.nextVertex i) := by
  have hm : (· ∈ p.leaving l x) = fun u => InLoop p.Edge r l.header u ∧ p.Edge u x :=
    funext fun u => propext (G.mem_leaving hr hl hx)
  rw [ExitReroute, ← hm]
  exact (G.moves_leaving hr hl hx).reroute S

theorem subdivides_split : (p.flow i).Subdivides r (q.flow i) := by
  have R := G.exitReroute hr hl hx S
  have hroot := G.root_ne_new hr hl hx
  have hnew := (G.moves_leaving hr hl hx).new_not_mem
  have ne_new : ∀ v ∈ (p.flow i).layout, v ≠ p.nextVertex i := fun v hv =>
    (G.moves_leaving hr hl hx).ne_new hv
  refine ⟨?_, fun h => ?_, fun h hh b hb => ?_, fun a ha b hb => ?_⟩
  · obtain ⟨pre, post, hp, hq, _⟩ := S.laid
    have hids : (q.ids i).filter (· ∈ p.ids i) = p.ids i := by
      rw [show i = (p.nextVertex i).func from rfl, hq, List.filter_append,
        List.filter_cons_of_neg (by simpa using hnew), ← List.filter_append, ← hp,
        List.filter_eq_self]
      exact fun j hj => decide_eq_true hj
    rw [flow, flow, List.filter_map]
    refine congrArg (List.map _) (Eq.trans (List.filter_congr fun j _ => ?_) hids)
    simp
  · by_cases hn : h = p.nextVertex i
    · subst hn
      exact iff_of_false (ExitReroute.not_isHeader_new R hroot hl.header hx)
        fun hh => R.header_ne hh rfl
    · exact ExitReroute.isHeader_iff R hroot hl.header hx hn
  · exact ExitReroute.inLoop_iff R hroot hl.header hx hh (ne_new b hb)
  · exact R.dominates_iff hroot (ne_new a ha) (ne_new b hb)

/-- The loop has the members that it had. -/
theorem natural_split : l.Natural (q.flow i) r := by
  have R := G.exitReroute hr hl hx S
  have hroot := G.root_ne_new hr hl hx
  have hn := ExitReroute.not_inLoop_new R hroot hl.header hx
  refine ⟨(ExitReroute.isHeader_iff R hroot hl.header hx (R.header_ne hl.header)).2 hl.header, ?_⟩
  intro v
  rw [hl.mem v]
  by_cases hv : v = p.nextVertex i
  · exact hv ▸ iff_of_false (fun h => R.inLoop_ne hl.header h rfl) hn
  · exact (ExitReroute.inLoop_iff R hroot hl.header hx hl.header hv).symm

end

end Program.Regular

/-! ## All exits -/

/-- `n` has been laid out for the exit `e` of the loop `l` of `p₀`: the edges by which the loop was left
for `e` lead through it, and it belongs to the loops that hold both `e` and `l`. -/
structure AddedFor (p₀ p : Program) (r : Vertex) (l : Loop) (e n : Vertex) : Prop where
  exit : IsExit p₀.Edge r l.header e
  succ : p.succ n = [e]
  prev : p.prev n = p₀.leaving l e
  inLoop : ∀ h, IsHeader p₀.Edge r h →
    (InLoop p.Edge r h n ↔ InLoop p₀.Edge r h e ∧ InLoop p₀.Edge r h l.header)

/-- The loop `l` of function `i` of `p₀` is being given exits of its own, with `xs` still to come. -/
structure Dedicating (p₀ : Program) (i : Nat) (r : Vertex) (l : Loop) (xs : List Vertex)
    (p : Program) : Prop where
  regular : p.Regular i
  first : p.first? i = some r
  loop : l.Natural (p.flow i) r
  old : (p₀.flow i).Subdivides r (p.flow i)
  nodup : xs.Nodup
  todo : ∀ x ∈ xs, IsExit p₀.Edge r l.header x ∧ IsExit p.Edge r l.header x ∧
    p.prev x = p₀.prev x
  new : ∀ n ∈ (p.flow i).layout, n ∉ (p₀.flow i).layout → ∃ e, AddedFor p₀ p r l e n

namespace Dedicating

variable {p₀ : Program} {xs : List Vertex}

theorem skip (D : Dedicating p₀ i r l (x :: xs) p) : Dedicating p₀ i r l xs p :=
  { D with
    nodup := (List.nodup_cons.1 D.nodup).2
    todo := fun y hy => D.todo y (List.mem_cons_of_mem x hy) }

section
variable (G : p₀.Regular i) (hl : l.Natural (p₀.flow i) r)
  (D : Dedicating p₀ i r l (x :: xs) p) (S : Split p x (p.nextVertex i) (p.leaving l x) q)
include G hl D S

/-- The block that is added is one for the exit that is split. -/
theorem added_new : AddedFor p₀ q r l x (p.nextVertex i) := by
  obtain ⟨hx₀, hx, hprev⟩ := D.todo x List.mem_cons_self
  have M := D.regular.moves_leaving D.first D.loop hx
  have R := D.regular.exitReroute D.first D.loop hx S
  have hroot := D.regular.root_ne_new D.first D.loop hx
  have hf₀ : r.func = i := first?_func D.first
  have layout : ∀ v : Vertex, v.func = i → v.id ∈ p₀.ids i → v ∈ (p₀.flow i).layout :=
    fun v hv hid => mem_layout.2 ⟨hv, hid⟩
  refine ⟨hx₀, by rw [M.succ_eq S, if_pos rfl], ?_, fun h hh => ?_⟩
  · rw [M.prev_eq S, if_pos rfl, leaving, leaving, hprev]
  · have hh' := (D.old.isHeader h).2 hh
    have hxl : x ∈ (p₀.flow i).layout := by
      obtain ⟨u, _, he⟩ := hx₀.2
      have hxf := G.exit_func hf₀ hl hx₀
      exact layout x hxf (G.mem_ids u x hxf he)
    have hhl : l.header ∈ (p₀.flow i).layout := by
      obtain ⟨u, he, _⟩ := hl.header
      have hhf := G.loop_func hf₀ hl ((hl.mem _).2 inLoop_header)
      exact layout l.header hhf (G.mem_ids u _ hhf he)
    exact (ExitReroute.inLoop_new_iff R hroot D.loop.header hx hh').trans
      (and_congr (D.old.inLoop h hh x hxl) (D.old.inLoop h hh l.header hhl))

/-- A block added before stays one for its exit. -/
theorem added_old {e n : Vertex} (hn : n ∈ (p.flow i).layout) (hnew : n ∉ (p₀.flow i).layout)
    (A : AddedFor p₀ p r l e n) : AddedFor p₀ q r l e n := by
  obtain ⟨hx₀, hx, _⟩ := D.todo x List.mem_cons_self
  have M := D.regular.moves_leaving D.first D.loop hx
  have R := D.regular.exitReroute D.first D.loop hx S
  have hroot := D.regular.root_ne_new D.first D.loop hx
  have hne := M.ne_new hn
  have hxn : n ≠ x := fun h => hnew (by
    obtain ⟨u, _, he⟩ := hx₀.2
    have hxf := G.exit_func (first?_func D.first) hl hx₀
    exact h ▸ mem_layout.2 ⟨hxf, G.mem_ids u x hxf he⟩)
  -- it lies outside the loop, so none of its edges is moved
  have hout : n ∉ p.leaving l x := fun h => by
    have hin := ((D.regular.mem_leaving D.first D.loop hx).1 h).1
    exact A.exit.1 ((A.inLoop _ hl.header).1 hin).1
  refine ⟨A.exit, ?_, ?_, fun h hh => ?_⟩
  · rw [M.succ_eq S, if_neg hne, if_neg hout, A.succ]
  · rw [M.prev_eq S, if_neg hne, if_neg hxn, A.prev]
  · rw [ExitReroute.inLoop_iff R hroot D.loop.header hx ((D.old.isHeader h).2 hh) hne]
    exact A.inLoop h hh

theorem split : Dedicating p₀ i r l xs q := by
  have hx := (D.todo x List.mem_cons_self).2.1
  have M := D.regular.moves_leaving D.first D.loop hx
  have R := D.regular.exitReroute D.first D.loop hx S
  have hroot := D.regular.root_ne_new D.first D.loop hx
  obtain ⟨hxs, hnodup⟩ := List.nodup_cons.1 D.nodup
  refine ⟨M.regular_split S D.regular, S.first? D.first,
    D.regular.natural_split D.first D.loop hx S,
    D.old.trans (D.regular.subdivides_split D.first D.loop hx S), hnodup, fun y hy => ?_,
    fun n hn hnew => ?_⟩
  · obtain ⟨hy₀, hyp, hprev⟩ := D.todo y (List.mem_cons_of_mem x hy)
    have hyx : y ≠ x := fun h => hxs (h ▸ hy)
    have hyn : y ≠ p.nextVertex i := fun h => by
      obtain ⟨u, _, he⟩ := hyp.2
      exact R.no_pred u (h ▸ he)
    refine ⟨hy₀, ?_, by rw [M.prev_eq S, if_neg hyn, if_neg hyx, hprev]⟩
    exact (ExitReroute.isExit_self_iff R hroot D.loop.header hx).2 (.inr ⟨hyx, hyp⟩)
  · obtain ⟨hf, hid⟩ := mem_layout.1 hn
    rcases S.mem_ids_iff.1 hid with hid | ⟨_, hid⟩
    · have hnp := mem_layout.2 ⟨hf, hid⟩
      obtain ⟨e, A⟩ := D.new n hnp hnew
      exact ⟨e, D.added_old G hl S hnp hnew A⟩
    · have hn : n = p.nextVertex i := Vertex.ext hf hid
      exact ⟨x, hn ▸ D.added_new G hl S⟩

end

theorem dedicateExit (G : p₀.Regular i) (hl : l.Natural (p₀.flow i) r)
    (D : Dedicating p₀ i r l (x :: xs) p) (b : Bool) :
    Dedicating p₀ i r l xs (Program.dedicateExit i l (p, b) x).val.1 := by
  simp only [Program.dedicateExit, List.partition_eq_filter_filter]
  split
  · exact D.skip
  · have hx := (D.todo x List.mem_cons_self).2.1
    have S := (D.regular.moves_leaving D.first D.loop hx).split
    rw [D.regular.exit_func (first?_func D.first) D.loop hx] at S
    exact D.split G hl S

theorem foldlM (G : p₀.Regular i) (hl : l.Natural (p₀.flow i) r)
    (D : Dedicating p₀ i r l xs p) (b : Bool) :
    Dedicating p₀ i r l [] (xs.foldlM (Program.dedicateExit i l) (p, b)).val.1 := by
  induction xs generalizing p b with
  | nil => exact D
  | cons x xs ih =>
    rw [List.foldlM_cons, Traced.val_bind]
    exact ih (D.dedicateExit G hl b) _

theorem dedicateExits (G : p₀.Regular i) (hr : p₀.first? i = some r)
    (hl : l.Natural (p₀.flow i) r) :
    Dedicating p₀ i r l [] (p₀.dedicateExits i l).val.1 := by
  have hf := first?_func hr
  refine foldlM G hl ⟨G, hr, hl, .refl, G.nodup_exitBlocks hf hl, fun x hx => ?_, ?_⟩ false
  · have hx := (G.mem_exitBlocks hf hl).1 hx
    exact ⟨hx, hx, rfl⟩
  · exact fun n hn hnew => absurd hn hnew

end Dedicating

/-- Giving a loop that was found exits of its own leaves the old blocks dominated by the blocks that
dominated them. Number by number, the loops keep their headers, their places in the forest and their
old members, and they are visited in the same order. A block that is added takes over the edges by
which the loop was left for one of its exits, and it is in the loops that hold both. -/
theorem forest_dedicateExits (G : p.Regular i) (hl : l ∈ (p.flow i).forest.loops)
    (hq : (p.dedicateExits i l).val.1 = q) :
    (∀ a ∈ (p.flow i).layout, ∀ b ∈ (p.flow i).layout,
      (q.flow i).domTree.dominates a.id b.id = (p.flow i).domTree.dominates a.id b.id) ∧
    (q.flow i).forest.loops.map Loop.bare = (p.flow i).forest.loops.map Loop.bare ∧
    (q.flow i).forest.loops.map (·.blocks.filter (· ∈ (p.flow i).layout)) =
      (p.flow i).forest.loops.map (·.blocks) ∧
    (∀ n ∈ (q.flow i).layout, n ∉ (p.flow i).layout → ∃ e ∈ p.exitBlocks l,
      q.succ n = [e] ∧ q.prev n = p.leaving l e ∧
      ∀ (k : Nat) (m m' : Loop),
        (p.flow i).forest.loops[k]? = some m → (q.flow i).forest.loops[k]? = some m' →
        (n ∈ m'.blocks ↔ e ∈ m.blocks ∧ l.blocks ⊆ m.blocks)) ∧
    (q.flow i).forest.visitOrder = (p.flow i).forest.visitOrder := by
  subst hq
  obtain ⟨r, hr⟩ : ∃ r, p.first? i = some r := by
    rw [← head?_layout]
    cases hv : (p.flow i).layout with
    | nil => simp [Flow.forest, Flow.loopForest, Flow.loopBodies, hv] at hl
    | cons v vs => exact ⟨v, rfl⟩
  have hg := G.sound hr
  have hn := hg.natural_of_mem_loops hl
  have D := Dedicating.dedicateExits G hr hn
  have hg' := D.regular.sound D.first
  refine ⟨fun a ha b hb => D.old.dominates_eq hg hg' ha hb, D.old.map_bare_eq hg hg',
    D.old.map_blocks_eq hg hg', fun n hn' hnew => ?_, D.old.visitOrder_eq hg hg'⟩
  obtain ⟨e, A⟩ := D.new n hn' hnew
  refine ⟨e, (G.mem_exitBlocks (first?_func hr) hn).2 A.exit, A.succ, A.prev, ?_⟩
  intro k m m' hm hm'
  have hm₀ := hg.natural_of_mem_loops (List.mem_of_getElem? hm)
  have hmem := (hg'.natural_of_mem_loops (List.mem_of_getElem? hm')).mem n
  rw [D.old.header_eq hg hg' hm hm'] at hmem
  refine (hmem.trans (A.inLoop m.header hm₀.header)).trans (and_congr (hm₀.mem e).symm ?_)
  constructor
  · exact fun hin v hv => (hm₀.mem v).2 (hin.trans hm₀.header hn.header ((hn.mem v).1 hv))
  · exact fun hsub => (hm₀.mem _).1 (hsub ((hn.mem _).2 inLoop_header))

/-- The loop that is left by two edges for `B2`, which is entered from elsewhere too. -/
theorem forest_dedicateExits_sharedExit :
    ∃ l q, Source.sharedExit.Regular 0 ∧ l ∈ (Source.sharedExit.flow 0).forest.loops ∧
      (Source.sharedExit.dedicateExits 0 l).val.1 = q ∧ q.ids 0 = [0, 1, 3, 4, 2] ∧
      (q.flow 0).forest.loops.map Loop.bare = [⟨0, ⟨0, 1⟩, [], none, [], 1⟩] ∧
      (∃ e ∈ Source.sharedExit.exitBlocks l, q.succ ⟨0, 4⟩ = [e] ∧
        q.prev ⟨0, 4⟩ = [⟨0, 1⟩, ⟨0, 3⟩]) ∧
      (q.flow 0).forest.visitOrder = [1] := by
  have G := (Source.wellformed_of_parse Source.parse_sharedExit).proper.regular 0
  have hloops : (Source.sharedExit.flow 0).forest.loops =
      [⟨0, ⟨0, 1⟩, [⟨0, 1⟩, ⟨0, 3⟩], none, [], 1⟩] := by decide +kernel
  have hl : ⟨0, ⟨0, 1⟩, [⟨0, 1⟩, ⟨0, 3⟩], none, [], 1⟩ ∈ (Source.sharedExit.flow 0).forest.loops :=
    hloops ▸ List.mem_singleton_self _
  have hids : (Source.sharedExit.dedicateExits 0
      ⟨0, ⟨0, 1⟩, [⟨0, 1⟩, ⟨0, 3⟩], none, [], 1⟩).val.1.ids 0 = [0, 1, 3, 4, 2] := by decide +kernel
  obtain ⟨_, hbare, _, hnew, horder⟩ := forest_dedicateExits G hl rfl
  obtain ⟨e, he, hsucc, hprev, _⟩ := hnew ⟨0, 4⟩ (mem_layout.2 ⟨rfl, by simp [hids]⟩) (by decide)
  have hexit : Source.sharedExit.exitBlocks
      ⟨0, ⟨0, 1⟩, [⟨0, 1⟩, ⟨0, 3⟩], none, [], 1⟩ = [⟨0, 2⟩] := by decide +kernel
  obtain rfl := List.mem_singleton.1 (hexit ▸ he)
  refine ⟨_, _, G, hl, rfl, hids, hbare.trans ?_, ⟨_, he, hsucc, hprev.trans ?_⟩, horder.trans ?_⟩
  · rw [hloops]
    rfl
  · decide +kernel
  · rw [LoopForest.visitOrder, LoopForest.postOrder, LoopForest.topLevel, hloops]
    rfl

end LoopClock
