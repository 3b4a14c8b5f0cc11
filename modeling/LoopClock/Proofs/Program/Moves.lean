import LoopClock.Proofs.Graph.Reroute
import LoopClock.Proofs.Names
import LoopClock.Proofs.Program.Phis
import LoopClock.Proofs.Program.Regular
import LoopClock.Proofs.Program.Split

/-! Splitting in the flow graph: the moved edges are led through the new block, and regular functions
stay regular. A block may be among its own predecessors. -/
namespace LoopClock.Program
open Graph

variable {p q : Program} {u v w e n : Vertex} {preds : List Vertex} {i : Nat}

theorem eq_of_label (hf : u.func = v.func) (h : u.label = v.label) : u = v :=
  Vertex.ext hf (Label.ofId_injective h)

/-- The edges from `preds` into `e` can be moved to `n`, the next new block of the function. -/
structure Moves (p : Program) (e n : Vertex) (preds : List Vertex) : Prop where
  regular : p.Regular e.func
  mem_ids : e.id ∈ p.ids e.func
  next : n = p.nextVertex e.func
  edge : ∀ a ∈ preds, p.Edge a e
  nodup : preds.Nodup

theorem reroutedAll_splitPhis (p : Program) (e n : Vertex) (preds : List Vertex) :
    Phi.ReroutedAll (preds.map Vertex.label) n.label p.temps (p.phis e) (p.splitPhis e n preds).1
      (p.splitPhis e n preds).2.1 (p.splitPhis e n preds).2.2 :=
  Phi.reroutedAll_rerouteAll _ _

theorem Split.first? {r : Vertex} (S : Split p e n preds q) (hr : p.first? i = some r) :
    q.first? i = some r := by
  rw [← head?_layout, flow, List.head?_map, Option.map_eq_some_iff] at hr ⊢
  obtain ⟨j, hj, hjr⟩ := hr
  exact ⟨j, S.head?_ids hj, hjr⟩

namespace Moves

variable (M : Moves p e n preds)
include M

theorem func_eq : n.func = e.func := by
  rw [M.next]
  rfl

theorem id_eq : n.id = p.total n.func + 1 := by
  rw [M.func_eq, M.next]
  rfl

theorem lt_length : e.func < p.funcs.length := lt_of_mem_ids M.mem_ids

theorem new_not_mem : n.id ∉ p.ids n.func := by
  intro h
  have hid := M.id_eq
  rw [M.func_eq] at h hid
  have := M.regular.bound _ h
  omega

theorem target_ne : e ≠ n := fun h => by
  have hm := M.mem_ids
  rw [h] at hm
  exact M.new_not_mem hm

theorem ne_new (hv : v ∈ (p.flow i).layout) : v ≠ n := by
  rintro rfl
  obtain ⟨rfl, hid⟩ := mem_layout.1 hv
  exact M.new_not_mem hid

theorem pred_func (h : v ∈ preds) : v.func = e.func :=
  (M.regular.edge_source rfl (M.edge v h)).1

theorem not_edge_new (v : Vertex) : ¬ p.Edge n v := fun h =>
  M.new_not_mem (mem_ids_of_mem_succ h)

theorem not_edge_to_new (v : Vertex) : ¬ p.Edge v n := fun h => by
  have hm := M.regular.mem_ids v n M.func_eq h
  rw [← M.func_eq] at hm
  exact M.new_not_mem hm

theorem new_not_pred : n ∉ preds := fun h => M.not_edge_new e (M.edge n h)

theorem split : Split p e n preds (p.splitPredecessors e.func e preds).1 := by
  have hf := M.func_eq
  have hn := M.new_not_mem
  have hen := M.target_ne
  have hnp := M.new_not_pred
  rw [hf] at hn
  rw [M.next] at hn hen hnp ⊢
  exact split_splitPredecessors M.lt_length hn hen hnp M.nodup M.edge

theorem exists_target : ∃ b, p.block? e = some b := exists_block? M.mem_ids

theorem block?_new : p.block? n = none := block?_eq_none M.new_not_mem

section
variable (S : Split p e n preds q)
include S

/-! ## Block by block -/

theorem succ_eq : q.succ v =
    if v = n then [e] else if v ∈ preds then (p.succ v).replace e n else p.succ v := by
  by_cases hv : v = n
  · subst hv
    simp [succ, S.new]
  · rw [if_neg hv, succ, S.old v hv, succ]
    cases p.block? v <;> by_cases hvp : v ∈ preds <;> simp [rerouted, hvp]

theorem prev_eq : q.prev v =
    if v = n then preds
    else if v = e then (p.prev e).filter (· ∉ preds) ++ [n] else p.prev v := by
  by_cases hv : v = n
  · subst hv
    simp [prev, S.new]
  · rw [if_neg hv, prev, S.old v hv, prev, prev]
    by_cases hve : v = e
    · obtain ⟨b, hb⟩ := M.exists_target
      simp [hve, hb, rerouted]
    · cases p.block? v <;> simp [rerouted, hve]

theorem phis_eq : q.phis v =
    if v = n then (p.splitPhis e n preds).2.1
    else if v = e then (p.splitPhis e n preds).1 else p.phis v := by
  by_cases hv : v = n
  · subst hv
    simp [phis, S.new]
  · rw [if_neg hv, phis, S.old v hv, phis]
    by_cases hve : v = e
    · obtain ⟨b, hb⟩ := M.exists_target
      simp [hve, hb, rerouted]
    · cases p.block? v <;> simp [rerouted, hve]

theorem jump_eq : q.jump v =
    if v = n then some (.jump e.label)
    else if v ∈ preds then (p.jump v).map (Terminator.retarget e.label n.label)
    else p.jump v := by
  by_cases hv : v = n
  · subst hv
    simp [jump, S.new]
  · rw [if_neg hv, jump, S.old v hv, jump]
    cases p.block? v <;> by_cases hvp : v ∈ preds <;> simp [rerouted, hvp]

theorem body_eq : q.body = p.body := by
  funext v
  by_cases hv : v = n
  · subst hv
    simp [body, S.new, M.block?_new]
  · rw [body, S.old v hv, body]
    cases p.block? v <;> simp [rerouted]

theorem total_eq : q.total i = if i = n.func then n.id else p.total i := by
  have h := congrArg (Option.map (·.total)) (S.bare i)
  simp only [bare?, Option.map_map] at h
  rw [Program.total, show (fun f : Func => f.total) = (fun f => f.total) ∘ Func.bare from rfl, h,
    Program.total]
  split
  · next hi =>
    have hlt : i < p.funcs.length := by
      rw [hi, M.func_eq]
      exact M.lt_length
    simp [List.getElem?_eq_getElem hlt]
  · rw [Option.map_map]
    rfl

theorem total_le (i : Nat) : p.total i ≤ q.total i := by
  rw [M.total_eq S]
  split
  · next hi =>
    subst hi
    have hid := M.id_eq
    omega
  · exact Int.le_refl _

/-! ## The flow graph -/

theorem edge_iff : q.Edge u v ↔
    u = n ∧ v = e ∨ v = n ∧ u ∈ preds ∨ p.Edge u v ∧ ¬ (u ∈ preds ∧ v = e) := by
  show v ∈ q.succ u ↔ _
  rw [M.succ_eq S]
  by_cases hu : u = n
  · subst hu
    have hold := M.not_edge_new v
    simp [M.new_not_pred, hold]
  by_cases hup : u ∈ preds
  · have he := M.edge u hup
    have hno := M.not_edge_to_new u
    have hnd := M.regular.nodup_succ u (M.pred_func hup)
    simp only [hu, hup, if_true, if_false, replace_eq_map hnd, List.mem_map]
    constructor
    · rintro ⟨x, hx, rfl⟩
      split
      · exact .inr (.inl ⟨rfl, trivial⟩)
      · next hxe => exact .inr (.inr ⟨hx, fun h => hxe h.2⟩)
    · rintro (⟨h, _⟩ | ⟨rfl, _⟩ | ⟨hv, hne⟩)
      · exact h.elim
      · exact ⟨e, he, by simp⟩
      · have hve : v ≠ e := fun h => hne ⟨trivial, h⟩
        exact ⟨v, hv, by simp [hve]⟩
  · simp [hu, hup, Leads]

theorem reroute : Reroute p.Edge q.Edge (· ∈ preds) e n :=
  ⟨fun _ _ => M.edge_iff S, M.not_edge_new, M.not_edge_to_new, M.edge⟩

section
variable (G : p.Regular i)
include G

theorem nodup_ids_split : (q.ids i).Nodup := by
  have hnd := G.nodup
  by_cases hi : i = n.func
  · subst hi
    obtain ⟨pre, post, h, h', _⟩ := S.laid
    have hn := M.new_not_mem
    rw [h] at hn hnd
    rw [h', List.perm_middle.nodup_iff, List.nodup_cons]
    exact ⟨hn, hnd⟩
  · rwa [S.ids i hi]

theorem mem_prev_split (hw : w.func = i) : v ∈ q.prev w ↔ q.Edge v w := by
  rw [M.prev_eq S, M.edge_iff S]
  have hne := M.target_ne
  have hold := G.mem_prev v w hw
  by_cases hwn : w = n
  · subst hwn
    simp [Ne.symm hne, M.not_edge_to_new v]
  by_cases hwe : w = e
  · subst hwe
    simp only [hwn, if_true, if_false, List.mem_append, List.mem_filter, hold,
      List.mem_singleton, decide_eq_true_eq, false_and, false_or, and_true]
    exact or_comm
  · simp [hwn, hwe, hold]

theorem nodup_succ_split (hv : v.func = i) : (q.succ v).Nodup := by
  have hnd := G.nodup_succ v hv
  rw [M.succ_eq S]
  split
  · exact List.nodup_singleton e
  split
  · rw [replace_eq_map hnd]
    refine hnd.map_on fun x hx y hy hxy => ?_
    have hxn : x ≠ n := fun h => M.not_edge_to_new v (h ▸ hx)
    have hyn : y ≠ n := fun h => M.not_edge_to_new v (h ▸ hy)
    by_cases hxe : x = e
    · by_cases hye : y = e
      · exact hxe.trans hye.symm
      · simp only [hxe, hye, if_true, if_false] at hxy
        exact absurd hxy.symm hyn
    · by_cases hye : y = e
      · simp only [hxe, hye, if_true, if_false] at hxy
        exact absurd hxy hxn
      · simpa [hxe, hye] using hxy
  · exact hnd

theorem nodup_prev_split (hv : v.func = i) : (q.prev v).Nodup := by
  rw [M.prev_eq S]
  split
  · exact M.nodup
  split
  · have hn : n ∉ p.prev e := fun h => M.not_edge_new e ((M.regular.mem_prev n e rfl).1 h)
    rw [List.nodup_append]
    refine ⟨(M.regular.nodup_prev e rfl).filter _, List.nodup_singleton n, fun a ha b hb => ?_⟩
    rw [List.mem_singleton] at hb
    exact fun h => hn (hb ▸ h ▸ List.mem_of_mem_filter ha)
  · exact G.nodup_prev v hv

theorem regular_split : q.Regular i where
  nodup := M.nodup_ids_split S G
  bound j hj := by
    have hid := M.id_eq
    rw [M.total_eq S]
    rcases S.mem_ids_iff.1 hj with hj | ⟨rfl, rfl⟩
    · have hb := G.bound j hj
      split
      · next hi =>
        subst hi
        omega
      · exact hb
    · rw [if_pos rfl]
  func_iff v w h := by
    rcases (M.edge_iff S).1 h with ⟨rfl, rfl⟩ | ⟨rfl, hv⟩ | ⟨h, _⟩
    · rw [M.func_eq]
    · rw [M.func_eq]
      exact G.func_iff v e (M.edge v hv)
    · exact G.func_iff v w h
  mem_ids v w hw h := by
    rw [S.mem_ids_iff]
    rcases (M.edge_iff S).1 h with ⟨rfl, rfl⟩ | ⟨rfl, hv⟩ | ⟨h, _⟩
    · exact .inl (hw ▸ M.mem_ids)
    · exact .inr ⟨hw.symm, rfl⟩
    · exact .inl (G.mem_ids v w hw h)
  mem_prev v w := M.mem_prev_split S G
  nodup_succ v := M.nodup_succ_split S G
  nodup_prev v := M.nodup_prev_split S G

end

end

/-! ## Labels of the moved edges -/

theorem prev_func (h : u ∈ p.prev e) : u.func = e.func :=
  (M.regular.edge_source rfl ((M.regular.mem_prev u e rfl).1 h)).1

theorem mem_prev_of_pred (h : u ∈ preds) : u ∈ p.prev e :=
  (M.regular.mem_prev u e rfl).2 (M.edge u h)

theorem label_mem_moved (h : u ∈ p.prev e) : u.label ∈ preds.map Vertex.label ↔ u ∈ preds := by
  rw [List.mem_map]
  constructor
  · rintro ⟨w, hw, heq⟩
    have hf := (M.pred_func hw).trans (M.prev_func h).symm
    exact eq_of_label hf heq ▸ hw
  · exact fun h => ⟨u, h, rfl⟩

theorem label_ne_new (h : u ∈ p.prev e) : u.label ≠ n.label := fun heq => by
  have hu : u = n := eq_of_label ((M.prev_func h).trans M.func_eq.symm) heq
  exact M.not_edge_new e ((M.regular.mem_prev n e rfl).1 (hu ▸ h))

section
variable {φ : Phi} (hφ : (φ.source.map (·.2)).Perm ((p.prev e).map Vertex.label))
include hφ

theorem perm_incoming :
    ((φ.incoming (preds.map Vertex.label)).map (·.2)).Perm (preds.map Vertex.label) := by
  have h := hφ.filter (· ∈ preds.map Vertex.label)
  rw [List.filter_map, List.filter_map] at h
  refine h.trans (List.Perm.map _ ?_)
  refine (List.perm_ext_iff_of_nodup ((M.regular.nodup_prev e rfl).filter _) M.nodup).2 fun u => ?_
  rw [List.mem_filter, Function.comp_apply, decide_eq_true_iff]
  constructor
  · rintro ⟨hu, hl⟩
    exact (M.label_mem_moved hu).1 hl
  · intro hu
    have hp := M.mem_prev_of_pred hu
    exact ⟨hp, (M.label_mem_moved hp).2 hu⟩

theorem perm_kept : ((φ.kept (preds.map Vertex.label)).map (·.2)).Perm
    (((p.prev e).filter (· ∉ preds)).map Vertex.label) := by
  have h := hφ.filter (· ∉ preds.map Vertex.label)
  rw [List.filter_map, List.filter_map] at h
  refine h.trans (List.Perm.of_eq (congrArg _ (List.filter_congr fun u hu => ?_)))
  rw [Function.comp_apply, decide_eq_decide, M.label_mem_moved hu]

theorem incoming_ne_nil (hne : preds ≠ []) : φ.incoming (preds.map Vertex.label) ≠ [] := by
  intro h
  have hp := (M.perm_incoming hφ).length_eq
  rw [h, List.map_nil, List.length_nil, List.length_map] at hp
  exact hne (List.length_eq_zero_iff.1 hp.symm)

end

section
variable (S : Split p e n preds q)
  (hφ : ∀ φ ∈ p.phis e, (φ.source.map (·.2)).Perm ((p.prev e).map Vertex.label))
include S hφ

/-- The phis that stay have one entry for each block that still leads to theirs, the new one included. -/
theorem labels_target (hne : preds ≠ []) :
    ∀ φ ∈ q.phis e, (φ.source.map (·.2)).Perm ((q.prev e).map Vertex.label) := by
  intro φ h
  rw [M.phis_eq S, if_neg M.target_ne, if_pos rfl] at h
  rw [M.prev_eq S, if_neg M.target_ne, if_pos rfl]
  obtain ⟨ψ, hψ, _, _, _, _, _, hr, _⟩ := (reroutedAll_splitPhis p e n preds).exists_of_mem_stay h
  have hl := hφ ψ hψ
  rw [hr.labels (M.incoming_ne_nil hl hne), List.map_append, List.map_singleton]
  exact (M.perm_kept hl).append_right _

/-- The phis of the new block have one entry for each block whose edge was moved. -/
theorem labels_new :
    ∀ φ ∈ q.phis n, (φ.source.map (·.2)).Perm ((q.prev n).map Vertex.label) := by
  intro φ h
  rw [M.phis_eq S, if_pos rfl] at h
  rw [M.prev_eq S, if_pos rfl]
  obtain ⟨ψ, hψ, _, _, _, rfl, _⟩ := (reroutedAll_splitPhis p e n preds).exists_of_mem_added h
  exact M.perm_incoming (hφ ψ hψ)

end

end Moves

end LoopClock.Program
