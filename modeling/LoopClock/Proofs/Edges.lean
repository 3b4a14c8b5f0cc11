import LoopClock.Proofs.Dominance

/-! Changing the edges of a graph one by one. Blocks that know their edges at both ends go on doing so,
whichever of them coincide in a call, as long as no edge is redirected to where there is one already. -/
namespace LoopClock.Program

variable {p q : Program} {a b old new v w : Vertex} {vs : List Vertex}
  {change : List Vertex → List Vertex}

instance (p : Program) (v w : Vertex) : Decidable (p.Edge v w) :=
  inferInstanceAs (Decidable (w ∈ p.succ v))

/-! ## One end of an edge -/

def updateSucc (p : Program) (v : Vertex) (change : List Vertex → List Vertex) : Program :=
  p.update v fun b => { b with succ := change b.succ }

def updatePrev (p : Program) (v : Vertex) (change : List Vertex → List Vertex) : Program :=
  p.update v fun b => { b with prev := change b.prev }

theorem revised_updateSucc : Revised
    (fun w b => if w = v then { b with succ := change b.succ } else b) p (p.updateSucc v change) :=
  revised_update fun _ => rfl

theorem revised_updatePrev : Revised
    (fun w b => if w = v then { b with prev := change b.prev } else b) p (p.updatePrev v change) :=
  revised_update fun _ => rfl

theorem prev_updateSucc : (p.updateSucc v change).prev = p.prev :=
  revised_updateSucc.prev fun _ _ => by split <;> rfl

theorem succ_updatePrev : (p.updatePrev v change).succ = p.succ :=
  revised_updatePrev.succ fun _ _ => by split <;> rfl

theorem succ_updateSucc (h : v.id ∈ p.ids v.func) (w : Vertex) :
    (p.updateSucc v change).succ w = if w = v then change (p.succ w) else p.succ w := by
  obtain ⟨b, hb⟩ := exists_block? h
  rw [succ, revised_updateSucc.block?, succ]
  by_cases hw : w = v
  · simp [hw, hb]
  · simp [hw]

theorem prev_updatePrev (h : v.id ∈ p.ids v.func) (w : Vertex) :
    (p.updatePrev v change).prev w = if w = v then change (p.prev w) else p.prev w := by
  obtain ⟨b, hb⟩ := exists_block? h
  rw [prev, revised_updatePrev.block?, prev]
  by_cases hw : w = v
  · simp [hw, hb]
  · simp [hw]

theorem link_eq_of_not_mem (h : b.id ∉ (p.succ a).map (·.id)) :
    p.link a b = (p.updateSucc a (· ++ [b])).updatePrev b (· ++ [a]) := if_neg h

theorem redirect_eq_of_edge (h : p.Edge a old) : p.redirect a old new =
    ((p.updateSucc a (·.replace old new)).updatePrev old (·.filter (· != a))).updatePrev new
      (· ++ [a]) := if_pos h

theorem link_of_edge (h : p.Edge a b) : p.link a b = p := if_pos (List.mem_map_of_mem h)

theorem redirect_of_not_edge (h : ¬ p.Edge a old) : p.redirect a old new = p := if_neg h

/-! ## Calls -/

/-- `q` is `p` with an edge from `a` to `b` put behind the others. -/
structure Linked (p : Program) (a b : Vertex) (q : Program) : Prop where
  ids : ∀ i, q.ids i = p.ids i
  succ : ∀ v, q.succ v = if v = a then p.succ v ++ [b] else p.succ v
  prev : ∀ v, q.prev v = if v = b then p.prev v ++ [a] else p.prev v

/-- `q` has an edge from `a` to `new` at the place where `p` has the one from `a` to `old`. -/
structure Redirected (p : Program) (a old new : Vertex) (q : Program) : Prop where
  ids : ∀ i, q.ids i = p.ids i
  place : ∃ before behind, p.succ a = before ++ old :: behind ∧ q.succ a = before ++ new :: behind
  succ : ∀ v, v ≠ a → q.succ v = p.succ v
  prev : ∀ v, q.prev v =
    (if v = old then (p.prev v).filter (· != a) else p.prev v) ++ if v = new then [a] else []

theorem linked_link_of_not_mem (ha : a.id ∈ p.ids a.func) (hb : b.id ∈ p.ids b.func)
    (h : b.id ∉ (p.succ a).map (·.id)) : p.Linked a b (p.link a b) := by
  rw [link_eq_of_not_mem h]
  refine ⟨fun i => ?_, fun v => ?_, fun v => ?_⟩
  · rw [revised_updatePrev.ids, revised_updateSucc.ids]
  · rw [succ_updatePrev, succ_updateSucc ha]
  · have hb : b.id ∈ (p.updateSucc a (· ++ [b])).ids b.func := by rwa [revised_updateSucc.ids]
    rw [prev_updatePrev hb, prev_updateSucc]

theorem redirected_redirect (hold : old.id ∈ p.ids old.func) (hnew : new.id ∈ p.ids new.func)
    (h : p.Edge a old) : p.Redirected a old new (p.redirect a old new) := by
  have ha : a.id ∈ p.ids a.func := mem_ids_of_mem_succ h
  rw [redirect_eq_of_edge h]
  refine ⟨fun i => ?_, ?_, fun v hv => ?_, fun v => ?_⟩
  · rw [revised_updatePrev.ids, revised_updatePrev.ids, revised_updateSucc.ids]
  · obtain ⟨before, behind, hsplit, hfirst⟩ := List.eq_append_cons_of_mem h
    refine ⟨before, behind, hsplit, ?_⟩
    rw [succ_updatePrev, succ_updatePrev, succ_updateSucc ha, if_pos rfl, hsplit,
      List.replace_append_right hfirst, List.replace_cons_self]
  · rw [succ_updatePrev, succ_updatePrev, succ_updateSucc ha, if_neg hv]
  · have hkept : ∀ i, (p.updateSucc a (·.replace old new)).ids i = p.ids i := revised_updateSucc.ids
    rw [← hkept] at hold hnew
    rw [← revised_updatePrev.ids] at hnew
    rw [prev_updatePrev hnew, prev_updatePrev hold, prev_updateSucc]
    by_cases hv : v = new
    · rw [if_pos hv, if_pos hv]
    · rw [if_neg hv, if_neg hv, List.append_nil]

theorem Linked.edge_iff (L : p.Linked a b q) : q.Edge v w ↔ p.Edge v w ∨ v = a ∧ w = b := by
  rw [Edge, Leads, L.succ, Edge, Leads]
  by_cases hv : v = a
  · simp [hv]
  · simp [hv]

theorem Linked.mem_prev (L : p.Linked a b q) : v ∈ q.prev w ↔ v ∈ p.prev w ∨ v = a ∧ w = b := by
  rw [L.prev]
  by_cases hw : w = b
  · simp [hw]
  · simp [hw]

theorem Redirected.edge_iff (R : p.Redirected a old new q) (hn : (p.succ a).Nodup) :
    q.Edge v w ↔ p.Edge v w ∧ ¬ (v = a ∧ w = old) ∨ v = a ∧ w = new := by
  by_cases hv : v = a
  · obtain ⟨before, behind, hp, hq⟩ := R.place
    rw [hp, List.nodup_middle, List.nodup_cons] at hn
    -- the edge to `old` is in one place only, so it is gone
    have hold : w ∈ before ++ behind → w ≠ old := fun hw h => hn.1 (h ▸ hw)
    rw [List.mem_append] at hold
    simp only [Leads, hv, hp, hq, List.mem_append, List.mem_cons, true_and]
    tauto
  · simp [Leads, hv, R.succ v hv]

/-- To lead an edge to where there is one already puts the target there twice. -/
theorem Redirected.nodup_succ_iff (R : p.Redirected a old new q) (hn : (p.succ a).Nodup) :
    (q.succ a).Nodup ↔ (new ≠ old → ¬ p.Edge a new) := by
  obtain ⟨before, behind, hp, hq⟩ := R.place
  rw [hp, List.nodup_middle, List.nodup_cons] at hn
  have hedge : p.Edge a new ↔ new = old ∨ new ∈ before ++ behind := by
    simp only [Leads, hp, List.mem_append, List.mem_cons]
    tauto
  rw [hq, List.nodup_middle, List.nodup_cons, hedge, and_iff_left hn.2]
  constructor
  · intro hnew hne h
    exact h.elim hne hnew
  · intro hfree hmem
    have hne : new ≠ old := fun h => hn.1 (h ▸ hmem)
    exact hfree hne (.inr hmem)

theorem Redirected.mem_prev (R : p.Redirected a old new q) :
    v ∈ q.prev w ↔ v ∈ p.prev w ∧ ¬ (v = a ∧ w = old) ∨ v = a ∧ w = new := by
  have hnew : v ∈ (if w = new then [a] else []) ↔ v = a ∧ w = new := by
    by_cases hw : w = new <;> simp [hw]
  rw [R.prev, List.mem_append, hnew]
  by_cases hw : w = old
  · simp [hw]
  · simp [hw]

/-! ## Graphs -/

/-- The blocks `vs` form a graph: ids tell them apart, their edges lead to one another, and each edge is
known at both of its ends, once at each. -/
structure Mutual (p : Program) (vs : List Vertex) : Prop where
  mem_ids : ∀ v ∈ vs, v.id ∈ p.ids v.func
  id_inj : ∀ v ∈ vs, ∀ w ∈ vs, v.id = w.id → v = w
  closed : ∀ v ∈ vs, ∀ w, p.Edge v w → w ∈ vs
  mem_prev : ∀ w ∈ vs, ∀ v, v ∈ p.prev w ↔ v ∈ vs ∧ p.Edge v w
  nodup_succ : ∀ v ∈ vs, (p.succ v).Nodup
  nodup_prev : ∀ v ∈ vs, (p.prev v).Nodup

/-- The blocks of a regular function are such a graph. -/
theorem Regular.mutual {i : Nat} (G : p.Regular i) : p.Mutual (p.flow i).layout where
  mem_ids v hv := by
    obtain ⟨rfl, hid⟩ := mem_layout.1 hv
    exact hid
  id_inj v hv w hw h := Vertex.ext ((mem_layout.1 hv).1.trans (mem_layout.1 hw).1.symm) h
  closed v hv w he := mem_layout.2 (G.edge_target (mem_layout.1 hv).1 he)
  mem_prev w hw v := by
    have hf := (mem_layout.1 hw).1
    rw [G.mem_prev v w hf]
    exact ⟨fun he => ⟨mem_layout.2 (G.edge_source hf he), he⟩, And.right⟩
  nodup_succ v hv := G.nodup_succ v (mem_layout.1 hv).1
  nodup_prev v hv := G.nodup_prev v (mem_layout.1 hv).1

namespace Mutual

variable (G : p.Mutual vs)
include G

/-- Blocks are compared by their ids, which tell them apart. -/
theorem linked_link (ha : a ∈ vs) (hb : b ∈ vs) (h : ¬ p.Edge a b) : p.Linked a b (p.link a b) := by
  refine linked_link_of_not_mem (G.mem_ids a ha) (G.mem_ids b hb) fun hid => h ?_
  obtain ⟨w, hw, hid⟩ := List.mem_map.1 hid
  exact G.id_inj w (G.closed a ha w hw) b hb hid ▸ hw

theorem linked (ha : a ∈ vs) (hb : b ∈ vs) (h : ¬ p.Edge a b) (L : p.Linked a b q) : q.Mutual vs where
  mem_ids v hv := L.ids v.func ▸ G.mem_ids v hv
  id_inj := G.id_inj
  closed v hv w hw := by
    rcases L.edge_iff.1 hw with hw | ⟨_, rfl⟩
    · exact G.closed v hv w hw
    · exact hb
  mem_prev w hw v := by
    rw [L.mem_prev, L.edge_iff, G.mem_prev w hw, and_or_left]
    refine or_congr_right (iff_and_self.2 ?_)
    rintro ⟨rfl, _⟩
    exact ha
  nodup_succ v hv := by
    rw [L.succ]
    split
    · next hva =>
      subst hva
      rw [← List.concat_eq_append]
      exact (G.nodup_succ v hv).concat h
    · exact G.nodup_succ v hv
  nodup_prev v hv := by
    rw [L.prev]
    split
    · next hvb =>
      subst hvb
      rw [← List.concat_eq_append]
      exact (G.nodup_prev v hv).concat fun hp => h ((G.mem_prev v hv a).1 hp).2
    · exact G.nodup_prev v hv

/-- An edge may be led to where there is none, or left where it is, and not elsewhere. -/
theorem redirected_iff (ha : a ∈ vs) (hnew : new ∈ vs) (R : p.Redirected a old new q) :
    q.Mutual vs ↔ (new ≠ old → ¬ p.Edge a new) := by
  have hn := G.nodup_succ a ha
  refine ⟨fun H => (R.nodup_succ_iff hn).1 (H.nodup_succ a ha), fun hfree => ?_⟩
  have hkept : ∀ v ∈ vs, (if v = old then (p.prev v).filter (· != a) else p.prev v).Nodup := by
    intro v hv
    split
    · exact (G.nodup_prev v hv).filter _
    · exact G.nodup_prev v hv
  refine ⟨fun v hv => ?_, G.id_inj, fun v hv w hw => ?_, fun w hw v => ?_, fun v hv => ?_, fun v hv => ?_⟩
  · rw [R.ids]
    exact G.mem_ids v hv
  · rcases (R.edge_iff hn).1 hw with ⟨hw, _⟩ | ⟨_, rfl⟩
    · exact G.closed v hv w hw
    · exact hnew
  · rw [R.mem_prev, R.edge_iff hn, G.mem_prev w hw, and_or_left, and_assoc]
    refine or_congr_right (iff_and_self.2 ?_)
    rintro ⟨rfl, _⟩
    exact ha
  · by_cases hva : v = a
    · rw [hva]
      exact (R.nodup_succ_iff hn).2 hfree
    · rw [R.succ v hva]
      exact G.nodup_succ v hv
  · rw [R.prev]
    by_cases hvnew : v = new
    · -- `a` is put behind the others, and is not among them
      have hlast : a ∉ if v = old then (p.prev v).filter (· != a) else p.prev v := by
        by_cases hvold : v = old
        · simp [hvold]
        · rw [if_neg hvold]
          exact fun hp => hfree (hvnew ▸ hvold) (hvnew ▸ ((G.mem_prev v hv a).1 hp).2)
      rw [if_pos hvnew, ← List.concat_eq_append]
      exact (hkept v hv).concat hlast
    · rw [if_neg hvnew, List.append_nil]
      exact hkept v hv

end Mutual

/-! ## Runs -/

/-- `q` is `p` after any number of calls on the blocks `vs`. Where an edge is led to another block, there
is no edge to that block yet. -/
inductive Relinked (vs : List Vertex) (p : Program) : Program → Prop where
  | start : Relinked vs p p
  | link {q : Program} {a b : Vertex} :
    Relinked vs p q → a ∈ vs → b ∈ vs → Relinked vs p (q.link a b)
  | redirect {q : Program} {a old new : Vertex} :
    Relinked vs p q → a ∈ vs → old ∈ vs → new ∈ vs → (q.Edge a old → new ≠ old → ¬ q.Edge a new) →
      Relinked vs p (q.redirect a old new)

theorem Relinked.mutual (G : p.Mutual vs) (h : Relinked vs p q) : q.Mutual vs := by
  induction h with
  | start => exact G
  | @link q a b _ ha hb ih =>
    by_cases he : q.Edge a b
    · exact (link_of_edge he).symm ▸ ih
    · exact ih.linked ha hb he (ih.linked_link ha hb he)
  | @redirect q a old new _ ha hold hnew hfree ih =>
    by_cases he : q.Edge a old
    · have R := redirected_redirect (ih.mem_ids old hold) (ih.mem_ids new hnew) he
      exact (ih.redirected_iff ha hnew R).2 (hfree he)
    · exact (redirect_of_not_edge he).symm ▸ ih

/-- Whatever calls have been made, the blocks still are a graph. The next call adds the edge it is to add, or
moves the one it is to move without a change of its place, and does nothing if there is nothing to do;
all other edges stay. Only a call that leads an edge to where there is one already breaks the graph. -/
theorem edges_known_at_both_ends (G : p.Mutual vs) (h : Relinked vs p q) :
    q.Mutual vs ∧
    (∀ a ∈ vs, ∀ b ∈ vs,
      (q.Edge a b → q.link a b = q) ∧ (¬ q.Edge a b → q.Linked a b (q.link a b)) ∧
      ∀ v w, (q.link a b).Edge v w ↔ q.Edge v w ∨ v = a ∧ w = b) ∧
    ∀ a ∈ vs, ∀ old ∈ vs, ∀ new ∈ vs,
      (¬ q.Edge a old → q.redirect a old new = q) ∧
      (q.Edge a old → q.Redirected a old new (q.redirect a old new) ∧
        (∀ v w, (q.redirect a old new).Edge v w ↔
          q.Edge v w ∧ ¬ (v = a ∧ w = old) ∨ v = a ∧ w = new) ∧
        ((q.redirect a old new).Mutual vs ↔ (new ≠ old → ¬ q.Edge a new))) := by
  have H := h.mutual G
  refine ⟨H, fun a ha b hb => ⟨link_of_edge, H.linked_link ha hb, fun v w => ?_⟩,
    fun a ha old hold new hnew => ⟨redirect_of_not_edge, fun he => ?_⟩⟩
  · by_cases he : q.Edge a b
    · rw [link_of_edge he, iff_self_or]
      rintro ⟨rfl, rfl⟩
      exact he
    · exact (H.linked_link ha hb he).edge_iff
  · have R := redirected_redirect (H.mem_ids old hold) (H.mem_ids new hnew) he
    exact ⟨R, fun v w => R.edge_iff (H.nodup_succ a ha), H.redirected_iff ha hnew R⟩

/-- The edge from `B3` to `B2` is led to `B3` itself, then on to `B5`; the one to `B4` is led to where it is,
and `B5` gets an edge to itself. -/
theorem edges_known_at_both_ends_nested :
    ∃ q, Source.nested.Mutual (Source.nested.flow 0).layout ∧
      Relinked (Source.nested.flow 0).layout Source.nested q ∧
      q.Mutual (Source.nested.flow 0).layout ∧ q.succ ⟨0, 3⟩ = [⟨0, 5⟩, ⟨0, 4⟩] ∧
      q.prev ⟨0, 5⟩ = [⟨0, 1⟩, ⟨0, 3⟩, ⟨0, 5⟩] ∧ q.redirect ⟨0, 3⟩ ⟨0, 3⟩ ⟨0, 1⟩ = q ∧
      ¬ (q.redirect ⟨0, 3⟩ ⟨0, 4⟩ ⟨0, 5⟩).Mutual (Source.nested.flow 0).layout := by
  have G := ((Source.wellformed_of_parse Source.parse_nested).proper.regular 0).mutual
  have h : Relinked (Source.nested.flow 0).layout Source.nested
      ((((Source.nested.redirect ⟨0, 3⟩ ⟨0, 2⟩ ⟨0, 3⟩).redirect ⟨0, 3⟩ ⟨0, 3⟩ ⟨0, 5⟩).redirect
        ⟨0, 3⟩ ⟨0, 4⟩ ⟨0, 4⟩).link ⟨0, 5⟩ ⟨0, 5⟩) := by
    refine .link (.redirect (.redirect (.redirect .start ?_ ?_ ?_ ?_) ?_ ?_ ?_ ?_) ?_ ?_ ?_ ?_) ?_ ?_
    all_goals decide +kernel
  obtain ⟨H, _, hredirect⟩ := edges_known_at_both_ends G h
  obtain ⟨hnone, _⟩ := hredirect ⟨0, 3⟩ (by decide) ⟨0, 3⟩ (by decide) ⟨0, 1⟩ (by decide)
  obtain ⟨_, hmoved⟩ := hredirect ⟨0, 3⟩ (by decide) ⟨0, 4⟩ (by decide) ⟨0, 5⟩ (by decide)
  obtain ⟨_, _, hmutual⟩ := hmoved (by decide +kernel)
  refine ⟨_, G, h, H, by decide +kernel, by decide +kernel, hnone (by decide +kernel), ?_⟩
  rw [hmutual]
  decide +kernel

end LoopClock.Program
