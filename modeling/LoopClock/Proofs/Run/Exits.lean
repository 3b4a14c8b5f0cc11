import LoopClock.Proofs.Run.Steps

/-! Giving a loop exits of its own, in the course of a walk over the loops of a function. A block that was
added for an earlier loop is entered from that loop only, so it is never split again, and its own edge
is never moved. -/
namespace LoopClock
open Graph Program

/-- The state of a walk over the loops of function `i` that started from `pₛ` and has come by the
headers `hs`. Headers and old members of loops are what they were at the start. Each new block is
entered from the loop only that it was added for. -/
structure Walked (c : Config) (p₀ pₛ : Program) (i : Nat) (p : Program) (ts : List Timing)
    (hs : List Vertex) : Prop where
  steps : Steps c p₀ p ts
  func : i < p.funcs.length
  header : ∀ h, IsHeader p.Edge (root i) h ↔ IsHeader pₛ.Edge (root i) h
  inLoop : ∀ h b, IsHeader pₛ.Edge (root i) h → b.id ≤ p₀.total i →
    (InLoop p.Edge (root i) h b ↔ InLoop pₛ.Edge (root i) h b)
  visited : ∀ t ∈ ts, t.func = i → t.header ∈ hs
  claimed : ∀ v : Vertex, v.func = i → v.id ∈ p.ids i → p₀.total i < v.id →
    ∃ h ∈ hs, IsHeader p.Edge (root i) h ∧ Dedicated p.Edge (root i) h v
  placed : ∀ t ∈ ts, t.func ≤ i
  others : ∀ j, j ≠ i → p.total j = pₛ.total j

/-- What a walk starts from: no block of the function is new yet. -/
structure Unwalked (p₀ pₛ : Program) (i : Nat) : Prop where
  origin : p₀.Proper
  proper : pₛ.Proper
  func : i < pₛ.funcs.length
  total : pₛ.total i = p₀.total i

namespace Unwalked

variable {p₀ pₛ : Program} {i : Nat} {h : Vertex} (U : Unwalked p₀ pₛ i)
include U

theorem old_header (hh : IsHeader pₛ.Edge (root i) h) : h.func = i ∧ h.id ≤ p₀.total i := by
  have hf : h.func = i := U.proper.reaches_func hh.reaches
  obtain ⟨p, he, _⟩ := hh
  have hm := U.proper.mem_ids p h he
  rw [hf] at hm
  exact ⟨hf, U.total ▸ (U.proper.bound i h.id hm).2⟩

end Unwalked

/-- The loop `l` is being given exits of its own, with `xs` still to come. -/
structure Opened (c : Config) (p₀ pₛ : Program) (i : Nat) (l : Loop) (ts : List Timing)
    (hs : List Vertex) (xs : List Vertex) (p : Program) : Prop where
  walked : Walked c p₀ pₛ i p ts (hs ++ [l.header])
  loop : p.HasLoop i l
  todo : ∀ x ∈ xs, IsExit p.Edge (root i) l.header x
  nodup : xs.Nodup
  own : ∀ x, IsExit p.Edge (root i) l.header x → x ∈ xs ∨ Dedicated p.Edge (root i) l.header x

namespace Opened

variable {c : Config} {p₀ pₛ p q : Program} {i : Nat} {l : Loop} {ts : List Timing}
  {hs xs : List Vertex} {x v : Vertex}

section
variable (U : Unwalked p₀ pₛ i) (hts : ∀ t ∈ ts, t.func = i → t.header ∈ hs)
  (hout : ∀ h ∈ hs, ¬ InLoop pₛ.Edge (root i) h l.header)
  (O : Opened c p₀ pₛ i l ts hs (x :: xs) p)
include U O

theorem proper : p.Proper := O.walked.steps.proper U.origin

theorem header_old : IsHeader pₛ.Edge (root i) l.header ∧ l.header.id ≤ p₀.total i := by
  have hh := (O.walked.header l.header).1 O.loop.header
  exact ⟨hh, (U.old_header hh).2⟩

include hout in
/-- An earlier loop does not lie around this one. -/
theorem not_inLoop {h : Vertex} (hh : h ∈ hs) (hk : IsHeader p.Edge (root i) h) :
    ¬ InLoop p.Edge (root i) h l.header := by
  rw [O.walked.inLoop h l.header ((O.walked.header h).1 hk) (O.header_old U).2]
  exact hout h hh

include hout in
/-- A shared exit is no new block: the new blocks among the exits belong to loops inside. -/
theorem exit_old (hshared : ¬ Dedicated p.Edge (root i) l.header x) : x.id ≤ p₀.total i := by
  have hp := O.proper U
  have hx := O.todo x List.mem_cons_self
  have hh := O.loop.header
  by_contra hnew
  obtain ⟨u, hu, he⟩ := hx.2
  have hf := HasLoop.exit_func hp O.loop hx
  have hxi : x.id ∈ p.ids i := hf ▸ hp.mem_ids u x he
  obtain ⟨h, hmem, hk, hd⟩ := O.walked.claimed x hf hxi (by omega)
  rcases List.mem_append.1 hmem with hmem | hmem
  · rcases (hd.2 u he).laminar hk hh hu with hin | hin
    · exact O.not_inLoop U hout hmem hk hin
    · exact hshared ⟨hd.1, fun w hw => hin.trans hh hk (hd.2 w hw)⟩
  · obtain rfl := List.mem_singleton.1 hmem
    exact hshared hd

omit U in
/-- A new block in the loop leads on to a member, never to an exit. -/
theorem leaving_old (h₀ : p₀.Proper) {a : Vertex} (ha : InLoop p.Edge (root i) l.header a)
    (he : p.Edge a x) : a.id ≤ p₀.total i := by
  have hp := O.walked.steps.proper h₀
  have hx := O.todo x List.mem_cons_self
  by_contra hnew
  have hf : a.func = i := (hp.func_eq a x he).symm.trans (HasLoop.exit_func hp O.loop hx)
  have hai : a.id ∈ p.ids a.func := mem_ids_of_mem_succ he
  obtain ⟨e, hs, _⟩ := O.walked.steps.succ_of_new h₀ hai (by rw [hf]; omega)
  have succ_eq : ∀ b, p.Edge a b → b = e := fun b hb => by
    have hb : b ∈ p.succ a := hb
    rw [hs] at hb
    exact List.mem_singleton.1 hb
  obtain ⟨b, hab, hb⟩ := ha.exists_succ O.loop.header
  rw [succ_eq b hab, ← succ_eq x he] at hb
  exact hx.1 hb

include hts hout in
theorem site (hshared : ¬ Dedicated p.Edge (root i) l.header x) : SharedExit p₀ p ts i l x where
  func := O.walked.func
  loop := O.loop
  exit := O.todo x List.mem_cons_self
  shared := hshared
  outside t ht hf := by
    have hk := (O.walked.steps.settled U.origin t ht).header
    rw [hf] at hk
    exact O.not_inLoop U hout (hts t ht hf) hk
  old_exit := O.exit_old U hout hshared
  old_preds a ha := by
    have hp := O.proper U
    have hx := O.todo x List.mem_cons_self
    rw [leaving, List.mem_filter, hp.mem_prev] at ha
    have hf : a.func = i := (hp.func_eq a x ha.1).symm.trans (HasLoop.exit_func hp O.loop hx)
    exact O.leaving_old U.origin ((HasLoop.holds_iff hp O.loop hf).1 ha.2) ha.1

section
variable (X : SharedExit p₀ p ts i l x)
  (S : Split p x (p.nextVertex i) (p.leaving l x) q)
include X S

theorem walked_split : Walked c p₀ pₛ i q ts (hs ++ [l.header]) := by
  have hp := O.proper U
  have R := X.exitReroute hp S
  have hr := X.root_ne hp
  have hk := O.loop.header
  have hx := X.exit
  have hid := (X.cut hp).id_eq
  have hle := O.walked.steps.total_le U.origin i
  have hnf : (p.nextVertex i).func = i := rfl
  rw [hnf] at hid
  have header : ∀ h, IsHeader q.Edge (root i) h ↔ IsHeader p.Edge (root i) h := by
    intro h
    by_cases hn : h = p.nextVertex i
    · rw [hn]
      refine iff_of_false (ExitReroute.not_isHeader_new R hr hk hx) ?_
      exact fun hh => R.header_ne hh rfl
    · exact ExitReroute.isHeader_iff R hr hk hx hn
  refine ⟨.split O.walked.steps X S, S.length_eq ▸ O.walked.func, fun h => ?_, fun h b hh hb => ?_,
    O.walked.visited, fun v hf hv hnew => ?_, O.walked.placed, fun j hj => ?_⟩
  · exact (header h).trans (O.walked.header h)
  · have hb' : b ≠ p.nextVertex i := fun hbn => by
      rw [hbn] at hb
      omega
    rw [ExitReroute.inLoop_iff R hr hk hx ((O.walked.header h).2 hh) hb']
    exact O.walked.inLoop h b hh hb
  · by_cases hvn : v = p.nextVertex i
    · refine ⟨l.header, List.mem_append_right _ (List.mem_singleton_self _), (header _).2 hk, ?_⟩
      rw [hvn]
      exact ExitReroute.dedicated_new R hr hk hx
    · have hvp : v.id ∈ p.ids i := by
        rcases S.mem_ids_iff.1 hv with hv | ⟨_, hid⟩
        · exact hv
        · exact absurd (Vertex.ext hf hid) hvn
      obtain ⟨h, hmem, hh, hd⟩ := O.walked.claimed v hf hvp hnew
      have hvx : v ≠ x := fun hvx => by
        have := X.old_exit
        rw [hvx] at hnew
        omega
      exact ⟨h, hmem, (header h).2 hh, ExitReroute.dedicated_of_ne R hr hk hx hh hvx hvn hd⟩
  · rw [(X.cut hp).total_eq S, if_neg (by rw [hnf]; exact hj)]
    exact O.walked.others j hj

theorem opened_split : Opened c p₀ pₛ i l ts hs xs q := by
  have hp := O.proper U
  have R := X.exitReroute hp S
  have hr := X.root_ne hp
  have hk := O.loop.header
  have hx := X.exit
  obtain ⟨hxs, hnodup⟩ := List.nodup_cons.1 O.nodup
  have hkn := R.header_ne hk
  refine ⟨O.walked_split U X S, ⟨?_, fun v => ?_⟩, fun y hy => ?_, hnodup, fun y hy => ?_⟩
  · exact (ExitReroute.isHeader_iff R hr hk hx hkn).2 hk
  · rw [O.loop.mem v]
    by_cases hvn : v = p.nextVertex i
    · rw [hvn]
      exact iff_of_false (fun h => R.inLoop_ne hk h rfl) (ExitReroute.not_inLoop_new R hr hk hx)
    · exact (ExitReroute.inLoop_iff R hr hk hx hk hvn).symm
  · have hyx : y ≠ x := fun h => hxs (h ▸ hy)
    exact (ExitReroute.isExit_self_iff R hr hk hx).2
      (.inr ⟨hyx, O.todo y (List.mem_cons_of_mem x hy)⟩)
  · rcases (ExitReroute.isExit_self_iff R hr hk hx).1 hy with rfl | ⟨hyx, hy⟩
    · exact .inr (ExitReroute.dedicated_new R hr hk hx)
    · rcases O.own y hy with hmem | hd
      · exact .inl ((List.mem_cons.1 hmem).resolve_left hyx)
      · have hyn : y ≠ p.nextVertex i := fun hyn => by
          obtain ⟨u, _, he⟩ := hy.2
          exact R.no_pred u (hyn ▸ he)
        exact .inr (ExitReroute.dedicated_of_ne R hr hk hx hk hyx hyn hd)

end

omit U in
theorem opened_skip (hd : Dedicated p.Edge (root i) l.header x) :
    Opened c p₀ pₛ i l ts hs xs p := by
  refine ⟨O.walked, O.loop, fun y hy => O.todo y (List.mem_cons_of_mem x hy),
    (List.nodup_cons.1 O.nodup).2, fun y hy => ?_⟩
  rcases O.own y hy with hmem | hd'
  · rcases List.mem_cons.1 hmem with rfl | hmem
    · exact .inr hd
    · exact .inl hmem
  · exact .inr hd'

end

/-- An exit passes for dedicated exactly when it is entered from the loop only. -/
theorem passes_iff (hp : p.Proper) (hl : p.HasLoop i l) (hi : i < p.funcs.length)
    (hx : IsExit p.Edge (root i) l.header x) :
    (p.prev x).filter (!l.holds ·.id) = [] ∧ p.first? i ≠ some x ↔
      Dedicated p.Edge (root i) l.header x := by
  have hf := HasLoop.exit_func hp hl hx
  rw [hp.first?_eq hi, List.filter_eq_nil_iff, Dedicated, and_comm]
  refine and_congr ⟨fun h he => h (he ▸ rfl), fun h he => h (Option.some.inj he).symm⟩ ?_
  refine forall_congr' fun u => ?_
  rw [hp.mem_prev]
  refine imp_congr_right fun he => ?_
  rw [← HasLoop.holds_iff hp hl ((hp.func_eq u x he).symm.trans hf)]
  simp

theorem opened_dedicateExit (U : Unwalked p₀ pₛ i) (hts : ∀ t ∈ ts, t.func = i → t.header ∈ hs)
    (hout : ∀ h ∈ hs, ¬ InLoop pₛ.Edge (root i) h l.header)
    (O : Opened c p₀ pₛ i l ts hs (x :: xs) p) (b : Bool) :
    Opened c p₀ pₛ i l ts hs xs (Program.dedicateExit i l (p, b) x).val.1 := by
  have hp := O.proper U
  have hpass := passes_iff hp O.loop O.walked.func (O.todo x List.mem_cons_self)
  simp only [Program.dedicateExit, List.partition_eq_filter_filter]
  split
  · next h => exact O.opened_skip (hpass.1 h)
  · next h =>
    have X := O.site U hts hout fun hd => h (hpass.2 hd)
    have S := (X.cut hp).split
    rw [X.exit_func hp] at S
    exact O.opened_split U X S

theorem opened_dedicateExits (U : Unwalked p₀ pₛ i) (hts : ∀ t ∈ ts, t.func = i → t.header ∈ hs)
    (hout : ∀ h ∈ hs, ¬ InLoop pₛ.Edge (root i) h l.header) (b : Bool)
    (O : Opened c p₀ pₛ i l ts hs xs p) :
    Opened c p₀ pₛ i l ts hs [] (xs.foldlM (Program.dedicateExit i l) (p, b)).val.1 := by
  induction xs generalizing p b with
  | nil => exact O
  | cons x xs ih =>
    rw [List.foldlM_cons, Traced.val_bind]
    exact ih _ (O.opened_dedicateExit U hts hout b)

end Opened

/-- After the exits of a loop have been dealt with, the loop has exits of its own. -/
theorem walked_dedicateExits {c : Config} {p₀ pₛ p : Program} {i : Nat} {l : Loop}
    {ts : List Timing} {hs : List Vertex} (U : Unwalked p₀ pₛ i)
    (W : Walked c p₀ pₛ i p ts hs) (hl : p.HasLoop i l)
    (hout : ∀ h ∈ hs, ¬ InLoop pₛ.Edge (root i) h l.header) :
    Walked c p₀ pₛ i (p.dedicateExits i l).val.1 ts (hs ++ [l.header]) ∧
      (p.dedicateExits i l).val.1.HasLoop i l ∧
      OwnExits (p.dedicateExits i l).val.1 i l.header := by
  have hp := W.steps.proper U.origin
  have hmem : ∀ x, x ∈ p.exitBlocks l ↔ IsExit p.Edge (root i) l.header x :=
    fun x => HasLoop.mem_exitBlocks hp hl
  have O : Opened c p₀ pₛ i l ts hs (p.exitBlocks l) p := by
    refine ⟨⟨W.steps, W.func, W.header, W.inLoop, fun t ht hf => ?_, fun v hf hv hnew => ?_,
      W.placed, W.others⟩, hl, fun x => (hmem x).1, HasLoop.nodup_exitBlocks hp hl,
      fun x hx => .inl ((hmem x).2 hx)⟩
    · exact List.mem_append_left _ (W.visited t ht hf)
    · obtain ⟨h, hh, hd⟩ := W.claimed v hf hv hnew
      exact ⟨h, List.mem_append_left _ hh, hd⟩
  have O := O.opened_dedicateExits U W.visited hout false
  refine ⟨O.walked, O.loop, fun x hx => ?_⟩
  exact (O.own x hx).resolve_left (by simp)

end LoopClock
