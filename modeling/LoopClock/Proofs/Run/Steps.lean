import LoopClock.Proofs.Graph.Agreement
import LoopClock.Proofs.Graph.LoopExit
import LoopClock.Proofs.Program.Names

/-! The changes that a run makes before it reports, each with what is known when it is made. What holds
of all runs is proved by induction over these changes. -/
namespace LoopClock
open Graph Program

/-- A timer that has been placed: the function, the header and the slot of its loop, and the number of
temporaries before. -/
structure Timing where
  func : Nat
  header : Vertex
  slot : Nat
  temps : Nat
  deriving DecidableEq

def Timing.stash (t : Timing) : Temp := Temp.fresh t.temps .i64Ptr

/-- The edges by which a loop is left for `e`. -/
def Program.leaving (p : Program) (l : Loop) (e : Vertex) : List Vertex :=
  (p.prev e).filter (l.holds ·.id)

/-- Every exit of the loop is entered from the loop only. -/
def OwnExits (p : Program) (i : Nat) (h : Vertex) : Prop :=
  ∀ x, IsExit p.Edge (root i) h x → Dedicated p.Edge (root i) h x

/-- A shared exit `e` of the loop `l` is up for splitting. No loop timed before lies around `l`. The
exit and the blocks that lead to it are blocks of `p₀`. -/
structure SharedExit (p₀ p : Program) (ts : List Timing) (i : Nat) (l : Loop) (e : Vertex) :
    Prop where
  func : i < p.funcs.length
  loop : p.HasLoop i l
  exit : IsExit p.Edge (root i) l.header e
  shared : ¬ Dedicated p.Edge (root i) l.header e
  outside : ∀ t ∈ ts, t.func = i → ¬ InLoop p.Edge (root i) t.header l.header
  old_exit : e.id ≤ p₀.total i
  old_preds : ∀ a ∈ p.leaving l e, a.id ≤ p₀.total i

/-- `p` comes from `p₀` by changes of a run under the configuration `c`, with the timers `ts` placed
on the way. -/
inductive Steps (c : Config) (p₀ : Program) : Program → List Timing → Prop
  | start : Steps c p₀ p₀ []
  | declare {p q : Program} {ts : List Timing} (steps : Steps c p₀ p ts) (funcs : q.funcs = p.funcs)
      (temps : q.temps = p.temps) : Steps c p₀ q ts
  | split {p q : Program} {ts : List Timing} {i : Nat} {l : Loop} {e : Vertex}
      (steps : Steps c p₀ p ts) (site : SharedExit p₀ p ts i l e)
      (split : Split p e (p.nextVertex i) (p.leaving l e) q) : Steps c p₀ q ts
  | place {p : Program} {ts : List Timing} {i : Nat} {l : Loop} {len slot : Nat}
      (steps : Steps c p₀ p ts) (func : i < p.funcs.length) (loop : p.HasLoop i l)
      (own : OwnExits p i l.header) :
      Steps c p₀ (Timer.place p i (.ofConfig c len) slot l.header (p.exitBlocks l))
        (ts ++ [⟨i, l.header, slot, p.temps⟩])

variable {c : Config} {p₀ p q : Program} {ts : List Timing} {i : Nat} {l : Loop} {e v x : Vertex}

namespace SharedExit

variable {p₀ p q : Program} {ts : List Timing} {i : Nat} {l : Loop} {e : Vertex}
  (hp : p.Proper) (X : SharedExit p₀ p ts i l e)
include hp X

theorem exit_func : e.func = i := HasLoop.exit_func hp X.loop X.exit

theorem mem_leaving {a : Vertex} :
    a ∈ p.leaving l e ↔ InLoop p.Edge (root i) l.header a ∧ p.Edge a e := by
  rw [leaving, List.mem_filter, hp.mem_prev, and_comm]
  refine and_congr_left fun ha => HasLoop.holds_iff hp X.loop ?_
  exact (hp.func_eq a e ha).symm.trans (X.exit_func hp)

theorem cut : Cut p e (p.nextVertex i) (p.leaving l e) where
  proper := hp
  regular := hp.regular _
  mem_ids := by
    obtain ⟨u, _, he⟩ := X.exit.2
    exact hp.mem_ids u e he
  next := by rw [X.exit_func hp]
  edge a ha := ((X.mem_leaving hp).1 ha).2
  not_self h := X.exit.1 ((X.mem_leaving hp).1 h).1
  nodup := (hp.nodup_prev e).filter _

theorem exitReroute (S : Split p e (p.nextVertex i) (p.leaving l e) q) :
    ExitReroute p.Edge q.Edge (root i) l.header e (p.nextVertex i) := by
  have R := (X.cut hp).reroute S
  have hm : (· ∈ p.leaving l e) = fun u => InLoop p.Edge (root i) l.header u ∧ p.Edge u e :=
    funext fun u => propext (X.mem_leaving hp)
  rw [ExitReroute, ← hm]
  exact R

theorem root_ne : root i ≠ p.nextVertex i := by
  intro h
  have hid : (0 : Int) = p.total i + 1 := congrArg Vertex.id h
  have hn := (X.cut hp).total_nonneg
  have hf : (p.nextVertex i).func = i := rfl
  rw [hf] at hn
  omega

/-- Splitting an exit in one function leaves the graphs of the others alone. -/
theorem agreeOn {j : Nat} (S : Split p e (p.nextVertex i) (p.leaving l e) q) (hj : j ≠ i) :
    AgreeOn (·.func = j) p.Edge q.Edge where
  left u v h := by rw [hp.func_eq u v h]
  right u v h := by rw [((X.cut hp).proper_split S).func_eq u v h]
  edge u v hu := by
    have hun : u ≠ p.nextVertex i := fun h => hj (hu.symm.trans (congrArg Vertex.func h))
    have hup : u ∉ p.leaving l e := fun h => by
      have hf := hp.func_eq u e ((X.mem_leaving hp).1 h).2
      exact hj (hu.symm.trans (hf.symm.trans (X.exit_func hp)))
    rw [(X.cut hp).edge_iff S]
    simp [hun, hup]

end SharedExit

/-! ## The bodies of a timed loop -/

namespace Timer

section
variable (hp : p.Proper) (hi : i < p.funcs.length) (hl : p.HasLoop i l) {len slot : Nat}
include hp hl hi

theorem body_exit (own : OwnExits p i l.header) (hx : x ∈ p.exitBlocks l) :
    (place p i (.ofConfig c len) slot l.header (p.exitBlocks l)).body x =
      topped (record (.ofConfig c 0) (stashOf p) slot
        (p.temps + 2 + 4 * (p.exitBlocks l).idxOf x)) (p.body x) := by
  have hne : x ≠ l.header := fun h => HasLoop.header_not_exit hp hl (h ▸ hx)
  have hroot : x ≠ root i := (own x ((HasLoop.mem_exitBlocks hp hl).1 hx)).1
  rw [body_place hp hi (HasLoop.exit_mem_ids hp hl x hx) (HasLoop.exit_mem_ids hp hl)
    (HasLoop.nodup_exitBlocks hp hl), if_pos hx, if_neg hne, if_neg hroot, topped_nil]
  rfl

/-- The root and the header are no exits. -/
theorem body_inside (hx : x ∉ p.exitBlocks l) :
    (place p i (.ofConfig c len) slot l.header (p.exitBlocks l)).body x =
      topped (if x = l.header
        then putBy (.ofConfig c 0) (stashOf p) (clockOf p) else [])
        ((if x = root i then [allocate (stashOf p)] else []) ++ p.body x) := by
  by_cases hid : x.id ∈ p.ids x.func
  · rw [body_place hp hi hid (HasLoop.exit_mem_ids hp hl) (HasLoop.nodup_exitBlocks hp hl),
      if_neg hx, topped_nil]
    rfl
  · have hr : Rebodied p (place p i (.ofConfig c len) slot l.header (p.exitBlocks l)) :=
      rebodied_place hp hi
    have hne : x ≠ l.header := fun h => hid (h ▸ HasLoop.header_mem_ids hp hl)
    have hroot : x ≠ root i := fun h => hid (h ▸ List.mem_of_head? (hp.entry i hi))
    rw [if_neg hne, if_neg hroot, topped_nil, body_eq_nil (by rw [hr.ids]; exact hid),
      body_eq_nil hid]
    rfl

end

end Timer

/-! ## What all changes keep -/

namespace Steps

section
variable (h : Steps c p₀ p ts) (h₀ : p₀.Proper)
include h h₀

theorem proper : p.Proper := by
  induction h with
  | start => exact h₀
  | declare _ funcs _ ih => exact (Rebodied.of_funcs funcs).proper ih
  | split _ site split ih => exact (site.cut ih).proper_split split
  | place _ func _ _ ih => exact (Timer.rebodied_place ih func).proper ih

theorem grows : Grows p₀ p := by
  induction h with
  | start => exact Grows.refl
  | declare _ funcs temps ih =>
    refine ih.trans (grows_of_rebodied (k := 0) (Rebodied.of_funcs funcs) temps
      fun v x hx => .inl ?_)
    rwa [(Revised.of_funcs funcs).body fun _ _ => rfl] at hx
  | split steps site split ih => exact ih.trans ((site.cut (steps.proper h₀)).grows split)
  | place steps func loop _ ih =>
    have hp := steps.proper h₀
    refine ih.trans (Timer.grows_place hp func (fun x hx => ?_)
      (HasLoop.nodup_exitBlocks hp loop) rfl)
    obtain ⟨u, _, he⟩ := ((HasLoop.mem_exitBlocks hp loop).1 hx).2
    exact hp.mem_ids u x he

/-- A property of the flow graph holds after all changes if splitting keeps it. -/
theorem flow_induction {motive : Program → Prop} (start : motive p₀)
    (rebody : ∀ p q, p.Proper → Rebodied p q → motive p → motive q)
    (split : ∀ p q ts i l e, p.Proper → SharedExit p₀ p ts i l e →
      Split p e (p.nextVertex i) (p.leaving l e) q → motive p → motive q) : motive p := by
  induction h with
  | start => exact start
  | declare steps funcs _ ih => exact rebody _ _ (steps.proper h₀) (Rebodied.of_funcs funcs) ih
  | split steps site spl ih => exact split _ _ _ _ _ _ (steps.proper h₀) site spl ih
  | place steps func _ _ ih =>
    have hp := steps.proper h₀
    exact rebody _ _ hp (Timer.rebodied_place hp func) ih

theorem length_eq : p.funcs.length = p₀.funcs.length := by
  refine h.flow_induction (motive := fun p => p.funcs.length = p₀.funcs.length) h₀ rfl ?_ ?_
  · intro p q _ hr ih
    exact hr.length.trans ih
  · intro p q ts i l e _ _ S ih
    exact S.length_eq.trans ih

theorem signatures : p.signatures = p₀.signatures := by
  refine h.flow_induction (motive := fun p => p.signatures = p₀.signatures) h₀ rfl ?_ ?_
  · intro p q _ hr ih
    exact hr.signatures.trans ih
  · intro p q ts i l e _ _ S ih
    exact S.signatures.trans ih

theorem total_le (j : Nat) : p₀.total j ≤ p.total j := by
  refine h.flow_induction (motive := fun p => p₀.total j ≤ p.total j) h₀ (Int.le_refl _) ?_ ?_
  · intro p q _ hr ih
    exact hr.total j ▸ ih
  · intro p q ts i l e hp X S ih
    exact Int.le_trans ih ((X.cut hp).total_le S j)

/-- The old blocks keep their order in the layout. -/
theorem layout_eq (j : Nat) : (p.ids j).filter (· ≤ p₀.total j) = p₀.ids j := by
  have hstart : (p₀.ids j).filter (· ≤ p₀.total j) = p₀.ids j :=
    List.filter_eq_self.2 fun k hk => by simpa using (h₀.bound j k hk).2
  suffices hs : (p.ids j).filter (· ≤ p₀.total j) = p₀.ids j ∧ p₀.total j ≤ p.total j from hs.1
  refine h.flow_induction (motive := fun p => (p.ids j).filter (· ≤ p₀.total j) = p₀.ids j ∧
    p₀.total j ≤ p.total j) h₀ ⟨hstart, Int.le_refl _⟩ ?_ ?_
  · intro p q _ hr ih
    rw [hr.ids, hr.total]
    exact ih
  · intro p q ts i l e hp X S ih
    rw [(X.cut hp).total_eq S]
    by_cases hj : j = (p.nextVertex i).func
    · obtain ⟨pre, post, heq, heq', _⟩ := S.laid
      have hid := (X.cut hp).id_eq
      rw [← hj] at heq heq' hid
      have hnew : ¬ (p.nextVertex i).id ≤ p₀.total j := by omega
      rw [if_pos hj, heq', List.filter_append, List.filter_cons_of_neg (by simpa using hnew),
        ← List.filter_append, ← heq]
      exact ⟨ih.1, by omega⟩
    · rw [if_neg hj, S.ids j hj]
      exact ih

/-- A new block has one edge, which leads to an old block. -/
theorem succ_of_new (hv : v.id ∈ p.ids v.func) (hnew : p₀.total v.func < v.id) :
    ∃ e, p.succ v = [e] ∧ e.func = v.func ∧ e.id ≤ p₀.total v.func := by
  refine h.flow_induction (motive := fun p => ∀ v : Vertex, v.id ∈ p.ids v.func →
    p₀.total v.func < v.id → ∃ e, p.succ v = [e] ∧ e.func = v.func ∧ e.id ≤ p₀.total v.func)
    h₀ ?_ ?_ ?_ v hv hnew
  · intro v hv hnew
    have := (h₀.bound v.func v.id hv).2
    omega
  · intro p q _ hr ih v hv hnew
    rw [hr.succ]
    exact ih v (hr.ids v.func ▸ hv) hnew
  · intro p q ts i l e hp X S ih v hv hnew
    rw [(X.cut hp).succ_eq S]
    by_cases hvn : v = p.nextVertex i
    · subst hvn
      rw [if_pos rfl]
      exact ⟨e, rfl, X.exit_func hp, X.old_exit⟩
    · have hvp : v ∉ p.leaving l e := fun hvp => by
        have hf : v.func = i := ((hp.func_eq v e ((X.mem_leaving hp).1 hvp).2).symm).trans
          (X.exit_func hp)
        have := X.old_preds v hvp
        rw [hf] at hnew
        omega
      rw [if_neg hvn, if_neg hvp]
      refine ih v ?_ hnew
      rcases S.mem_ids_iff.1 hv with hv | ⟨hf, hid⟩
      · exact hv
      · exact absurd (Vertex.ext hf hid) hvn

end

/-! ## The timed loops -/

/-- What stays true of a timed loop. -/
structure Settled (p : Program) (t : Timing) : Prop where
  func : t.func < p.funcs.length
  header : IsHeader p.Edge (root t.func) t.header
  own : OwnExits p t.func t.header

theorem settled_congr {t : Timing} (hr : Rebodied p q) (h : Settled p t) : Settled q t := by
  refine ⟨hr.length ▸ h.func, ?_, ?_⟩
  · rw [hr.edge]
    exact h.header
  · rw [OwnExits, hr.edge]
    exact h.own

theorem settled_split {t : Timing} (hp : p.Proper) (X : SharedExit p₀ p ts i l e)
    (S : Split p e (p.nextVertex i) (p.leaving l e) q) (ht : t ∈ ts) (h : Settled p t) :
    Settled q t := by
  have hf : t.func < q.funcs.length := S.length_eq ▸ h.func
  by_cases hj : t.func = i
  · obtain ⟨j, t, slot, temps⟩ := t
    obtain rfl : j = i := hj
    have R := X.exitReroute hp S
    have hr := X.root_ne hp
    have hne := R.header_ne h.header
    have hout := X.outside _ ht rfl
    refine ⟨hf, (ExitReroute.isHeader_iff R hr X.loop.header X.exit hne).2 h.header, ?_⟩
    intro x hx
    exact ExitReroute.dedicated_of_isExit R hr X.loop.header X.exit h.header hout h.own X.shared hx
  · have A := X.agreeOn hp S hj
    refine ⟨hf, (A.isHeader_iff rfl).2 h.header, fun x hx => ?_⟩
    have hx' := (A.isExit_iff rfl h.header).1 hx
    obtain ⟨u, hu, he⟩ := hx'.2
    have hxf : x.func = t.func :=
      (hp.func_eq u x he).trans (hp.reaches_func (hu.reaches h.header))
    exact (A.dedicated_iff rfl hxf).2 (h.own x hx')

theorem settled (h : Steps c p₀ p ts) (h₀ : p₀.Proper) : ∀ t ∈ ts, Settled p t := by
  induction h with
  | start => exact fun t ht => nomatch ht
  | declare _ funcs _ ih => exact fun t ht => settled_congr (Rebodied.of_funcs funcs) (ih t ht)
  | split steps site split ih =>
    exact fun t ht => settled_split (steps.proper h₀) site split ht (ih t ht)
  | place steps func loop own ih =>
    intro t ht
    refine settled_congr (Timer.rebodied_place (steps.proper h₀) func) ?_
    rcases List.mem_append.1 ht with ht | ht
    · exact ih t ht
    · obtain rfl := List.mem_singleton.1 ht
      exact ⟨func, loop.header, own⟩

end Steps

end LoopClock
