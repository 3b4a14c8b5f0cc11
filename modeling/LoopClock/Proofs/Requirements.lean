import LoopClock.Pass.Schedule
import Mathlib.Data.List.Nodup
import Mathlib.Logic.Relation

/-! Asking for passes by name. Whatever was asked for before and however it ended, a pass is scheduled
exactly if all that it needs is registered and nothing of it needs itself, and then it stands behind all
that it needs. -/
namespace LoopClock
open Relation

namespace Registry

variable (r : Registry)

/-- The pass of the name `id` names `q` among its requirements. -/
def Requires (id q : String) : Prop := ∃ e, r.get? id = some e ∧ q ∈ e.pass.usage.required

/-- What has to be scheduled for `id`, which is `id` itself and what any of it requires. -/
def Needs (id q : String) : Prop := ReflTransGen r.Requires id q

/-- The pass comes back to itself along requirements. -/
def Circular (id : String) : Prop := TransGen r.Requires id id

/-- All that is needed is registered, and none of it is on a cycle. -/
def Resolvable (id : String) : Prop := ∀ q, r.Needs id q → q ∈ r.names ∧ ¬ r.Circular q

variable {r} {id q : String} {e : Entry}

theorem name_of_get? (h : r.get? id = some e) : e.pass.name = id := by
  simpa using List.find?_some h

theorem mem_names_iff : id ∈ r.names ↔ ∃ e, r.get? id = some e := by
  constructor
  · intro h
    obtain ⟨e, he, hname⟩ := List.mem_map.1 h
    rw [← Option.isSome_iff_exists, get?, List.find?_isSome]
    exact ⟨e, he, by simpa using hname⟩
  · rintro ⟨e, h⟩
    exact name_of_get? h ▸ Schedule.name_mem_of_get? h

end Registry

def Pass.All (M : ModulePass → Prop) (L : LoopPass → Prop) : Pass → Prop
  | .onModule p => M p
  | .onLoops p => L p

def Stage.All (M : ModulePass → Prop) (L : LoopPass → Prop) : Stage → Prop
  | .onModule p => M p
  | .onLoops ps => ∀ p ∈ ps, L p

namespace Schedule

variable {r : Registry} {s s' : Schedule} {id a q : String} {e : Entry} {path qs : List String}

theorem order_push (s : Schedule) (p : Pass) : (s.push p).order = s.order ++ [p.name] := by
  cases p with
  | onModule p => simp [push, order, Stage.names, Pass.name]
  | onLoops p =>
    simp only [push]
    split
    · next ps h =>
      obtain ⟨xs, hxs⟩ := List.getLast?_eq_some_iff.1 h
      simp [hxs, order, Stage.names, Pass.name]
    · simp [order, Stage.names, Pass.name]

/-- All passes are as `M` and `L` ask of module passes and of loop passes. -/
def All (M : ModulePass → Prop) (L : LoopPass → Prop) (s : Schedule) : Prop :=
  ∀ x ∈ s.stages, x.All M L

theorem All.push {M : ModulePass → Prop} {L : LoopPass → Prop} {p : Pass} (h : s.All M L)
    (hp : p.All M L) : (s.push p).All M L := by
  have append : ∀ {xs : List Stage} {x : Stage}, (∀ y ∈ xs, y.All M L) → x.All M L →
      All M L ⟨xs ++ [x]⟩ := fun hxs hx =>
    List.forall_mem_append.2 ⟨hxs, List.forall_mem_singleton.2 hx⟩
  cases p with
  | onModule p => exact append h hp
  | onLoops p =>
    rw [Schedule.push]
    split
    · next ps hlast =>
      have hps : ∀ a ∈ ps, L a := h _ (List.mem_of_getLast? hlast)
      exact append (fun y hy => h y (List.dropLast_subset _ hy))
        (List.forall_mem_append.2 ⟨hps, List.forall_mem_singleton.2 hp⟩)
    · exact append h (List.forall_mem_singleton.2 hp)

/-- No pass is scheduled twice, all are registered, and each has its requirements before it. -/
structure Closed (r : Registry) (s : Schedule) : Prop where
  nodup : s.order.Nodup
  registered : ∀ a ∈ s.order, a ∈ r.names
  before : ∀ pre a post, s.order = pre ++ a :: post → ∀ q, r.Requires a q → q ∈ pre

namespace Closed

theorem nil : Closed r {} where
  nodup := .nil
  registered _ h := nomatch h
  before pre a post h := by
    have h : ([] : List String) = pre ++ a :: post := h
    simp at h

theorem push (h : Closed r s) (hid : r.get? id = some e) (hnew : id ∉ s.order)
    (hready : ∀ q ∈ e.pass.usage.required, q ∈ s.order) : Closed r (s.push e.pass) := by
  have hname := Registry.name_of_get? hid
  have horder : (s.push e.pass).order = s.order ++ [id] := by rw [order_push, hname]
  constructor
  · rw [horder, List.nodup_append]
    refine ⟨h.nodup, List.nodup_singleton id, fun a ha b hb => ?_⟩
    obtain rfl := List.mem_singleton.1 hb
    exact fun hab => hnew (hab ▸ ha)
  · rw [horder]
    refine List.forall_mem_append.2 ⟨h.registered, List.forall_mem_singleton.2 ?_⟩
    exact Registry.mem_names_iff.2 ⟨e, hid⟩
  · intro pre a post heq q hq
    rw [horder] at heq
    -- the pass stands among the old ones or it is the new one
    rcases List.eq_nil_or_concat post with rfl | ⟨post, b, rfl⟩
    · obtain ⟨rfl, hlast⟩ := List.append_inj' heq rfl
      obtain rfl := List.singleton_inj.1 hlast
      obtain ⟨e', he', hq⟩ := hq
      obtain rfl := Option.some.inj (hid.symm.trans he')
      exact hready q hq
    · have heq : s.order ++ [id] = (pre ++ a :: post) ++ [b] := by simpa using heq
      exact h.before pre a post (List.append_inj' heq rfl).1 q hq

section
variable (h : Closed r s)
include h

theorem mem_of_requires (ha : a ∈ s.order) (hq : r.Requires a q) : q ∈ s.order := by
  obtain ⟨pre, post, heq⟩ := List.append_of_mem ha
  rw [heq]
  exact List.mem_append_left _ (h.before pre a post heq q hq)

theorem mem_of_needs (ha : a ∈ s.order) (hq : r.Needs a q) : q ∈ s.order := by
  induction hq with
  | refl => exact ha
  | tail _ hq ih => exact h.mem_of_requires ih hq

/-- A requirement stands ahead of what requires it, so no chain of them comes back. -/
theorem not_circular (ha : a ∈ s.order) : ¬ r.Circular a := by
  have hlt : ∀ {a q}, a ∈ s.order → r.Requires a q → s.order.idxOf q < s.order.idxOf a := by
    intro a q ha hq
    obtain ⟨pre, post, heq⟩ := List.append_of_mem ha
    have hpre := h.before pre a post heq q hq
    have hnot : a ∉ pre := fun hm => by
      have hn := h.nodup
      rw [heq, List.nodup_append] at hn
      exact hn.2.2 a hm a List.mem_cons_self rfl
    rw [heq, List.idxOf_append_of_mem hpre, List.idxOf_append_of_notMem hnot, List.idxOf_cons_self]
    exact Nat.lt_add_right 0 (List.idxOf_lt_length_of_mem hpre)
  have hchain : ∀ q, TransGen r.Requires a q → s.order.idxOf q < s.order.idxOf a := by
    intro q hq
    induction hq with
    | single hq => exact hlt ha hq
    | tail hb hq ih => exact Nat.lt_trans (hlt (h.mem_of_needs ha hb.to_reflTransGen) hq) ih
  exact fun hc => Nat.lt_irrefl _ (hchain a hc)

theorem resolvable (ha : a ∈ s.order) : r.Resolvable a := fun q hq =>
  have hm := h.mem_of_needs ha hq
  ⟨h.registered q hm, h.not_circular hm⟩

end

end Closed

/-! ## One request -/

/-- Why `id` cannot be scheduled: something that it needs is not registered or needs itself. -/
inductive Blocked (r : Registry) (id : String) : Error → Prop
  | unknown (x : String) (needed : r.Needs id x) (missing : x ∉ r.names) : Blocked r id (.unknownPass x)
  | cycle (x : String) (needed : r.Needs id x) (circular : r.Circular x) :
    Blocked r id (.dependencyCycle x)

namespace Blocked

variable {error : Error}

theorem not_resolvable (h : Blocked r id error) : ¬ r.Resolvable id := by
  intro hr
  cases h with
  | unknown x hx hm => exact hm (hr x hx).1
  | cycle x hx hc => exact (hr x hx).2 hc

theorem of_requires (hq : r.Requires id q) (h : Blocked r q error) : Blocked r id error := by
  cases h with
  | unknown x hx hm => exact .unknown x (.head hq hx) hm
  | cycle x hx hc => exact .cycle x (.head hq hx) hc

end Blocked

/-- Registered passes are put behind the others, one after the other. -/
inductive Pushed (r : Registry) (s : Schedule) : Schedule → Prop
  | refl : Pushed r s s
  | push {s' : Schedule} {id : String} {e : Entry} (before : Pushed r s s')
      (registered : r.get? id = some e) : Pushed r s (s'.push e.pass)

namespace Pushed

theorem trans {s'' : Schedule} (h : Pushed r s s') (k : Pushed r s' s'') : Pushed r s s'' := by
  induction k with
  | refl => exact h
  | push _ hid ih => exact .push ih hid

theorem grows (h : Pushed r s s') : s.order <+: s'.order := by
  induction h with
  | refl => exact List.prefix_refl _
  | push _ _ ih =>
    rw [order_push]
    exact ih.trans (List.prefix_append _ _)

/-- What holds of all registered passes holds of all that are put behind. -/
theorem all {M : ModulePass → Prop} {L : LoopPass → Prop} (h : Pushed r s s')
    (hr : ∀ e ∈ r, e.pass.All M L) (hs : s.All M L) : s'.All M L := by
  induction h with
  | refl => exact hs
  | push _ hid ih => exact ih.push (hr _ (List.mem_of_find?_eq_some hid))

end Pushed

/-- The schedule only grows at its end, and no waiting pass gets into it. -/
structure Extends (r : Registry) (path : List String) (s s' : Schedule) : Prop where
  closed : Closed r s'
  pushed : Pushed r s s'
  waiting : ∀ a ∈ path, a ∈ s'.order → a ∈ s.order

namespace Extends

theorem refl (h : Closed r s) : Extends r path s s := ⟨h, .refl, fun _ _ ha => ha⟩

theorem trans {s'' : Schedule} (h : Extends r path s s') (k : Extends r path s' s'') :
    Extends r path s s'' :=
  ⟨k.closed, h.pushed.trans k.pushed, fun a ha hm => h.waiting a ha (k.waiting a ha hm)⟩

theorem grows (h : Extends r path s s') : s.order <+: s'.order := h.pushed.grows

end Extends

/-- What is needed for `id` is scheduled, or there is a reason why it cannot be. -/
structure Resolved (r : Registry) (path : List String) (id : String) (s : Schedule)
    (x : Option Error × Schedule) : Prop where
  extended : Extends r path s x.2
  done : x.1 = none → id ∈ x.2.order
  failed : ∀ error, x.1 = some error → Blocked r id error

/-- What is needed for each of `qs` is scheduled, or there is a reason why it cannot be for one. -/
structure ResolvedAll (r : Registry) (path qs : List String) (s : Schedule)
    (x : Option Error × Schedule) : Prop where
  extended : Extends r path s x.2
  done : x.1 = none → ∀ q ∈ qs, q ∈ x.2.order
  failed : ∀ error, x.1 = some error → ∃ q ∈ qs, Blocked r q error

namespace ResolvedAll

variable {x : Option Error × Schedule}

theorem nil (h : Closed r s) : ResolvedAll r path [] s (none, s) where
  extended := .refl h
  done _ _ hq := nomatch hq
  failed _ h := nomatch h

theorem stop {error : Error} (h : Resolved r path q s (some error, s')) :
    ResolvedAll r path (q :: qs) s (some error, s') where
  extended := h.extended
  done h := nomatch h
  failed error' he := ⟨q, List.mem_cons_self, h.failed error' he⟩

theorem cons (hext : Extends r path s s') (hq : q ∈ s'.order) (h : ResolvedAll r path qs s' x) :
    ResolvedAll r path (q :: qs) s x where
  extended := hext.trans h.extended
  done hnone := List.forall_mem_cons.2 ⟨h.extended.grows.subset hq, h.done hnone⟩
  failed error he := by
    obtain ⟨b, hb, hblocked⟩ := h.failed error he
    exact ⟨b, List.mem_cons_of_mem q hb, hblocked⟩

end ResolvedAll

theorem resolvedAll (step : ∀ q ∈ qs, ∀ s, Closed r s → Resolved r path q s (resolve r path q s).val)
    (h : Closed r s) : ResolvedAll r path qs s (resolveAll r path a qs s).val := by
  induction qs generalizing s with
  | nil =>
    rw [resolveAll]
    exact .nil h
  | cons q qs ih =>
    have ih : ∀ s, Closed r s → ResolvedAll r path qs s (resolveAll r path a qs s).val :=
      fun s => ih fun q hq => step q (List.mem_cons_of_mem _ hq)
    rw [resolveAll]
    split
    · next hq => exact .cons (.refl h) hq (ih s h)
    · have hstep := step q List.mem_cons_self s h
      simp only [Traced.val_bind]
      generalize (resolve r path q s).val = x at hstep
      obtain ⟨failure, s'⟩ := x
      cases failure with
      | some error => exact .stop hstep
      | none => exact .cons hstep.extended (hstep.done rfl) (ih s' hstep.extended.closed)

namespace Resolved

/-- Nothing is scheduled if the request cannot be granted. -/
theorem refused {error : Error} (h : Closed r s) (hid : Blocked r id error) :
    Resolved r path id s (some error, s) where
  extended := .refl h
  done hs := nomatch hs
  failed error' he := by
    obtain rfl := Option.some.inj he
    exact hid

theorem present (h : Closed r s) (hs : id ∈ s.order) : Resolved r path id s (none, s) where
  extended := .refl h
  done _ := hs
  failed _ he := nomatch he

/-- What stops a requirement stops the pass, and what was scheduled by then stays. -/
theorem stop {error : Error} (hid : r.get? id = some e)
    (h : ResolvedAll r (path ++ [id]) e.pass.usage.required s (some error, s')) :
    Resolved r path id s (some error, s') where
  extended := ⟨h.extended.closed, h.extended.pushed, fun a ha =>
    h.extended.waiting a (List.mem_append_left _ ha)⟩
  done hs := nomatch hs
  failed error' he := by
    obtain rfl := Option.some.inj he
    obtain ⟨q, hq, hblocked⟩ := h.failed error rfl
    exact .of_requires ⟨e, hid, hq⟩ hblocked

/-- The requirements of a pass are scheduled, and it has not got in itself; so it can follow them. -/
theorem push (hid : r.get? id = some e) (hpath : id ∉ path) (hnew : id ∉ s.order)
    (h : ResolvedAll r (path ++ [id]) e.pass.usage.required s (none, s')) :
    Resolved r path id s (none, s'.push e.pass) where
  extended := by
    have hwaits := h.extended.waiting id (List.mem_append_right _ (List.mem_singleton_self id))
    refine ⟨h.extended.closed.push hid (fun hm => hnew (hwaits hm)) (h.done rfl),
      .push h.extended.pushed hid, fun a ha hm => ?_⟩
    rw [order_push, Registry.name_of_get? hid, List.mem_append, List.mem_singleton] at hm
    rcases hm with hm | rfl
    · exact h.extended.waiting a (List.mem_append_left _ ha) hm
    · exact absurd ha hpath
  done _ := by
    rw [order_push, Registry.name_of_get? hid]
    exact List.mem_append_right _ (List.mem_singleton_self id)
  failed _ h := nomatch h

end Resolved

/-- The induction is on the names that are not waiting. Each waiting pass needs `id`. -/
theorem resolved (hpath : ∀ a ∈ path, TransGen r.Requires a id) (h : Closed r s) :
    Resolved r path id s (resolve r path id s).val := by
  induction hn : (available r path).length using Nat.strongRecOn
    generalizing path id s with
  | ind n ih =>
  subst hn
  rw [resolve]
  split
  · next hid =>
    have hmissing : id ∉ r.names := fun hm => by
      obtain ⟨e, he⟩ := Registry.mem_names_iff.1 hm
      rw [hid] at he
      cases he
    exact .refused h (.unknown id .refl hmissing)
  · next e hid =>
    have hname := Registry.name_of_get? hid
    have hmem := name_mem_of_get? hid
    simp only [hname] at hmem ⊢
    split
    · next hp => exact .refused h (.cycle id .refl (hpath id hp))
    · next hp =>
      split
      · next hs => exact .present h hs
      · next hs =>
        -- the requirements have one name less to wait for
        have hall : ResolvedAll r (path ++ [id]) e.pass.usage.required s
            (resolveAll r (path ++ [id]) id e.pass.usage.required s).val := by
          refine resolvedAll (fun q hq s hclosed => ?_) h
          refine ih _ (available_length_lt hmem hp) ?_ hclosed rfl
          have hstep : r.Requires id q := ⟨e, hid, hq⟩
          exact List.forall_mem_append.2
            ⟨fun a ha => (hpath a ha).tail hstep, List.forall_mem_singleton.2 (.single hstep)⟩
        simp only [Traced.val_bind]
        generalize (resolveAll r (path ++ [id]) id e.pass.usage.required s).val = x at hall
        obtain ⟨failure, s'⟩ := x
        cases failure with
        | some error => exact .stop hid hall
        | none => exact .push hid hp hs hall

/-! ## Requests in turn -/

theorem resolved_add (h : Closed r s) (id : String) : Resolved r [] id s (add r s id).val :=
  resolved (fun _ h => nomatch h) h

/-- What the requests for `ids` leave behind, whether they were granted or not. -/
def requested (r : Registry) (ids : List String) : Schedule :=
  ids.foldl (fun s id => (add r s id).val.2) {}

theorem closed_requested (r : Registry) (ids : List String) : Closed r (requested r ids) := by
  have hfold : ∀ s, Closed r s → Closed r (ids.foldl (fun s id => (add r s id).val.2) s) := by
    induction ids with
    | nil => exact fun s h => h
    | cons id ids ih => exact fun s h => ih _ (resolved_add h id).extended.closed
  exact hfold {} .nil

/-- After any requests, granted or refused, the schedule holds registered passes, each once and each
behind its requirements. The next request ends whatever the requirements are, only adds to the end,
and is granted exactly if all that it needs is registered and off every cycle of requirements. -/
theorem requested_resolves (r : Registry) (ids : List String) (id : String) :
    let s := requested r ids
    let x := (add r s id).val
    (s.order.Nodup ∧ s.order ⊆ r.names ∧
      ∀ pre a post, s.order = pre ++ a :: post → ∀ q, r.Requires a q → q ∈ pre) ∧
    s.order <+: x.2.order ∧
    (x.1 = none ↔ r.Resolvable id) ∧
    (x.1 = none → ∀ q, r.Needs id q → q ∈ x.2.order) ∧
    ∀ error, x.1 = some error →
      (∃ y, error = .unknownPass y ∧ r.Needs id y ∧ y ∉ r.names) ∨
      (∃ y, error = .dependencyCycle y ∧ r.Needs id y ∧ r.Circular y) := by
  intro s x
  have hs : Closed r s := closed_requested r ids
  have hx : Resolved r [] id s x := resolved_add hs id
  refine ⟨⟨hs.nodup, hs.registered, hs.before⟩, hx.extended.grows, ⟨fun hnone => ?_, fun hid => ?_⟩,
    fun hnone q hq => hx.extended.closed.mem_of_needs (hx.done hnone) hq, fun error he => ?_⟩
  · exact hx.extended.closed.resolvable (hx.done hnone)
  · cases hfailure : x.1 with
    | none => rfl
    | some error => exact absurd hid (hx.failed error hfailure).not_resolvable
  · cases hx.failed error he with
    | unknown y hy hm => exact .inl ⟨y, rfl, hy, hm⟩
    | cycle y hy hc => exact .inr ⟨y, rfl, hy, hc⟩

end Schedule

end LoopClock
