import LoopClock.Proofs.Run.Placed
import LoopClock.Proofs.Run.Standard

/-! Where the timers of a standard run stand, and how often a path through the program records. -/
namespace LoopClock
open Graph Program

/-- The local temporary of this name. -/
def Temp.isLocally (s : String) (t : Temp) : Bool := !t.isGlobal && t.name == s

theorem mem_localNames_of_any {s : String} {o : Option Temp} {ts : List Temp}
    (h : o.any (Temp.isLocally s) = true) (hts : ∀ t ∈ o, t ∈ ts) : s ∈ localNames ts := by
  obtain ⟨t, ho, ht⟩ := (Option.any_eq_true _ _).1 h
  rw [Temp.isLocally, Bool.and_eq_true, Bool.not_eq_true', beq_iff_eq] at ht
  exact mem_localNames.2 ⟨t, hts t ho, ht⟩

theorem Timing.isLocally_stash (t : Timing) : t.stash.isLocally t.stash.name = true := by
  rw [Temp.isLocally, beq_self_eq_true, Bool.and_true]
  rfl

namespace Instr

def loaded? : Instr → Option Temp
  | load _ _ addr => addr.temp?
  | _ => none

def defines (s : String) (x : Instr) : Bool := x.target?.any (Temp.isLocally s)

def storesTo (s : String) (x : Instr) : Bool := x.stored?.any (Temp.isLocally s)

def loadsFrom (s : String) (x : Instr) : Bool := x.loaded?.any (Temp.isLocally s)

variable {s : String} {x : Instr}

theorem mem_names_of_defines (h : x.defines s = true) : s ∈ x.names :=
  mem_localNames_of_any h fun _ ht => List.mem_append_left _ (Option.mem_toList.2 ht)

theorem mem_names_of_storesTo (h : x.storesTo s = true) : s ∈ x.names :=
  mem_localNames_of_any h fun _ ht => List.mem_append_right _ (mem_reads_of_stored? ht)

theorem mem_names_of_loadsFrom (h : x.loadsFrom s = true) : s ∈ x.names := by
  refine mem_localNames_of_any h fun t ht => List.mem_append_right _ ?_
  cases x with
  | load t ty addr => exact List.mem_filterMap.2 ⟨addr, by simp, ht⟩
  | _ => cases ht

end Instr

/-- How often a path leaves the loop. -/
def Loop.departures (l : Loop) : List Vertex → Nat
  | v :: w :: path => (if v ∈ l.blocks ∧ w ∉ l.blocks then 1 else 0) + l.departures (w :: path)
  | _ => 0

/-- In `q`, which comes from `p`, the loop `l` of function `i` has the timer with this slot, and
`stash` is the temporary that its sample waits in. -/
structure Timed (c : Config) (p q : Program) (i : Nat) (l : Loop) (slot : Nat) (stash : Temp) :
    Prop where
  isLocal : stash.isGlobal = false
  fresh : stash.name ∉ p.names
  outside : ¬ q.Outside stash.name
  /-- Only the entry defines the stash, and it does so once. -/
  defined : ∀ v, (q.body v).filter (·.defines stash.name) =
    if v = root i then [.alloca stash .i64 (.int 1)] else []
  first : ∃ pre post, q.body (root i) = pre ++ .alloca stash .i64 (.int 1) :: post ∧
    ∀ x ∈ pre, stash.name ∉ x.names
  /-- Only the header writes the stash, and it does so once, with the clock that it just read. -/
  stored : ∃ clock,
    [.call (some clock) .i64 c.clockFn [], .store (.temp clock) (.temp stash)] <:+:
      q.body l.header ∧
    ∀ v, (q.body v).filter (·.storesTo stash.name) =
      if v = l.header then [.store (.temp clock) (.temp stash)] else []
  loaded : ∀ v, (∃ x ∈ q.body v, x.loadsFrom stash.name) ↔ v ∈ q.exitBlocks l
  /-- An exit reads the clock, takes the sample away from it and stores the difference at the slot.
  It does so once, and nothing else there mentions the stash. -/
  recorded : ∀ v ∈ q.exitBlocks l, ∃ k pre post,
    q.body v = pre ++
      [.call (some (.fresh k .i64)) .i64 c.clockFn [],
       .load (.fresh (k + 1) .i64) .i64 (.temp stash),
       .arith (.fresh (k + 2) .i64) .sub .i64 (.temp (.fresh k .i64)) (.temp (.fresh (k + 1) .i64)),
       .gep (.fresh (k + 3) .i64Ptr) .i64 (.temp ⟨c.storage, true, .i64Ptr⟩)
        (.int (Int32.ofNat slot)),
       .store (.temp (.fresh (k + 2) .i64)) (.temp (.fresh (k + 3) .i64Ptr))] ++ post ∧
      ∀ x ∈ pre ++ post, stash.name ∉ x.names
  slot : (Int32.ofNat slot).toInt = slot
  own : ∀ v ∈ q.exitBlocks l, v ≠ root i ∧ ∀ u ∈ q.prev v, u ∈ l.blocks
  counted : ∀ path, (root i :: path).IsChain q.Edge →
    ((root i :: path).flatMap q.body).countP (·.loadsFrom stash.name) =
      l.departures (root i :: path)

namespace Placed

variable {c : Config} {p q : Program} {t : Timing} {exits : List Vertex}

/-- What is said of the stash is said of the known uses. -/
theorem filter_eq (h : Placed c q t exits) {keep : Instr → Bool}
    (hkeep : ∀ x, keep x = true → t.stash.name ∈ x.names) (v : Vertex) :
    (q.body v).filter keep = (t.uses exits v).filter keep := by
  rw [← h.uses, List.filter_filter]
  refine List.filter_congr fun x _ => ?_
  cases hx : keep x with
  | false => rfl
  | true => simp [Timing.mentions, hkeep x hx]

theorem filter_defines (h : Placed c q t exits) (v : Vertex) :
    (q.body v).filter (·.defines t.stash.name) =
      if v = root t.func then [Timer.allocate t.stash] else [] := by
  have hload : (Instr.load (.fresh (t.before exits v + 1) .i64) .i64 (.temp t.stash)).defines
      t.stash.name = false :=
    beq_false_of_ne (Temp.fresh_name_ne (by rw [Timing.before]; omega) _ _)
  have hallocate : (Timer.allocate t.stash).defines t.stash.name = true :=
    t.isLocally_stash
  rw [h.filter_eq fun x => Instr.mem_names_of_defines, Timing.uses, List.filter_append,
    List.filter_append, filter_ite_of_pos hallocate, filter_ite_of_neg rfl,
    filter_ite_of_neg hload, List.append_nil, List.append_nil]

theorem filter_storesTo (h : Placed c q t exits) (v : Vertex) :
    (q.body v).filter (·.storesTo t.stash.name) =
      if v = t.header then [.store (.temp t.clock) (.temp t.stash)] else [] := by
  have hstore : (Instr.store (.temp t.clock) (.temp t.stash)).storesTo t.stash.name = true :=
    t.isLocally_stash
  rw [h.filter_eq fun x => Instr.mem_names_of_storesTo, Timing.uses, List.filter_append,
    List.filter_append, filter_ite_of_neg rfl, filter_ite_of_pos hstore, filter_ite_of_neg rfl,
    List.append_nil, List.nil_append]

theorem filter_loadsFrom (h : Placed c q t exits) (v : Vertex) :
    (q.body v).filter (·.loadsFrom t.stash.name) = if v ∈ exits then
      [.load (.fresh (t.before exits v + 1) .i64) .i64 (.temp t.stash)] else [] := by
  have hload : (Instr.load (.fresh (t.before exits v + 1) .i64) .i64 (.temp t.stash)).loadsFrom
      t.stash.name = true := t.isLocally_stash
  rw [h.filter_eq fun x => Instr.mem_names_of_loadsFrom, Timing.uses, List.filter_append,
    List.filter_append, filter_ite_of_neg rfl, filter_ite_of_neg rfl,
    filter_ite_of_pos hload, List.nil_append, List.nil_append]

theorem countP_loadsFrom (h : Placed c q t exits) (v : Vertex) :
    (q.body v).countP (·.loadsFrom t.stash.name) = if v ∈ exits then 1 else 0 := by
  rw [List.countP_eq_length_filter, h.filter_loadsFrom]
  split <;> rfl

section
variable {l : Loop} (h : Placed c q t exits) (hq : q.Proper) (hs : Steps.Settled q t)
  (hl : q.HasLoop t.func l) (hlt : l.header = t.header)
include h

include hq hl hlt in
theorem mem_exitBlocks (v : Vertex) : v ∈ q.exitBlocks l ↔ v ∈ exits := by
  rw [h.mem, HasLoop.mem_exitBlocks hq hl, hlt]

include hs in
theorem dedicated {v : Vertex} (hv : v ∈ exits) : Dedicated q.Edge (root t.func) t.header v :=
  hs.own v ((h.mem v).1 hv)

theorem exists_first : ∃ pre post, q.body (root t.func) = pre ++ Timer.allocate t.stash :: post ∧
    ∀ x ∈ pre, t.stash.name ∉ x.names := by
  have hu := h.uses (root t.func)
  rw [Timing.uses, if_pos rfl, List.append_assoc, List.singleton_append,
    List.filter_eq_cons_iff] at hu
  obtain ⟨pre, post, heq, hpre, -, -⟩ := hu
  exact ⟨pre, post, heq, fun x hx => by simpa [Timing.mentions] using hpre x hx⟩

include hs in
theorem exists_record {v : Vertex} (hv : v ∈ exits) : ∃ k pre post,
    q.body v = pre ++ Timer.record (.ofConfig c 0) t.stash t.slot k ++ post ∧
      ∀ x ∈ pre ++ post, t.stash.name ∉ x.names := by
  obtain ⟨pre, post, heq⟩ := h.record v hv
  have hroot : v ≠ root t.func := (h.dedicated hs hv).1
  have hheader : v ≠ t.header := fun he => ((h.mem v).1 hv).1 (he ▸ inLoop_header)
  have hu := congrArg List.length (h.uses v)
  rw [Timing.uses, if_neg hroot, if_neg hheader, if_pos hv, ← heq, List.filter_append,
    List.filter_append, filter_mentions_record (by rw [Timing.before]; omega)] at hu
  simp only [List.length_append, List.length_singleton, List.length_nil] at hu
  have hpre : pre.filter t.mentions = [] := List.length_eq_zero_iff.1 (by omega)
  have hpost : post.filter t.mentions = [] := List.length_eq_zero_iff.1 (by omega)
  refine ⟨_, pre, post, heq.symm, fun x hx => ?_⟩
  rcases List.mem_append.1 hx with hx | hx
  · simpa [Timing.mentions] using List.filter_eq_nil_iff.1 hpre x hx
  · simpa [Timing.mentions] using List.filter_eq_nil_iff.1 hpost x hx

include hs hl hlt in
/-- A path records whenever it has left the loop. -/
theorem countP_path (v : Vertex) (path : List Vertex) (hw : (v :: path).IsChain q.Edge) :
    (path.flatMap q.body).countP (·.loadsFrom t.stash.name) = l.departures (v :: path) := by
  induction path generalizing v with
  | nil => rfl
  | cons w path ih =>
    obtain ⟨he, hw⟩ := List.isChain_cons_cons.1 hw
    have hiff : w ∈ exits ↔ v ∈ l.blocks ∧ w ∉ l.blocks := by
      rw [hl.mem, hl.mem, hlt]
      constructor
      · intro hx
        exact ⟨(h.dedicated hs hx).2 v he, ((h.mem w).1 hx).1⟩
      · rintro ⟨hv, hx⟩
        exact (h.mem w).2 ⟨hx, v, hv, he⟩
    rw [List.flatMap_cons, List.countP_append, h.countP_loadsFrom, ih w hw, Loop.departures]
    simp only [hiff]

include hq hs hl hlt in
theorem timed (hlocal : t.stash.name ∉ p.names) (hslot : (Int32.ofNat t.slot).toInt = t.slot) :
    Timed c p q t.func l t.slot t.stash where
  isLocal := rfl
  fresh := hlocal
  outside := h.outside
  defined := h.filter_defines
  first := h.exists_first
  stored := ⟨t.clock, hlt ▸ h.sample, fun v => hlt ▸ h.filter_storesTo v⟩
  loaded v := by
    rw [h.mem_exitBlocks hq hl hlt, ← List.countP_pos_iff, h.countP_loadsFrom]
    by_cases hv : v ∈ exits <;> simp [hv]
  recorded v hv := h.exists_record hs ((h.mem_exitBlocks hq hl hlt v).1 hv)
  slot := hslot
  own v hv := by
    have hd := h.dedicated hs ((h.mem_exitBlocks hq hl hlt v).1 hv)
    refine ⟨hd.1, fun u hu => ?_⟩
    rw [hl.mem, hlt]
    exact hd.2 u ((hq.mem_prev u v).1 hu)
  counted path hw := by
    have hroot : root t.func ∉ exits := fun hx => (h.dedicated hs hx).1 rfl
    rw [List.flatMap_cons, List.countP_append, h.countP_loadsFrom, if_neg hroot, Nat.zero_add]
    exact h.countP_path hs hl hlt _ path hw

end

end Placed

/-- Every timer takes its slot number from the temporaries behind those of the start. -/
theorem Steps.temps_le {c : Config} {p₀ p : Program} {ts : List Timing} (h : Steps c p₀ p ts)
    (h₀ : p₀.Proper) : ∀ t ∈ ts, p₀.temps ≤ t.temps := by
  induction h with
  | start => exact fun t ht => nomatch ht
  | declare _ _ _ ih => exact ih
  | split _ _ _ ih => exact ih
  | place steps _ _ _ ih =>
    intro t ht
    rcases List.mem_append.1 ht with ht | ht
    · exact ih t ht
    · obtain rfl := List.mem_singleton.1 ht
      exact (steps.grows h₀).le

theorem timed_of_steps {c : Config} {p p' q : Program} {ts : List Timing} {t : Timing} {n slots : Nat}
    (hp : Source.Wellformed p) (hfit : q.Fits) (h : Steps c p p' ts)
    (hr : Reported (Report.call (.ofConfig c 0) slots) p' q)
    (hslots : ts.map (·.slot) = List.range n) (ht : t ∈ ts) :
    ∃ l, (q.flow t.func).forest.byHeader? t.header.id = some l ∧
      Timed c p q t.func l t.slot t.stash := by
  have htemps : p'.temps < 0x100000000 := hr.temps ▸ hfit.2
  have hq : q.Proper := hr.rebodied.proper (h.proper hp.proper)
  have hs : Steps.Settled q t := Steps.settled_congr hr.rebodied (h.settled hp.proper t ht)
  obtain ⟨exits, hpl⟩ := h.placed hp.proper hp.numbered htemps t ht
  obtain ⟨l, hmem, hfind, hheader⟩ := (hq.sound hs.func).exists_byHeader? hs.header
  have hl : q.HasLoop t.func l := (hq.sound hs.func).natural_of_mem_loops hmem
  have hlt := hpl.lt
  have hslot : t.slot < n := by
    rw [← List.mem_range, ← hslots]
    exact List.mem_map_of_mem ht
  have hlen : ts.length = n := by
    rw [← List.length_range (n := n), ← hslots, List.length_map]
  have htwo := h.two_mul_length_le hp.proper
  refine ⟨l, hfind, (hpl.report hr).timed hq hs hl hheader ?_ (Int32.toInt_ofNat_of_lt (by omega))⟩
  rw [mem_names hp.proper.nodup]
  exact hp.numbered.fresh Grows.refl (h.temps_le hp.proper t ht) (by omega)

/-- Every slot that a standard run hands out is announced with its loop, and the timer of that slot
stands around the loop that has the same header in the end. -/
theorem exists_timed (m : Manager) (c : Config) (tally : Nat) {txt : String} {p : Program}
    (h : Source.parse txt = .ok p) :
    ∃ r, (m.run none p (.ofModule c tally)).val = .ok r ∧ (r.program.Fits →
      (timers (m.run none p (.ofModule c tally)).events).map (·.2.2) = List.range r.context.slots ∧
      ∀ header name slot, (header, name, slot) ∈ timers (m.run none p (.ofModule c tally)).events →
        ∃ i l stash, r.program.funcs[i]?.map (·.name) = some name ∧
          (r.program.flow i).forest.byHeader? header = some l ∧
          Timed c p r.program i l slot stash) := by
  have hp := Source.wellformed_of_parse h
  obtain ⟨r, ts, hok, hi⟩ := exists_run m c tally hp.proper
  refine ⟨r, hok, fun hfit => ⟨?_, fun header name slot hm => ?_⟩⟩
  · rw [hi.announced, List.map_map]
    exact hi.slots
  · rw [hi.announced] at hm
    obtain ⟨t, ht, heq⟩ := List.mem_map.1 hm
    obtain ⟨p', hsteps, hrep⟩ := hi.changes
    obtain ⟨l, hl, htimed⟩ := timed_of_steps hp hfit hsteps hrep hi.slots ht
    have hname : r.program.funcs[t.func]?.map (·.name) = some (p.funcName t.func) := by
      have hlt : t.func < p.funcs.length :=
        hsteps.length_eq hp.proper ▸ (hsteps.settled hp.proper t ht).func
      rw [name?_of_signatures (hrep.rebodied.signatures.trans (hsteps.signatures hp.proper)),
        funcName, List.getElem?_eq_getElem hlt]
      rfl
    cases heq
    exact ⟨t.func, l, t.stash, hname, hl, htimed⟩

theorem exists_timed_sharedExit :
    ∃ r, (Manager.pipeline.run none Source.sharedExit (.ofModule {} 0)).val = .ok r ∧
      r.program.Fits ∧ ∃ i l stash, r.program.funcs[i]?.map (·.name) = some "main" ∧
        (r.program.flow i).forest.byHeader? 1 = some l ∧
        Timed {} Source.sharedExit r.program i l 0 stash := by
  obtain ⟨r, hr, h⟩ := exists_timed .pipeline {} 0 Source.parse_sharedExit
  have hfit := Source.fits_sharedExit hr
  have hmem : (1, "main", 0) ∈
      timers (Manager.pipeline.run none Source.sharedExit (.ofModule {} 0)).events := by
    decide +kernel
  exact ⟨r, hr, hfit, (h hfit).2 1 "main" 0 hmem⟩

end LoopClock
