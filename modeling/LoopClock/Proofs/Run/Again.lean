import LoopClock.Proofs.Counts
import LoopClock.Proofs.Run.Placed
import LoopClock.Proofs.Run.Twins

/-! A standard run on a program that an earlier one has left. All loops have exits of their own by then, so
no edge is split again, and all that the run is missing is there. -/
namespace LoopClock
open Graph Program

variable {c : Config} {p₀ p q : Program} {s : Progress} {i : Nat} {l : Loop} {v x : Vertex}

/-! ## Instructions put in between -/

/-- `bs` is `as` with instructions of which `new` holds put in between. -/
inductive Woven (new : Instr → Prop) : List Instr → List Instr → Prop
  | nil : Woven new [] []
  | keep {as bs : List Instr} (x : Instr) (rest : Woven new as bs) : Woven new (x :: as) (x :: bs)
  | add {as bs : List Instr} (x : Instr) (isNew : new x) (rest : Woven new as bs) :
    Woven new as (x :: bs)

namespace Woven

variable {new : Instr → Prop} {as bs cs : List Instr}

theorem refl (as : List Instr) : Woven new as as := by
  induction as with
  | nil => exact .nil
  | cons x as ih => exact .keep x ih

theorem trans (h : Woven new as bs) (k : Woven new bs cs) : Woven new as cs := by
  induction k generalizing as with
  | nil => exact h
  | keep x _ ih =>
    cases h with
    | keep _ h => exact .keep x (ih h)
    | add _ hx h => exact .add x hx (ih h)
  | add x hx _ ih => exact .add x hx (ih h)

theorem prepend (h : ∀ x ∈ bs, new x) (k : Woven new as cs) : Woven new as (bs ++ cs) := by
  induction bs with
  | nil => exact k
  | cons x bs ih =>
    obtain ⟨hx, hbs⟩ := List.forall_mem_cons.1 h
    exact .add x hx (ih hbs)

theorem append_left (pre : List Instr) (k : Woven new as cs) : Woven new (pre ++ as) (pre ++ cs) := by
  induction pre with
  | nil => exact k
  | cons x pre ih => exact .keep x ih

theorem append (h : ∀ x ∈ bs, new x) : Woven new as (as ++ bs) := by
  have hw : Woven new (as ++ []) (as ++ (bs ++ [])) := .append_left as (.prepend h .nil)
  rwa [List.append_nil, List.append_nil] at hw

theorem topped (h : ∀ x ∈ bs, new x) (body : List Instr) : Woven new body (topped bs body) := by
  have hbody := List.takeWhile_append_dropWhile (p := Instr.isAlloca) (l := body)
  rw [LoopClock.topped, List.append_assoc]
  conv => lhs; rw [← hbody]
  exact .append_left _ (.prepend h (.refl _))

/-- What was there is there still. -/
theorem subset (h : Woven new as bs) : as ⊆ bs := by
  induction h with
  | nil => exact List.Subset.refl _
  | keep x _ ih => exact List.cons_subset_cons x ih
  | add x _ _ ih => exact List.subset_cons_of_subset x ih

end Woven

namespace Program

/-- An instruction of a timer of a loop in the graph `E`, in its place: the stash at the root, the sample at
the header, and a record at an exit of the loop. -/
inductive Times (c : Config) (E : Vertex → Vertex → Prop) (v : Vertex) (x : Instr) : Prop
  | stash (t : Timing) (header : IsHeader E (root t.func) t.header) (place : v = root t.func)
      (instr : x = Timer.allocate t.stash)
  | sample (t : Timing) (header : IsHeader E (root t.func) t.header) (place : v = t.header)
      (instr : x ∈ Timer.putBy (.ofConfig c 0) t.stash t.clock)
  | record (t : Timing) (header : IsHeader E (root t.func) t.header)
      (place : IsExit E (root t.func) t.header v) (k : Nat)
      (instr : x ∈ Timer.record (.ofConfig c 0) t.stash t.slot k)

/-- `q` is `p` with instructions of timers put in the blocks. -/
structure Retimed (c : Config) (p q : Program) : Prop where
  rebodied : Rebodied p q
  body : ∀ v, Woven (Times c p.Edge v) (p.body v) (q.body v)

namespace Retimed

theorem trans {r : Program} (h : Retimed c p q) (k : Retimed c q r) : Retimed c p r := by
  refine ⟨h.rebodied.trans k.rebodied, fun v => (h.body v).trans ?_⟩
  have hk := k.body v
  rwa [h.rebodied.edge] at hk

theorem of_funcs (h : q.funcs = p.funcs) : Retimed c p q := by
  refine ⟨.of_funcs h, fun v => ?_⟩
  have hb : q.body = p.body := (Revised.of_funcs h).body fun _ _ => rfl
  rw [hb]
  exact .refl _

theorem place (hp : p.Proper) (hi : i < p.funcs.length) (hl : p.HasLoop i l) (len slot : Nat) :
    Retimed c p (Timer.place p i (.ofConfig c len) slot l.header (p.exitBlocks l)) := by
  have hr : Rebodied p (Timer.place p i (.ofConfig c len) slot l.header (p.exitBlocks l)) :=
    Timer.rebodied_place hp hi
  refine ⟨hr, fun v => ?_⟩
  by_cases hv : v.id ∈ p.ids v.func
  · have hx : ∀ x ∈ p.exitBlocks l, x.id ∈ p.ids x.func := HasLoop.exit_mem_ids hp hl
    rw [Timer.body_place hp hi hv hx (HasLoop.nodup_exitBlocks hp hl)]
    let t : Timing := ⟨i, l.header, slot, p.temps⟩
    refine (Woven.prepend ?_ (.refl _)).trans ((Woven.topped ?_ _).trans (.topped ?_ _))
    · intro x hx
      split at hx
      · next hroot => exact .stash t hl.header hroot (List.mem_singleton.1 hx)
      · cases hx
    · intro x hx
      split at hx
      · next hheader => exact .sample t hl.header hheader hx
      · cases hx
    · intro x hx
      split at hx
      · next hexit =>
        exact .record t hl.header ((HasLoop.mem_exitBlocks hp hl).1 hexit) _ hx
      · cases hx
  · rw [body_eq_nil hv, body_eq_nil (by rwa [hr.ids])]
    exact .nil

end Retimed

/-! ## Loops with exits of their own -/

/-- All loops of the program have exits of their own. -/
def AllOwn (p : Program) : Prop := ∀ i h, IsHeader p.Edge (root i) h → OwnExits p i h

theorem AllOwn.rebodied (h : p.AllOwn) (hr : Rebodied p q) : q.AllOwn := by
  simp only [AllOwn, OwnExits, hr.edge] at h ⊢
  exact h

theorem dedicateExit_of_own (hp : p.Proper) (hi : i < p.funcs.length) (hl : p.HasLoop i l)
    (own : OwnExits p i l.header) (hx : IsExit p.Edge (root i) l.header x) (b : Bool) :
    (dedicateExit i l (p, b) x).val = (p, b) := by
  have hpass := (Opened.passes_iff hp hl hi hx).2 (own x hx)
  simp only [dedicateExit, List.partition_eq_filter_filter]
  rw [if_pos]
  · rfl
  · exact hpass

theorem dedicateExits_of_own (hp : p.Proper) (hi : i < p.funcs.length) (hl : p.HasLoop i l)
    (own : OwnExits p i l.header) : (p.dedicateExits i l).val.1 = p := by
  have hfold : ∀ (xs : List Vertex), (∀ x ∈ xs, IsExit p.Edge (root i) l.header x) →
      ∀ b, (xs.foldlM (dedicateExit i l) (p, b)).val = (p, b) := by
    intro xs hxs
    induction xs with
    | nil => exact fun b => rfl
    | cons x xs ih =>
      obtain ⟨hx, hxs⟩ := List.forall_mem_cons.1 hxs
      intro b
      rw [List.foldlM_cons, Traced.val_bind, dedicateExit_of_own hp hi hl own hx]
      exact ih hxs b
  rw [dedicateExits, hfold _ fun x => (HasLoop.mem_exitBlocks hp hl).1]

end Program

/-! ## Timing again -/

/-- A run that has placed timers only. -/
structure Resumed (c : Config) (p : Program) (s : Progress) : Prop where
  retimed : Retimed c p s.1
  prepared : s.2.Prepared c

section
variable (hp : p.Proper) (own : p.AllOwn)
include hp own

theorem Resumed.timeLoop (R : Resumed c p s) (k : Int) : Resumed c p (timeLoop i s k).val := by
  have hq := R.retimed.rebodied.proper hp
  obtain ⟨hc, len, hlen⟩ := R.prepared
  cases hl : (s.1.flow i).forest.byHeader? k with
  | none => rwa [timeLoop_none hl]
  | some l =>
    have hmem : l ∈ (s.1.flow i).forest.loops := List.mem_of_find?_eq_some hl
    have hi := lt_of_mem_loops hmem
    have hn : s.1.HasLoop i l := hq.hasLoop hmem
    rw [(timeLoop_some hl hlen).1]
    by_cases he : s.1.exitBlocks l = []
    · rw [(Timer.time_of_no_exits l i ⟨s.1, .ofConfig c len, s.2.slots⟩ he).1]
      exact ⟨R.retimed, hc, len, rfl⟩
    · have hown := own.rebodied R.retimed.rebodied i l.header hn.header
      obtain ⟨len', hlen'⟩ := ofConfig_require c len s.2.slots
      rw [Timer.val_time_of_exits l i ⟨s.1, .ofConfig c len, s.2.slots⟩ he]
      dsimp only
      rw [dedicateExits_of_own hq hi hn hown, hlen']
      exact ⟨R.retimed.trans (.place hq hi hn len' s.2.slots), hc, len', rfl⟩

theorem Resumed.timeFunc (R : Resumed c p s) (i : Nat) : Resumed c p (timeFunc s i).val := by
  have hfold : ∀ (ks : List Int) (s : Progress), Resumed c p s →
      Resumed c p (ks.foldlM (LoopClock.timeLoop i) s).val := by
    intro ks
    induction ks with
    | nil => exact fun s R => R
    | cons k ks ih =>
      intro s R
      rw [List.foldlM_cons, Traced.val_bind]
      exact ih _ (R.timeLoop hp own k)
  exact hfold _ s R

theorem Resumed.timeProgram (R : Resumed c p s) : Resumed c p (timeProgram s).val := by
  have hfold : ∀ (is : List Nat) (s : Progress), Resumed c p s →
      Resumed c p (is.foldlM LoopClock.timeFunc s).val := by
    intro is
    induction is with
    | nil => exact fun s R => R
    | cons i is ih =>
      intro s R
      rw [List.foldlM_cons, Traced.val_bind]
      exact ih _ (R.timeFunc hp own i)
  have R' := hfold (List.range s.1.funcs.length) s R
  obtain ⟨hc, len, hlen⟩ := R'.prepared
  simp only [LoopClock.timeProgram, Traced.val_bind, hlen]
  have hsync := (around_syncStorage (p := ((List.range s.1.funcs.length).foldlM LoopClock.timeFunc s).val.1)
    (s := .ofConfig c len)).1
  exact ⟨R'.retimed.trans (.of_funcs hsync.funcs), hc, len, hlen⟩

end

/-! ## Reporting again -/

namespace Program

/-- All returns of the entry function report. -/
def Reporting (c : Config) (p : Program) : Prop :=
  ∀ v, p.funcIdx? c.entryFn = some v.func → (p.jump v).any Terminator.isRet = true →
    (p.body v).any (·.callee? == some c.reportFn) = true

theorem funcIdx?_eq (h : q.signatures = p.signatures) (name : String) :
    q.funcIdx? name = p.funcIdx? name := by
  have hfind : ∀ r : Program, r.funcIdx? name = r.signatures.findIdx? (·.1 == name) := fun r => by
    rw [funcIdx?, signatures, List.findIdx?_map]
    rfl
  rw [hfind, hfind, h]

theorem Reporting.retimed (h : p.Reporting c) (hr : Retimed c p q) : q.Reporting c := by
  intro v hv hj
  rw [funcIdx?_eq hr.rebodied.signatures] at hv
  rw [hr.rebodied.jump] at hj
  obtain ⟨x, hx, hcall⟩ := List.any_eq_true.1 (h v hv hj)
  exact List.any_eq_true.2 ⟨x, (hr.body v).subset hx, hcall⟩

theorem insert_of_reporting (hn : ∀ i, (p.ids i).Nodup) (h : p.Reporting c) (len slots : Nat) :
    (Report.insert p (.ofConfig c len) slots c.entryFn).val.2 = p := by
  rw [Report.insert]
  split
  · rfl
  split
  · next i f hi hf =>
    have hfi : p.funcs[i]? = some f := (func?_of_funcIdx? hi).symm.trans hf
    have hkept : ∀ b ∈ f.blocks, Report.insertInto (.ofConfig c len) slots b = b := by
      intro b hb
      have hblock := block?_of_mem (hn i) hfi hb
      have hreport := h ⟨i, b.id⟩ hi
      rw [jump, body, hblock] at hreport
      rw [Report.insertInto, if_neg]
      intro hmissing
      obtain ⟨hret, hnone⟩ := Bool.and_eq_true_iff.1 hmissing
      rw [Bool.not_eq_true'] at hnone
      exact Bool.false_ne_true (hnone.symm.trans (hreport hret))
    have hblocks : f.blocks.map (Report.insertInto (.ofConfig c len) slots) = f.blocks :=
      (List.map_congr_left hkept).trans (List.map_id' _)
    have hset : p.funcs.set i f = p.funcs := by
      obtain ⟨hlt, rfl⟩ := List.getElem?_eq_some_iff.1 hfi
      exact List.set_getElem_self hlt
    show { p with funcs := _ } = p
    rw [hblocks, hset]
  · rfl

theorem reporting_insert (hd : p.isDeclared c.reportFn = true) (len slots : Nat) :
    (Report.insert p (.ofConfig c len) slots c.entryFn).val.2.Reporting c := by
  intro v hv hj
  rw [funcIdx?_eq (Report.reported_insert).rebodied.signatures] at hv
  have hf : ∃ f, p.func? c.entryFn = some f := by
    rw [func?_of_funcIdx? hv]
    exact ⟨_, List.getElem?_eq_getElem (List.findIdx?_eq_some_iff_getElem.1 hv).1⟩
  obtain ⟨f, hf⟩ := hf
  have R := @Report.revised_insert p (.ofConfig c len) slots v.func f
    ((func?_of_funcIdx? hv).symm.trans hf)
  have hval : (Report.insert p (.ofConfig c len) slots c.entryFn).val.2 = { p with
      funcs := p.funcs.set v.func { f with
        blocks := f.blocks.map (Report.insertInto (.ofConfig c len) slots) } } := by
    have hdecl : p.isDeclared (Instrumentation.ofConfig c len).reportFn = true := hd
    simp only [Report.insert, hdecl, hv, hf]
    rfl
  rw [hval, jump, R.block?] at hj
  rw [hval, body, R.block?]
  cases hb : p.block? v with
  | none =>
    rw [hb] at hj
    cases hj
  | some b =>
    rw [hb] at hj
    have hret : b.isRet = true := hj
    show (b.body ++ _).any _ = true
    by_cases hmissing : Report.isMissing (.ofConfig c len) b = true
    · rw [if_pos ⟨rfl, hmissing⟩, List.any_append, Bool.or_eq_true]
      exact .inr (by simp [Report.call, Instr.callee?, Instrumentation.ofConfig])
    · rw [List.any_append, Bool.or_eq_true]
      refine .inl ?_
      rw [Report.isMissing, hret, Bool.true_and, Bool.not_eq_true', Bool.not_eq_false] at hmissing
      exact hmissing

/-! ## What a first run leaves -/

theorem isDeclared_of_names (hd : q.decls = p.decls)
    (hn : q.funcs.map (·.name) = p.funcs.map (·.name)) (name : String) :
    q.isDeclared name = p.isDeclared name := by
  have hfunc : ∀ r : Program, (r.func? name).isSome = (r.funcs.map (·.name)).any (· == name) := fun r => by
    rw [func?, List.any_map, List.isSome_find?]
    rfl
  rw [isDeclared, isDeclared, decl?, decl?, hd, hfunc, hfunc, hn]

theorem isDeclared_congr (hd : q.decls = p.decls) (hs : q.signatures = p.signatures)
    (name : String) : q.isDeclared name = p.isDeclared name := by
  have hnames := congrArg (List.map (·.1)) hs
  simp only [signatures, List.map_map] at hnames
  exact isDeclared_of_names hd hnames name

theorem isDeclared_declare (p : Program) (d : Decl) (name : String)
    (h : p.isDeclared name = true ∨ d.name = name) : (p.declare d).val.2.isDeclared name = true := by
  rw [declare]
  split
  · next hd => exact h.elim id fun h => h ▸ hd
  · show isDeclared { p with decls := p.decls ++ [d] } name = true
    simp only [isDeclared, decl?, func?, List.find?_append, Option.isSome_or, Bool.or_eq_true] at h ⊢
    rcases h with (h | h) | h
    · exact .inl (.inl h)
    · exact .inr h
    · exact .inl (.inr (by simp [h]))

theorem isDeclared_declared (hd : q.decls = p.declared c) (hs : q.signatures = p.signatures) :
    q.isDeclared c.reportFn = true ∧ q.isDeclared c.clockFn = true := by
  have hdeclare : ∀ (r : Program) (d : Decl), (r.declare d).val.2.signatures = r.signatures := fun r d => by
    rw [signatures, inside_declare.1, signatures]
  let r := ((p.declare (reportDecl c)).val.2.declare (clockDecl c)).val.2
  have hr : r.signatures = p.signatures := (hdeclare _ _).trans (hdeclare _ _)
  rw [isDeclared_congr (p := r) hd (hs.trans hr.symm), isDeclared_congr (p := r) hd (hs.trans hr.symm)]
  exact ⟨isDeclared_declare _ _ _ (.inl (isDeclared_declare _ _ _ (.inr rfl))),
    isDeclared_declare _ _ _ (.inr rfl)⟩

theorem declared_of_isDeclared (hr : p.isDeclared c.reportFn = true)
    (hc : p.isDeclared c.clockFn = true) : p.declared c = p.decls := by
  rw [declared, declare_of_isDeclared (d := reportDecl c) hr, declare_of_isDeclared (d := clockDecl c) hc]

/-- A storage that is long enough is not grown. -/
theorem grown_of_le {name : String} {gs : List Global} {g : Global} {n : Nat}
    (h : gs.find? (·.name == name) = some g) (hn : n ≤ g.len) : grown name n gs = gs := by
  rw [grown]
  split
  · next i hi =>
    rw [List.find?_eq_bind_findIdx?_getElem?, hi] at h
    obtain ⟨hlt, rfl⟩ := List.getElem?_eq_some_iff.1 h
    rw [List.modify_eq_set_get _ hlt, List.get_eq_getElem, Global.growTo_of_le hn]
    exact List.set_getElem_self hlt
  · rfl

/-! ## Counting again -/

/-- The function and the header of a loop. -/
abbrev loopKey (v : Nat × Loop) : Nat × Vertex := (v.1, v.2.header)

theorem lt_of_isHeader (hp : p.Proper) {h : Vertex} (hh : IsHeader p.Edge (root i) h) :
    i < p.funcs.length := by
  have hfunc : h.func = i := hp.reaches_func hh.reaches
  obtain ⟨u, he, _⟩ := hh
  rw [← hfunc]
  exact lt_of_mem_ids (hp.mem_ids u h he)

theorem mem_keys_visits (hp : p.Proper) {h : Vertex} :
    (i, h) ∈ p.visits.map loopKey ↔ IsHeader p.Edge (root i) h := by
  have L := lists_visits hp
  rw [List.mem_map]
  constructor
  · rintro ⟨⟨j, l⟩, hl, heq⟩
    obtain ⟨rfl, rfl⟩ := Prod.mk.inj heq
    exact (L.natural j l hl).2.header
  · intro hh
    obtain ⟨l, hl, rfl⟩ := L.all i h (lt_of_isHeader hp hh) hh
    exact ⟨(i, l), hl, rfl⟩

theorem mem_keys_leavable (hp : p.Proper) {h : Vertex} :
    (i, h) ∈ (p.leavable p.visits).map loopKey ↔
      IsHeader p.Edge (root i) h ∧ ∃ x, IsExit p.Edge (root i) h x := by
  have L := lists_visits hp
  have hexits : ∀ {j l}, (j, l) ∈ p.visits →
      (p.exitBlocks l ≠ [] ↔ ∃ x, IsExit p.Edge (root j) l.header x) := fun {j l} hl => by
    have hn := (L.natural j l hl).2
    simp only [ne_eq, List.eq_nil_iff_forall_not_mem, not_forall, not_not, HasLoop.mem_exitBlocks hp hn]
  rw [List.mem_map]
  constructor
  · rintro ⟨⟨j, l⟩, hl, heq⟩
    obtain ⟨rfl, rfl⟩ := Prod.mk.inj heq
    obtain ⟨hl, he⟩ := List.mem_filter.1 hl
    exact ⟨(L.natural j l hl).2.header, (hexits hl).1 (of_decide_eq_true he)⟩
  · rintro ⟨hh, hx⟩
    obtain ⟨l, hl, rfl⟩ := L.all i h (lt_of_isHeader hp hh) hh
    exact ⟨(i, l), List.mem_filter.2 ⟨hl, decide_eq_true ((hexits hl).2 hx)⟩, rfl⟩

/-- Programs with the same loops, of which the same can be left, have as many of both. -/
theorem length_visits (hp : p.Proper) (hq : q.Proper)
    (hheader : ∀ i h, IsHeader q.Edge (root i) h ↔ IsHeader p.Edge (root i) h)
    (hexit : ∀ i h, IsHeader p.Edge (root i) h →
      ((∃ x, IsExit q.Edge (root i) h x) ↔ ∃ x, IsExit p.Edge (root i) h x)) :
    q.visits.length = p.visits.length ∧
      (q.leavable q.visits).length = (p.leavable p.visits).length := by
  have hkeys : ∀ {r : Program}, r.Proper → ((r.leavable r.visits).map loopKey).Nodup := fun hr =>
    (lists_visits hr).nodup.sublist (List.filter_sublist.map loopKey)
  constructor
  · have hperm := (List.perm_ext_iff_of_nodup (lists_visits hq).nodup (lists_visits hp).nodup).2
      fun ⟨i, h⟩ => by rw [mem_keys_visits hq, mem_keys_visits hp, hheader]
    simpa using hperm.length_eq
  · have hperm := (List.perm_ext_iff_of_nodup (hkeys hq) (hkeys hp)).2 fun ⟨i, h⟩ => by
      rw [mem_keys_leavable hq, mem_keys_leavable hp, hheader]
      exact and_congr_right (hexit i h)
    simpa using hperm.length_eq

/-- A standard run leaves as many loops as there were, and as many of them can be left. -/
theorem counts_instrument (hp : p.Proper) (c : Config) (tally : Nat) :
    (instrument p (.ofModule c tally)).val.1.visits.length = p.visits.length ∧
      ((instrument p (.ofModule c tally)).val.1.leavable
        (instrument p (.ofModule c tally)).val.1.visits).length = (p.leavable p.visits).length := by
  obtain ⟨ts, I⟩ := instrumented_instrument hp c tally
  obtain ⟨q, hsteps, hreported⟩ := I.changes
  refine length_visits hp (I.proper hp) (fun i h => ?_) fun i h hh => ?_
  · rw [hreported.rebodied.edge]
    exact hsteps.isHeader_iff hp
  · rw [hreported.rebodied.edge]
    exact hsteps.exists_isExit_iff hp hh

end Program

end LoopClock
