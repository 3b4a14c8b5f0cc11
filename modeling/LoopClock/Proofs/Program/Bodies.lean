import LoopClock.Profile.Report
import LoopClock.Profile.Timer
import LoopClock.Proofs.Program.Proper

/-! Instructions added to the bodies of blocks. The flow graph, the phis and the terminators stay as
they are. -/
namespace LoopClock

/-- `new` put behind the stack slots at the start of `body`. -/
def topped (new body : List Instr) : List Instr :=
  body.takeWhile Instr.isAlloca ++ new ++ body.dropWhile Instr.isAlloca

theorem topped_nil (body : List Instr) : topped [] body = body := by
  simp [topped, List.takeWhile_append_dropWhile]

theorem filter_topped {keep : Instr → Bool} {new : List Instr} (h : ∀ i ∈ new, keep i = false)
    (body : List Instr) : (topped new body).filter keep = body.filter keep := by
  have hnew : new.filter keep = [] := List.filter_eq_nil_iff.2 fun i hi => by simp [h i hi]
  rw [topped, List.filter_append, List.filter_append, hnew, List.append_nil, ← List.filter_append,
    List.takeWhile_append_dropWhile]

theorem filter_added {keep : Instr → Bool} {as bs cs body : List Instr}
    (h : ∀ x ∈ as ++ bs ++ cs, keep x = false) :
    (topped as (topped bs (cs ++ body))).filter keep = body.filter keep := by
  simp only [List.mem_append] at h
  have hcs : cs.filter keep = [] := List.filter_eq_nil_iff.2 fun x hx => by simp [h x (.inr hx)]
  rw [filter_topped fun x hx => h x (.inl (.inl hx)),
    filter_topped fun x hx => h x (.inl (.inr hx)), List.filter_append, hcs, List.nil_append]

theorem mem_topped {new body : List Instr} {i : Instr} :
    i ∈ topped new body ↔ i ∈ new ∨ i ∈ body := by
  have h : i ∈ body ↔ i ∈ body.takeWhile Instr.isAlloca ∨ i ∈ body.dropWhile Instr.isAlloca := by
    rw [← List.mem_append, List.takeWhile_append_dropWhile]
  rw [topped, List.mem_append, List.mem_append, h]
  exact ⟨fun h => by tauto, fun h => by tauto⟩

/-- What does not start with a stack slot is not torn apart. -/
theorem infix_topped {c : Instr} {cs new body : List Instr} (hc : c.isAlloca = false)
    (h : (c :: cs) <:+: body) : (c :: cs) <:+: topped new body := by
  obtain ⟨pre, post, rfl⟩ := h
  have hdrop : ∃ mid, (pre ++ (c :: cs) ++ post).dropWhile Instr.isAlloca =
      mid ++ (c :: cs) ++ post := by
    induction pre with
    | nil => exact ⟨[], by simp [hc]⟩
    | cons a pre ih =>
      cases ha : a.isAlloca with
      | true =>
        obtain ⟨mid, hmid⟩ := ih
        exact ⟨mid, by simpa [ha] using hmid⟩
      | false => exact ⟨a :: pre, by simp [ha]⟩
  obtain ⟨mid, hmid⟩ := hdrop
  refine ⟨(pre ++ (c :: cs) ++ post).takeWhile Instr.isAlloca ++ new ++ mid, post, ?_⟩
  rw [topped, hmid]
  simp only [List.append_assoc]

theorem insertAtTop_eq (new : List Instr) (b : Block) :
    Timer.insertAtTop new b = { b with body := topped new b.body } := by
  have split : b.body = b.body.takeWhile Instr.isAlloca ++ b.body.dropWhile Instr.isAlloca :=
    List.takeWhile_append_dropWhile.symm
  have htake := (congrArg (List.take (b.body.takeWhile Instr.isAlloca).length) split).trans
    List.take_left
  have hdrop := (congrArg (List.drop (b.body.takeWhile Instr.isAlloca).length) split).trans
    List.drop_left
  rw [Timer.insertAtTop, Block.insertAt, htake, hdrop, topped]

namespace Program

variable {p q r : Program} {v x : Vertex} {i : Nat}

/-- `q` is `p` with other bodies and more temporaries. -/
structure Rebodied (p q : Program) : Prop where
  bare : ∀ i, q.bare? i = p.bare? i
  ids : ∀ i, q.ids i = p.ids i
  succ : q.succ = p.succ
  prev : q.prev = p.prev
  phis : q.phis = p.phis
  jump : q.jump = p.jump

namespace Rebodied

theorem refl : Rebodied p p := ⟨fun _ => rfl, fun _ => rfl, rfl, rfl, rfl, rfl⟩

theorem trans (h : Rebodied p q) (k : Rebodied q r) : Rebodied p r :=
  ⟨fun i => (k.bare i).trans (h.bare i), fun i => (k.ids i).trans (h.ids i), k.succ.trans h.succ,
    k.prev.trans h.prev, k.phis.trans h.phis, k.jump.trans h.jump⟩

theorem of_revised {g : Vertex → Block → List Instr}
    (h : Revised (fun v b => { b with body := g v b }) p q) : Rebodied p q :=
  ⟨h.bare, h.ids, h.succ fun _ _ => rfl, h.prev fun _ _ => rfl, h.phis fun _ _ => rfl,
    h.jump fun _ _ => rfl⟩

theorem of_funcs (h : q.funcs = p.funcs) : Rebodied p q :=
  of_revised (g := fun _ b => b.body) (Revised.of_funcs h)

section
variable (h : Rebodied p q)
include h

theorem total (i : Nat) : q.total i = p.total i := total_eq (h.bare i)

theorem length : q.funcs.length = p.funcs.length := funcs_length_eq h.bare

theorem signatures : q.signatures = p.signatures := signatures_eq h.bare

theorem edge : q.Edge = p.Edge := congrArg Leads h.succ

theorem proper (hp : p.Proper) : q.Proper := hp.congr h.bare h.ids h.succ h.prev

end

end Rebodied

theorem body_eq_nil (h : v.id ∉ p.ids v.func) : p.body v = [] := by
  rw [body, block?_eq_none h]
  rfl

end Program

/-! ## Timers -/

namespace Timer
open Program

variable {p : Program} {s : Instrumentation} {stash : Temp} {slot i : Nat} {v x h : Vertex}
  {exits : List Vertex}

theorem rebodied_recordAt : Rebodied p (recordAt s stash slot p x) := by
  have hu : Revised (fun v b => { b with
      body := if v = x then topped (record s stash slot p.temps) b.body else b.body }) p
      (p.update x (insertAtTop (record s stash slot p.temps))) :=
    (revised_update (c := insertAtTop (record s stash slot p.temps)) fun _ => rfl).congr
      fun v b _ => by by_cases hv : v = x <;> simp [hv, insertAtTop_eq]
  have hq : (recordAt s stash slot p x).funcs =
      (p.update x (insertAtTop (record s stash slot p.temps))).funcs := rfl
  exact Rebodied.of_revised (hu.trans (Revised.of_funcs hq))

theorem body_recordAt (hx : x.id ∈ p.ids x.func) : (recordAt s stash slot p x).body v =
    if v = x then topped (record s stash slot p.temps) (p.body v) else p.body v := by
  have hb : (recordAt s stash slot p x).block? v =
      (p.update x (insertAtTop (record s stash slot p.temps))).block? v := rfl
  rw [body, hb, block?_update (c := insertAtTop (record s stash slot p.temps)) fun _ => rfl, body]
  by_cases hv : v = x
  · obtain ⟨b, hb⟩ := exists_block? hx
    simp [hv, hb, insertAtTop_eq]
  · simp [hv]

theorem rebodied_records : Rebodied p (exits.foldl (recordAt s stash slot) p) := by
  induction exits generalizing p with
  | nil => exact Rebodied.refl
  | cons x xs ih => exact rebodied_recordAt.trans ih

theorem temps_records :
    (exits.foldl (recordAt s stash slot) p).temps = p.temps + 4 * exits.length := by
  induction exits generalizing p with
  | nil => rfl
  | cons x xs ih =>
    rw [List.foldl_cons, ih, List.length_cons]
    show p.temps + 4 + 4 * xs.length = p.temps + 4 * (xs.length + 1)
    omega

theorem body_records (hx : ∀ x ∈ exits, x.id ∈ p.ids x.func) (hn : exits.Nodup) :
    (exits.foldl (recordAt s stash slot) p).body v =
      topped (if v ∈ exits then record s stash slot (p.temps + 4 * exits.idxOf v) else [])
        (p.body v) := by
  induction exits generalizing p with
  | nil => exact (topped_nil _).symm
  | cons x xs ih =>
    obtain ⟨hxs, hn⟩ := List.nodup_cons.1 hn
    have hx' := hx x List.mem_cons_self
    have hr : Rebodied p (recordAt s stash slot p x) := rebodied_recordAt
    rw [List.foldl_cons, ih (fun y hy => by rw [hr.ids]; exact hx y (List.mem_cons_of_mem x hy)) hn,
      body_recordAt hx']
    by_cases hv : v = x
    · subst hv
      simp [hxs, topped_nil]
    · have ht : (recordAt s stash slot p x).temps = p.temps + 4 := rfl
      have hidx : (x :: xs).idxOf v = xs.idxOf v + 1 := by
        rw [List.idxOf_cons_ne _ (Ne.symm hv)]
      simp only [hv, if_false, List.mem_cons, false_or, ht, hidx]
      congr 3
      omega

/-! ### The whole timer -/

abbrev stashOf (p : Program) : Temp := Temp.fresh p.temps .i64Ptr

abbrev clockOf (p : Program) : Temp := Temp.fresh (p.temps + 1) .i64

abbrev allocate (stash : Temp) : Instr := .alloca stash .i64 (.int 1)

theorem insertStash_eq {f : Func} (hn : f.ids.Nodup) (he : f.ids.head? = some 0) :
    insertStash stash f = f.update 0 (·.insertAt 0 [allocate stash]) := by
  cases f with
  | mk name ret params total blocks =>
    cases blocks with
    | nil => simp [Func.ids] at he
    | cons b bs =>
      simp only [Func.ids, List.map_cons, List.head?_cons, Option.some.injEq,
        List.nodup_cons] at he hn
      have hrest : bs.map (fun c => if c.id = 0 then c.insertAt 0 [allocate stash] else c) =
          bs.map id := List.map_congr_left fun c hc => by
        have hne : c.id ≠ 0 := fun h => hn.1 (by rw [he, ← h]; exact List.mem_map_of_mem hc)
        exact if_neg hne
      simp only [insertStash, Func.update, List.map_cons, he, if_true, hrest, List.map_id]

theorem modify_insertStash (hp : p.Proper) (hi : i < p.funcs.length) :
    p.funcs.modify i (insertStash stash) =
      (p.update (root i) (·.insertAt 0 [allocate stash])).funcs := by
  have he := hp.entry i hi
  have hn := hp.nodup i
  rw [ids_eq (List.getElem?_eq_getElem hi)] at he hn
  show p.funcs.modify i _ = p.funcs.modify i _
  refine List.ext_getElem? fun j => ?_
  rw [List.getElem?_modify, List.getElem?_modify]
  by_cases hj : i = j
  · subst hj
    rw [List.getElem?_eq_getElem hi]
    simpa using insertStash_eq hn he
  · simp [hj]

section
variable (hp : p.Proper) (hi : i < p.funcs.length)
include hp hi

/-- The body of a block once the stash is allocated and the sample is put by at the header. -/
private def sampled (p : Program) (i : Nat) (s : Instrumentation) (h v : Vertex) (body : List Instr) :
    List Instr :=
  topped (if v = h then putBy s (stashOf p) (clockOf p) else [])
    ((if v = root i then [allocate (stashOf p)] else []) ++ body)

omit hp hi in
private def stage (p : Program) (i : Nat) (s : Instrumentation) (h : Vertex) : Program :=
  ({ p with funcs := p.funcs.modify i (insertStash (stashOf p)), temps := p.temps + 2 } : Program).update
    h (insertAtTop (putBy s (stashOf p) (clockOf p)))

private theorem revised_stage :
    Revised (fun v b => { b with body := sampled p i s h v b.body }) p (stage p i s h) := by
  have hq : ({ p with
      funcs := p.funcs.modify i (insertStash (stashOf p)), temps := p.temps + 2 } : Program).funcs =
        (p.update (root i) (·.insertAt 0 [allocate (stashOf p)])).funcs :=
    modify_insertStash hp hi
  have hu := ((revised_update (p := p) (v := root i)
    (c := (·.insertAt 0 [allocate (stashOf p)])) fun _ => rfl).trans (Revised.of_funcs hq)).trans
    (revised_update (v := h) (c := insertAtTop (putBy s (stashOf p) (clockOf p))) fun _ => rfl)
  refine hu.congr fun v b _ => ?_
  have hstash : (if v = root i then b.insertAt 0 [allocate (stashOf p)] else b) =
      { b with body := (if v = root i then [allocate (stashOf p)] else []) ++ b.body } := by
    by_cases hr : v = root i
    · simp only [if_pos hr, Block.insertAt, List.take_zero, List.nil_append, List.drop_zero]
    · simp only [if_neg hr, List.nil_append]
  rw [hstash]
  by_cases hv : v = h
  · simp only [if_pos hv, insertAtTop_eq, sampled]
  · simp only [if_neg hv, sampled, topped_nil]

theorem rebodied_place : Rebodied p (place p i s slot h exits) :=
  (Rebodied.of_revised (revised_stage hp hi)).trans rebodied_records

omit hp hi in
theorem temps_place : (place p i s slot h exits).temps = p.temps + 2 + 4 * exits.length :=
  temps_records

/-- All that timing a loop adds, block by block. -/
theorem body_place (hv : v.id ∈ p.ids v.func) (hx : ∀ x ∈ exits, x.id ∈ p.ids x.func)
    (hn : exits.Nodup) : (place p i s slot h exits).body v =
      topped (if v ∈ exits
          then record s (stashOf p) slot (p.temps + 2 + 4 * exits.idxOf v) else [])
        (topped (if v = h then putBy s (stashOf p) (clockOf p) else [])
          ((if v = root i then [allocate (stashOf p)] else []) ++ p.body v)) := by
  have hst := revised_stage (s := s) (h := h) hp hi
  have hb : (stage p i s h).body v = sampled p i s h v (p.body v) := by
    obtain ⟨b, hb⟩ := exists_block? hv
    simp [body, hst.block?, hb]
  have ht : (stage p i s h).temps = p.temps + 2 := rfl
  rw [← ht]
  show (exits.foldl (recordAt s (stashOf p) slot) (stage p i s h)).body v = _
  rw [body_records (fun x h => hst.ids x.func ▸ hx x h) hn, hb, sampled]

end

end Timer

/-! ## Reports -/

namespace Program

/-- Reports are added at the ends of some blocks that return, behind all else. -/
structure Reported (call : Instr) (p q : Program) : Prop where
  rebodied : Rebodied p q
  temps : q.temps = p.temps
  body : ∀ v, q.body v = p.body v ∨
    q.body v = p.body v ++ [call] ∧ (p.jump v).any Terminator.isRet = true

theorem Reported.refl {call : Instr} {p : Program} : Reported call p p :=
  ⟨Rebodied.refl, rfl, fun _ => .inl rfl⟩

theorem func?_of_funcIdx? {p : Program} {name : String} {i : Nat} (h : p.funcIdx? name = some i) :
    p.func? name = p.funcs[i]? := by
  rw [func?, List.find?_eq_bind_findIdx?_getElem?]
  exact congrArg (Option.bind · (p.funcs[·]?)) h

end Program

namespace Report
open Program

variable {p : Program} {s : Instrumentation} {slots : Nat} {entry : String}

theorem insertInto_eq (b : Block) : insertInto s slots b =
    { b with body := b.body ++ if isMissing s b then [call s slots] else [] } := by
  rw [insertInto]
  split <;> simp

/-- Nothing is done, or each block of one function gets the report that it lacks. -/
theorem insert_cases (p : Program) (s : Instrumentation) (slots : Nat) (entry : String) :
    (insert p s slots entry).val = (.noChange, p) ∨ ∃ i f, p.funcs[i]? = some f ∧
      (insert p s slots entry).val = (.ofBool !(f.blocks.filter (isMissing s)).isEmpty,
        { p with
          funcs := p.funcs.modify i fun f => { f with blocks := f.blocks.map (insertInto s slots) } }) := by
  rw [insert]
  split
  · exact .inl rfl
  split
  · next i f hi hf =>
    have hf : p.funcs[i]? = some f := (func?_of_funcIdx? hi).symm.trans hf
    refine .inr ⟨i, f, hf, ?_⟩
    rw [List.modify_eq_set_getElem?, hf]
    rfl
  · exact .inl rfl

theorem revised_insert {i : Nat} {f : Func} (hf : p.funcs[i]? = some f) :
    Revised (fun v b => { b with
      body := b.body ++ if v.func = i ∧ isMissing s b then [call s slots] else [] }) p
      { p with funcs := p.funcs.set i { f with blocks := f.blocks.map (insertInto s slots) } } := by
  obtain ⟨hlt, hfi⟩ := List.getElem?_eq_some_iff.1 hf
  have hid : ∀ b : Block, (insertInto s slots b).id = b.id := fun b => by rw [insertInto_eq]
  refine ⟨fun j => ?_, fun j => ?_, fun v => ?_⟩
  · rw [bare?, bare?, List.getElem?_set]
    split
    · next hj => simp [← hj, hlt, hfi, Func.bare]
    · rfl
  · rw [Program.ids, Program.ids, List.getElem?_set]
    split
    · next hj => simp [← hj, hlt, hfi, Func.ids, Function.comp_def, hid]
    · rfl
  · rw [Program.block?, Program.block?, List.getElem?_set]
    split
    · next hj =>
      simp only [hj ▸ hf, Option.bind_some, Func.block?, find?_map_of_id hid]
      refine Option.map_congr fun b _ => ?_
      rw [insertInto_eq]
      simp [hj]
    · next hj =>
      have hji : v.func ≠ i := fun h => hj h.symm
      simp [hji]

private theorem reported_of_revised {q : Program} {cond : Vertex → Block → Prop}
    [∀ v b, Decidable (cond v b)] {c : Instr} (hret : ∀ v b, cond v b → b.isRet = true)
    (h : Revised (fun v b => { b with body := b.body ++ if cond v b then [c] else [] }) p q)
    (ht : q.temps = p.temps) :
    Reported c p q := by
  refine ⟨Rebodied.of_revised h, ht, fun v => ?_⟩
  rw [Program.body, h.block?, Program.body, Program.jump]
  cases hb : p.block? v with
  | none => exact .inl rfl
  | some b =>
    by_cases hc : cond v b
    · exact .inr ⟨by simp [hc], hret v b hc⟩
    · exact .inl (by simp [hc])

theorem reported_insert : Reported (call s slots) p (insert p s slots entry).val.2 := by
  rw [insert]
  split
  · exact Reported.refl
  split
  · next i f hi hf =>
    refine reported_of_revised (fun v b h => ?_)
      (revised_insert ((func?_of_funcIdx? hi).symm.trans hf)) rfl
    exact (Bool.and_eq_true_iff.1 h.2).1
  · exact Reported.refl

end Report

end LoopClock
