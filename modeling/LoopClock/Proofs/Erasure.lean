import LoopClock.Proofs.Run.Standard
import LoopClock.Proofs.Run.Tracks

/-! Instrumentation is a conservative extension: what a standard run adds can be told apart, and without
it the program is the one that was there before. -/
namespace LoopClock
open Graph Program

namespace Program

variable {c : Config} {p₀ p q : Program} {ts : List Timing} {i : Nat} {l : Loop} {e v : Vertex}

/-- A local temporary whose name does not occur in the program. -/
def isNew (p : Program) (t : Temp) : Bool := !t.isGlobal && decide (t.name ∉ p.names)

/-- Whether the instruction defines a new temporary or stores through one. -/
def isInserted (p : Program) (x : Instr) : Bool := x.target?.any p.isNew || x.stored?.any p.isNew

/-- The label of `p` that control comes to by a label of function `i` in `q`: a new block is passed
through. -/
def landing (p q : Program) (i : Nat) (l : Label) : Label :=
  match l.id? with
  | none => l
  | some n =>
    if n ∈ p.ids i then l
    else match q.jump ⟨i, n⟩ with
      | some (.jump m) => m
      | _ => l

/-- `q` is `p` with inserted instructions, new blocks on some edges and calls of the report routine. -/
structure Extends (call : Instr) (p q : Program) : Prop where
  signatures : q.signatures = p.signatures
  layout : ∀ i, (q.ids i).filter (· ∈ p.ids i) = p.ids i
  /-- Without the inserted instructions a block is what it was, but for a report at its end. -/
  body : ∀ v, v.id ∈ p.ids v.func → ∃ body calls, q.body v = body ++ calls ∧
    body.filter (!p.isInserted ·) = p.body v ∧ (calls = [] ∨ calls = [call])
  phis : ∀ v, v.id ∈ p.ids v.func →
    (q.phis v).map (·.target) = (p.phis v).map (·.target)
  jump : ∀ v, v.id ∈ p.ids v.func →
    (q.jump v).map (.relabel (p.landing q v.func)) = p.jump v
  /-- A new block holds phis and inserted instructions and goes on to an old block. -/
  added : ∀ v, v.id ∈ q.ids v.func → v.id ∉ p.ids v.func →
    (∀ x ∈ q.body v, p.isInserted x = true) ∧
      ∃ l j, q.jump v = some (.jump l) ∧ l.id? = some j ∧ j ∈ p.ids v.func

/-! ## Bodies -/

theorem isNew_eq_false {x : Instr} {t : Temp} (hp : ∀ i, (p.ids i).Nodup) (hx : x ∈ p.body v)
    (ht : t ∈ x.target?.toList ++ x.reads) : p.isNew t = false := by
  cases hg : t.isGlobal with
  | true => simp [isNew, hg]
  | false =>
    have hocc : p.Occurs t.name := .body v x hx (mem_localNames.2 ⟨t, ht, hg, rfl⟩)
    simp [isNew, (mem_names hp).2 hocc]

theorem isInserted_eq_false {x : Instr} (hp : ∀ i, (p.ids i).Nodup) (hx : x ∈ p.body v) :
    p.isInserted x = false := by
  rw [isInserted, Bool.or_eq_false_iff, Option.any_eq_false, Option.any_eq_false]
  constructor
  · intro t ht
    rw [isNew_eq_false hp hx (List.mem_append_left _ (Option.mem_toList.2 ht))]
  · intro t ht
    rw [isNew_eq_false hp hx (List.mem_append_right _ (Instr.mem_reads_of_stored? ht))]

section
variable (h₀ : p₀.Proper) (hn : p₀.Numbered)
include h₀ hn

theorem isNew_fresh {k : Nat} (hk : p₀.temps ≤ k) (hlt : k + 1 < 0x100000000) (ty : Ty) :
    p₀.isNew (.fresh k ty) = true := by
  have hnew : Numeral.nat (k + 1) ∉ p₀.names := by
    rw [mem_names h₀.nodup]
    exact hn.fresh Grows.refl hk hlt
  exact decide_eq_true hnew

theorem isInserted_added {s : Instrumentation} {slot n : Nat} {x : Instr}
    (hle : p₀.temps ≤ p.temps) (hlt : p.temps + 2 + 4 * n < 0x100000000)
    (hx : Timer.Added p s slot n x) : p₀.isInserted x = true := by
  have fresh : ∀ k, p.temps ≤ k → k < p.temps + 2 + 4 * n → ∀ ty, p₀.isNew (.fresh k ty) = true :=
    fun k hk hkn => isNew_fresh h₀ hn (by omega) (by omega)
  have target : ∀ x t, Instr.target? x = some t → p₀.isNew t = true → p₀.isInserted x = true :=
    fun x t hx ht => by simp [isInserted, hx, ht]
  have store : ∀ v t, p₀.isNew t = true → p₀.isInserted (.store v (.temp t)) = true :=
    fun v t ht => by simp [isInserted, Instr.stored?, Value.temp?, ht]
  rcases hx with rfl | hx | ⟨k, hk, hx⟩
  · exact target _ _ rfl (fresh p.temps (by omega) (by omega) _)
  · simp only [Timer.putBy, List.mem_cons, List.not_mem_nil, or_false] at hx
    rcases hx with rfl | rfl
    · exact target _ _ rfl (fresh (p.temps + 1) (by omega) (by omega) _)
    · exact store _ _ (fresh p.temps (by omega) (by omega) _)
  · simp only [Timer.record, List.mem_cons, List.not_mem_nil, or_false] at hx
    rcases hx with rfl | rfl | rfl | rfl | rfl
    · exact target _ _ rfl (fresh _ (by omega) (by omega) _)
    · exact target _ _ rfl (fresh _ (by omega) (by omega) _)
    · exact target _ _ rfl (fresh _ (by omega) (by omega) _)
    · exact target _ _ rfl (fresh _ (by omega) (by omega) _)
    · exact store _ _ (fresh _ (by omega) (by omega) _)

/-- Without the inserted instructions the bodies are what they were. -/
theorem filter_body (h : Steps c p₀ p ts) (hlt : p.temps < 0x100000000) (v : Vertex) :
    (p.body v).filter (!p₀.isInserted ·) = p₀.body v := by
  induction h with
  | start =>
    refine List.filter_eq_self.2 fun x hx => ?_
    rw [isInserted_eq_false h₀.nodup hx]
    rfl
  | declare _ funcs temps ih =>
    rw [(Revised.of_funcs funcs).body fun _ _ => rfl]
    exact ih (temps ▸ hlt)
  | split steps site split ih =>
    have C := site.cut (steps.proper h₀)
    have hle := (C.grows split).le
    rw [C.body_eq split]
    exact ih (by omega)
  | @place p ts i l len slot steps func loop own ih =>
    have hp := steps.proper h₀
    have hle := (steps.grows h₀).le
    rw [Timer.temps_place] at hlt
    obtain ⟨as, bs, cs, heq, hadd⟩ := @Timer.exists_body_place p i slot (.ofConfig c len) l.header
      (p.exitBlocks l) hp func (HasLoop.exit_mem_ids hp loop) (HasLoop.nodup_exitBlocks hp loop) v
    have hins : ∀ x ∈ as ++ bs ++ cs, (!p₀.isInserted x) = false := fun x hx => by
      rw [isInserted_added h₀ hn hle hlt (hadd x hx)]
      rfl
    rw [heq, filter_added hins]
    exact ih (by omega)

end

/-! ## Layout and phis -/

theorem mem_ids_iff_le (h : Steps c p₀ p ts) (h₀ : p₀.Proper) {j : Int} (hj : j ∈ p.ids i) :
    j ∈ p₀.ids i ↔ j ≤ p₀.total i := by
  rw [← h.layout_eq h₀ i]
  simp [hj]

theorem filter_ids (h : Steps c p₀ p ts) (h₀ : p₀.Proper) (i : Nat) :
    (p.ids i).filter (· ∈ p₀.ids i) = p₀.ids i := by
  have heq := h.layout_eq h₀ i
  rw [List.filter_congr fun j hj => decide_eq_decide.2 (mem_ids_iff_le h h₀ hj)]
  exact heq

theorem targets_phis (h : Steps c p₀ p ts) (h₀ : p₀.Proper) (hv : v.id ≤ p₀.total v.func) :
    (p.phis v).map (·.target) = (p₀.phis v).map (·.target) := by
  induction h with
  | start => rfl
  | declare steps funcs _ ih => rw [(Rebodied.of_funcs funcs).phis, ih]
  | @split p q ts i l e steps site split ih =>
    have hp := steps.proper h₀
    have C := site.cut hp
    have hne : v ≠ p.nextVertex i := fun hvn => by
      have hid := C.id_eq
      have hle := steps.total_le h₀ v.func
      rw [← hvn] at hid
      omega
    rw [C.phis_eq split, if_neg hne]
    split
    · next hve =>
      rw [(reroutedAll_splitPhis p e (p.nextVertex i) (p.leaving l e)).targets, ← hve, ih]
    · exact ih
  | place steps func _ _ ih =>
    rw [(Timer.rebodied_place (steps.proper h₀) func).phis, ih]

/-! ## Terminators -/

theorem landing_of_old {f : Nat} {k : Label} {j : Int} (hk : k.id? = some j) (hj : j ∈ p.ids f) :
    p.landing q f k = k := by
  rw [landing, hk]
  simp only [hj, if_true]

theorem landing_of_new {f : Nat} {k m : Label} {j : Int} (hk : k.id? = some j)
    (hj : j ∉ p.ids f) (hm : q.jump ⟨f, j⟩ = some (.jump m)) : p.landing q f k = m := by
  rw [landing, hk]
  simp only [hj, if_false, hm]

/-- Control lands where it did, and the terminators of new blocks lead to old ones. -/
structure Landed (p₀ p : Program) : Prop where
  old : ∀ v, v.id ∈ p₀.ids v.func → (p.jump v).map (.relabel (p₀.landing p v.func)) = p₀.jump v
  new : ∀ v, v.id ∈ p.ids v.func → v.id ∉ p₀.ids v.func →
    ∃ l j, p.jump v = some (.jump l) ∧ l.id? = some j ∧ j ∈ p₀.ids v.func

theorem landed_start (hres : ∀ v t, p.jump v = some t → ∀ l ∈ t.targets,
    ∃ j ∈ p.ids v.func, l.id? = some j) : Landed p p where
  old v _ := by
    cases hj : p.jump v with
    | none => rfl
    | some t =>
      have hfix : t.relabel (p.landing p v.func) = t.relabel fun k => k :=
        Terminator.relabel_congr fun k hk => by
          obtain ⟨j, hjm, hid⟩ := hres v t hj k hk
          exact landing_of_old hid hjm
      rw [Option.map_some, hfix, Terminator.relabel_id]
  new v hv hnew := absurd hv hnew

theorem Landed.rebodied (h : Landed p₀ p) (hr : Rebodied p q) : Landed p₀ q := by
  have hland : p₀.landing q = p₀.landing p := by
    funext f k
    rw [landing, landing, hr.jump]
  refine ⟨?_, ?_⟩
  · rw [hr.jump, hland]
    exact h.old
  · simp only [hr.jump, hr.ids]
    exact h.new

section
variable (h : Steps c p₀ p ts) (h₀ : p₀.Proper) (X : SharedExit p₀ p ts i l e)
  (S : Split p e (p.nextVertex i) (p.leaving l e) q) (L : Landed p₀ p)
include h h₀ X

theorem new_not_old : (p.nextVertex i).id ∉ p₀.ids i := fun hm => by
  have hid := (X.cut (h.proper h₀)).id_eq
  have hle := h.total_le h₀ i
  have hb := (h₀.bound i _ hm).2
  have hf : (p.nextVertex i).func = i := rfl
  rw [hf] at hid
  omega

theorem exit_old_id : e.id ∈ p₀.ids i := by
  have hp := h.proper h₀
  have hm := (X.cut hp).mem_ids
  rw [X.exit_func hp] at hm
  exact (mem_ids_iff_le h h₀ hm).2 X.old_exit

theorem leaving_old_id {a : Vertex} (ha : a ∈ p.leaving l e) : a.func = i ∧ a.id ∈ p₀.ids i := by
  have hp := h.proper h₀
  have he := (X.cut hp).edge a ha
  have hm := hp.edge_source he
  rw [X.exit_func hp] at hm
  exact ⟨(hp.func_eq a e he).symm.trans (X.exit_func hp),
    (mem_ids_iff_le h h₀ hm).2 (X.old_preds a ha)⟩

include S in
theorem jump_of_new {f : Nat} {j : Int} (hj : j ∈ p.ids f) (hnew : j ∉ p₀.ids f) :
    q.jump ⟨f, j⟩ = p.jump ⟨f, j⟩ := by
  have C := X.cut (h.proper h₀)
  have hn : (⟨f, j⟩ : Vertex) ≠ p.nextVertex i := fun heq => by
    have hn := C.new_not_mem
    rw [← heq] at hn
    exact hn hj
  have hpred : (⟨f, j⟩ : Vertex) ∉ p.leaving l e := fun hm => by
    obtain ⟨rfl, hid⟩ := leaving_old_id h h₀ X hm
    exact hnew hid
  rw [C.jump_eq S, if_neg hn, if_neg hpred]

include S in
/-- Labels that lead to a block lead on as they did. -/
theorem landing_split {f : Nat} {k : Label} {j : Int} (hk : k.id? = some j) (hj : j ∈ p.ids f) :
    p₀.landing q f k = p₀.landing p f k := by
  by_cases hold : j ∈ p₀.ids f
  · rw [landing_of_old hk hold, landing_of_old hk hold]
  · rw [landing, landing, hk]
    simp only [hold, if_false, jump_of_new h h₀ X S hj hold]

variable (hfit : ∀ i, q.total i < 0x80000000)
include S hfit

/-- Led through the new block, control lands at the exit as before. -/
theorem landing_rerouted {f : Nat} {k : Label} {j : Int} (hf : f = i) (hk : k.id? = some j)
    (hj : j ∈ p.ids f) :
    p₀.landing q f (if k = e.label then (p.nextVertex i).label else k) = p₀.landing p f k := by
  subst hf
  have C := X.cut (h.proper h₀)
  split
  · next hke =>
    have hjump : q.jump ⟨f, (p.nextVertex f).id⟩ = some (.jump e.label) :=
      (C.jump_eq S).trans (if_pos rfl)
    rw [landing_of_new (C.id?_label_new S (hfit f)) (new_not_old h h₀ X) hjump, hke,
      landing_of_old (C.id?_label_target S (hfit f)) (exit_old_id h h₀ X)]
  · exact landing_split h h₀ X S hk hj

include L

variable (hres : ∀ v t, p.jump v = some t → ∀ l ∈ t.targets, ∃ j ∈ p.ids v.func, l.id? = some j)
include hres

theorem relabel_split {v : Vertex} (hv : v.id ∈ p₀.ids v.func) :
    (q.jump v).map (.relabel (p₀.landing q v.func)) = p₀.jump v := by
  have hvn : v ≠ p.nextVertex i := fun hvn => new_not_old h h₀ X (by rw [hvn] at hv; exact hv)
  rw [← L.old v hv, (X.cut (h.proper h₀)).jump_eq S, if_neg hvn]
  cases hj : p.jump v with
  | none => split <;> rfl
  | some t =>
    split
    · next hvp =>
      rw [Option.map_some, Option.map_some, Option.map_some, Terminator.retarget_eq_relabel,
        Terminator.relabel_relabel]
      refine congrArg some (Terminator.relabel_congr fun k hk => ?_)
      obtain ⟨j, hjm, hid⟩ := hres v t hj k hk
      exact landing_rerouted h h₀ X S hfit (leaving_old_id h h₀ X hvp).1 hid hjm
    · refine congrArg some (Terminator.relabel_congr fun k hk => ?_)
      obtain ⟨j, hjm, hid⟩ := hres v t hj k hk
      exact landing_split h h₀ X S hid hjm

theorem Landed.split : Landed p₀ q := by
  have C := X.cut (h.proper h₀)
  refine ⟨fun v hv => relabel_split h h₀ X S L hfit hres hv, fun v hv hnew => ?_⟩
  rcases S.mem_ids_iff.1 hv with hvp | ⟨hf, hid⟩
  · rw [show v = ⟨v.func, v.id⟩ from rfl, jump_of_new h h₀ X S hvp hnew]
    exact L.new v hvp hnew
  · have hvn : v = p.nextVertex i := Vertex.ext hf hid
    refine ⟨e.label, e.id, ?_, C.id?_label_target S (hfit i), hvn ▸ exit_old_id h h₀ X⟩
    rw [C.jump_eq S, if_pos hvn]

end

theorem landed (h : Steps c p₀ p ts) (hp : Source.Wellformed p₀)
    (hfit : ∀ i, p.total i < 0x80000000) : Landed p₀ p := by
  have h₀ := hp.proper
  induction h with
  | start => exact landed_start hp.resolved
  | declare _ funcs _ ih =>
    have hr := Rebodied.of_funcs funcs
    exact (ih fun i => hr.total i ▸ hfit i).rebodied hr
  | @split p q ts i l e steps site split ih =>
    have hp₁ := steps.proper h₀
    have hfit₁ : ∀ j, p.total j < 0x80000000 := fun j =>
      Int.lt_of_le_of_lt ((site.cut hp₁).total_le split j) (hfit j)
    have T := (tracks_start hp.printed).steps h₀ steps hfit₁
    exact Landed.split steps h₀ site split (ih hfit₁) hfit fun v t ht l hl =>
      T.resolved hp hp₁ hfit₁ ht hl
  | @place p ts i l len slot steps func _ _ ih =>
    have hr : Rebodied p (Timer.place p i (.ofConfig c len) slot l.header (p.exitBlocks l)) :=
      Timer.rebodied_place (steps.proper h₀) func
    exact (ih fun i => hr.total i ▸ hfit i).rebodied hr

/-- The outcome of a run is its start with additions that can be told apart. -/
theorem extends_of_steps {call : Instr} (hp : Source.Wellformed p₀) (hfit : q.Fits)
    (h : Steps c p₀ p ts) (hr : Reported call p q) : Extends call p₀ q := by
  have h₀ := hp.proper
  have hq := hr.rebodied
  have hlt : p.temps < 0x100000000 := hr.temps ▸ hfit.2
  have htotal : ∀ i, p.total i < 0x80000000 := fun i => hq.total i ▸ hfit.total_lt i
  have L := (landed h hp htotal).rebodied hq
  have hbody := filter_body h₀ hp.numbered h hlt
  constructor
  · exact hq.signatures.trans (h.signatures h₀)
  · intro i
    rw [hq.ids]
    exact filter_ids h h₀ i
  · intro v _
    rcases hr.body v with hb | ⟨hb, _⟩
    · exact ⟨p.body v, [], by rw [hb, List.append_nil], hbody v, .inl rfl⟩
    · exact ⟨p.body v, [call], hb, hbody v, .inr rfl⟩
  · intro v hv
    rw [hq.phis]
    exact targets_phis h h₀ (h₀.bound _ _ hv).2
  · exact L.old
  · intro v hv hnew
    obtain ⟨l, j, hj, hid, hold⟩ := L.new v hv hnew
    have hsame : q.body v = p.body v := by
      rcases hr.body v with hb | ⟨_, hret⟩
      · exact hb
      · rw [← hq.jump, hj] at hret
        cases hret
    have hnone := hbody v
    rw [body_eq_nil hnew, List.filter_eq_nil_iff] at hnone
    refine ⟨fun x hx => ?_, l, j, hj, hid, hold⟩
    simpa using hnone x (hsame ▸ hx)

end Program

/-- Whatever is instrumented can be had back from the outcome. -/
theorem exists_extends (m : Manager) (c : Config) (tally : Nat) {txt : String} {p : Program}
    (h : Source.parse txt = .ok p) :
    ∃ r, (m.run none p (.ofModule c tally)).val = .ok r ∧ (r.program.Fits →
      Extends (Report.call (.ofConfig c 0) r.context.slots) p r.program) := by
  have hp := Source.wellformed_of_parse h
  obtain ⟨r, ts, hok, hi⟩ := exists_run m c tally hp.proper
  obtain ⟨p', hsteps, hrep⟩ := hi.changes
  exact ⟨r, hok, fun hfit => extends_of_steps hp hfit hsteps hrep⟩

theorem exists_extends_sharedExit :
    ∃ r, (Manager.pipeline.run none Source.sharedExit (.ofModule {} 0)).val = .ok r ∧
      r.program.Fits ∧
      Extends (Report.call (.ofConfig {} 0) r.context.slots) Source.sharedExit r.program := by
  obtain ⟨r, hr, h⟩ := exists_extends .pipeline {} 0 Source.parse_sharedExit
  have hfit := Source.fits_sharedExit hr
  exact ⟨r, hr, hfit, h hfit⟩

end LoopClock
