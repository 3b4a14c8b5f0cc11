import LoopClock.Proofs.Run.Steps

/-! What a timer leaves in the bodies, and that later changes keep it: every instruction that mentions
its stash, the sample in the header and the records in the exits. -/
namespace LoopClock
open Graph Program

namespace Timing

/-- The temporary that the sample at the header is put by from. -/
abbrev clock (t : Timing) : Temp := Temp.fresh (t.temps + 1) .i64

/-- The number of temporaries before the record in an exit. -/
def before (t : Timing) (exits : List Vertex) (x : Vertex) : Nat := t.temps + 2 + 4 * exits.idxOf x

def mentions (t : Timing) (x : Instr) : Bool := decide (t.stash.name ∈ x.names)

/-- The instructions of a block that mention the stash, in their order. -/
def uses (t : Timing) (exits : List Vertex) (v : Vertex) : List Instr :=
  (if v = root t.func then [Timer.allocate t.stash] else [])
    ++ (if v = t.header then [.store (.temp t.clock) (.temp t.stash)] else [])
    ++ if v ∈ exits then [.load (.fresh (t.before exits v + 1) .i64) .i64 (.temp t.stash)] else []

end Timing

/-- The timer `t` of a loop with these exits stands in `p`, and nothing else mentions its stash. -/
structure Placed (c : Config) (p : Program) (t : Timing) (exits : List Vertex) : Prop where
  mem : ∀ x, x ∈ exits ↔ IsExit p.Edge (root t.func) t.header x
  lt : t.temps < p.temps
  outside : ¬ p.Outside t.stash.name
  uses : ∀ v, (p.body v).filter t.mentions = t.uses exits v
  sample : Timer.putBy (.ofConfig c 0) t.stash t.clock <:+: p.body t.header
  record : ∀ x ∈ exits,
    Timer.record (.ofConfig c 0) t.stash t.slot (t.before exits x) <:+: p.body x

namespace Placed

variable {c : Config} {p₀ p q : Program} {t : Timing} {ts : List Timing} {exits : List Vertex}
  {i : Nat} {l : Loop} {e : Vertex}

/-- Bodies may grow by instructions that do not mention the stash and do not tear anything apart. -/
theorem of_rebodied (h : Placed c p t exits) (hr : Rebodied p q) (ht : p.temps ≤ q.temps)
    (hfilter : ∀ v, (q.body v).filter t.mentions = (p.body v).filter t.mentions)
    (hwhole : ∀ v x xs, x.isAlloca = false → (x :: xs) <:+: p.body v → (x :: xs) <:+: q.body v) :
    Placed c q t exits where
  mem := hr.edge ▸ h.mem
  lt := Nat.lt_of_lt_of_le h.lt ht
  outside ho := h.outside (hr.outside ho)
  uses v := (hfilter v).trans (h.uses v)
  sample := hwhole _ _ _ rfl h.sample
  record x hx := hwhole _ _ _ rfl (h.record x hx)

theorem declare (h : Placed c p t exits) (hf : q.funcs = p.funcs) (ht : q.temps = p.temps) :
    Placed c q t exits := by
  have hb : q.body = p.body := (Revised.of_funcs hf).body fun _ _ => rfl
  exact h.of_rebodied (.of_funcs hf) (Nat.le_of_eq ht.symm) (fun v => by rw [hb])
    fun v x xs _ hx => by rwa [hb]

theorem report (h : Placed c p t exits) {slots : Nat}
    (hr : Reported (Report.call (.ofConfig c 0) slots) p q) : Placed c q t exits := by
  refine h.of_rebodied hr.rebodied (Nat.le_of_eq hr.temps.symm) (fun v => ?_) fun v x xs _ hx => ?_
  · rcases hr.body v with hb | ⟨hb, _⟩
    · rw [hb]
    · rw [hb, List.filter_append]
      exact List.append_nil _
  · rcases hr.body v with hb | ⟨hb, _⟩
    · rwa [hb]
    · rw [hb]
      exact hx.trans (List.prefix_append _ _).isInfix

/-- Splitting an exit of another loop leaves the exits of the loop alone. -/
theorem split (h : Placed c p t exits) (hp : p.Proper) (X : SharedExit p₀ p ts i l e)
    (S : Split p e (p.nextVertex i) (p.leaving l e) q) (ht : t ∈ ts) (hs : Steps.Settled p t) :
    Placed c q t exits := by
  have hb := (X.cut hp).body_eq S
  have hle := ((X.cut hp).grows S).le
  have hlt := h.lt
  refine ⟨fun x => ?_, by omega, fun ho => ?_, hb ▸ h.uses, hb ▸ h.sample, hb ▸ h.record⟩
  · rw [h.mem]
    by_cases hj : t.func = i
    · obtain ⟨j, t, slot, temps⟩ := t
      obtain rfl : j = i := hj
      exact (ExitReroute.isExit_iff (X.exitReroute hp S) (X.root_ne hp) X.loop.header X.exit
        hs.header (X.outside _ ht rfl) hs.own X.shared).symm
    · exact ((X.agreeOn hp S hj).isExit_iff rfl hs.header).symm
  · rcases (X.cut hp).outside S ho with ho | ⟨k, hk, _, hname⟩
    · exact h.outside ho
    · have := Numeral.nat_injective hname
      omega

theorem not_mentions_added {s : Instrumentation} {slot n : Nat} {x : Instr}
    (hs : s.storage.isGlobal = true) (hlt : t.temps < p.temps) (hx : Timer.Added p s slot n x) :
    t.mentions x = false := by
  rw [Timing.mentions, decide_eq_false_iff_not]
  intro hm
  obtain ⟨k, hk, _, hname⟩ := Timer.names_added hs hx hm
  have := Numeral.nat_injective hname
  omega

/-- Another timer keeps off the stash of this one. -/
theorem place_other (h : Placed c p t exits) (hp : p.Proper) (hi : i < p.funcs.length) {len : Nat}
    {slot : Nat} {k : Vertex} {xs : List Vertex} (hx : ∀ x ∈ xs, x.id ∈ p.ids x.func)
    (hn : xs.Nodup) : Placed c (Timer.place p i (.ofConfig c len) slot k xs) t exits := by
  have hr : Rebodied p (Timer.place p i (.ofConfig c len) slot k xs) := Timer.rebodied_place hp hi
  have ht : (Timer.place p i (.ofConfig c len) slot k xs).temps = p.temps + 2 + 4 * xs.length :=
    Timer.temps_place
  have hbody := @Timer.exists_body_place p i slot (.ofConfig c len) k xs hp hi hx hn
  refine h.of_rebodied hr (by omega) (fun v => ?_) fun v y ys hy hys => ?_
  · obtain ⟨as, bs, cs, heq, hadd⟩ := hbody v
    have hoff : ∀ x ∈ as ++ bs ++ cs, t.mentions x = false := fun x hx =>
      not_mentions_added rfl h.lt (hadd x hx)
    rw [heq, filter_added hoff]
  · obtain ⟨as, bs, cs, heq, _⟩ := hbody v
    rw [heq]
    exact infix_topped hy (infix_topped hy (hys.trans (List.suffix_append _ _).isInfix))

/-- The instructions that a new timer adds, among those that do not mention its stash. -/
private theorem filter_topped_fresh {keep : Instr → Bool} {new slots body : List Instr}
    (hslots : ∀ x ∈ slots, x.isAlloca = true) (hbody : body.filter keep = []) :
    (topped new (slots ++ body)).filter keep = slots.filter keep ++ new.filter keep := by
  have hnone := List.filter_eq_nil_iff.1 hbody
  have htake : (body.takeWhile Instr.isAlloca).filter keep = [] :=
    List.filter_eq_nil_iff.2 fun x hx => hnone x ((List.takeWhile_prefix _).subset hx)
  have hdrop : (body.dropWhile Instr.isAlloca).filter keep = [] :=
    List.filter_eq_nil_iff.2 fun x hx => hnone x ((List.dropWhile_suffix _).subset hx)
  rw [topped, List.takeWhile_append_of_pos hslots, List.dropWhile_append_of_pos hslots]
  simp only [List.filter_append, htake, hdrop, List.append_nil]

theorem not_mentions_of_names {x : Instr} (ks : List Nat)
    (hx : x.names = ks.map fun k => Numeral.nat (k + 1)) (hk : ∀ k ∈ ks, t.temps < k) :
    t.mentions x = false := by
  rw [Timing.mentions, decide_eq_false_iff_not, hx]
  intro hm
  obtain ⟨k, hkm, hname⟩ := List.mem_map.1 hm
  have := Numeral.nat_injective hname
  have := hk k hkm
  omega

theorem filter_mentions_putBy (t : Timing) :
    (Timer.putBy (.ofConfig c 0) t.stash t.clock).filter t.mentions =
      [.store (.temp t.clock) (.temp t.stash)] := by
  have hcall : t.mentions (Timer.sampleClock (.ofConfig c 0) t.clock) = false :=
    not_mentions_of_names [t.temps + 1] rfl (by simp)
  have hstore : t.mentions (.store (.temp t.clock) (.temp t.stash)) = true :=
    decide_eq_true (List.mem_cons_of_mem _ List.mem_cons_self)
  rw [Timer.putBy, List.filter_cons_of_neg (by simp [hcall]), List.filter_cons_of_pos hstore,
    List.filter_nil]

theorem filter_mentions_record {k slot : Nat} (hk : t.temps < k) :
    (Timer.record (.ofConfig c 0) t.stash slot k).filter t.mentions =
      [.load (.fresh (k + 1) .i64) .i64 (.temp t.stash)] := by
  have hcall : t.mentions (Timer.sampleClock (.ofConfig c 0) (.fresh k .i64)) = false :=
    not_mentions_of_names [k] rfl (by simp [hk])
  have hload : t.mentions (.load (.fresh (k + 1) .i64) .i64 (.temp t.stash)) = true :=
    decide_eq_true (List.mem_cons_of_mem _ List.mem_cons_self)
  have hsub : t.mentions (.arith (.fresh (k + 2) .i64) .sub .i64 (.temp (.fresh k .i64))
      (.temp (.fresh (k + 1) .i64))) = false :=
    not_mentions_of_names [k + 2, k, k + 1] rfl fun j hj => by simp at hj; omega
  have hgep : t.mentions (.gep (.fresh (k + 3) .i64Ptr) .i64
      (.temp (Instrumentation.ofConfig c 0).storage) (.int (Int32.ofNat slot))) = false :=
    not_mentions_of_names [k + 3] rfl fun j hj => by simp at hj; omega
  have hstore : t.mentions (.store (.temp (.fresh (k + 2) .i64)) (.temp (.fresh (k + 3) .i64Ptr))) =
      false := not_mentions_of_names [k + 2, k + 3] rfl fun j hj => by simp at hj; omega
  rw [Timer.record, List.filter_cons_of_neg (by simp [hcall]), List.filter_cons_of_pos hload,
    List.filter_cons_of_neg (by simp [hsub]), List.filter_cons_of_neg (by simp [hgep]),
    List.filter_cons_of_neg (by simp [hstore]), List.filter_nil]

private theorem infix_topped_self (new body : List Instr) : new <:+: topped new body :=
  ⟨_, _, rfl⟩

section
variable (h₀ : p₀.Proper) (hn : p₀.Numbered) (hsteps : Steps c p₀ p ts)
  (hlt : p.temps + 1 < 0x100000000)
include h₀ hn hsteps hlt

private theorem not_occurs_stash (slot : Nat) (k : Vertex) :
    ¬ p.Occurs (Timing.stash ⟨i, k, slot, p.temps⟩).name :=
  hn.fresh (hsteps.grows h₀) (Nat.le_refl _) hlt

private theorem filter_mentions_old (slot : Nat) (k v : Vertex) :
    (p.body v).filter (Timing.mentions ⟨i, k, slot, p.temps⟩) = [] := by
  refine List.filter_eq_nil_iff.2 fun x hx => ?_
  rw [Timing.mentions, decide_eq_true_iff]
  exact fun hm => not_occurs_stash h₀ hn hsteps hlt slot k (.body v x hx hm)

end

/-- A timer that has just been made stands in its place. -/
theorem place (h₀ : p₀.Proper) (hn : p₀.Numbered) (hsteps : Steps c p₀ p ts)
    (hlt : p.temps + 1 < 0x100000000) (hi : i < p.funcs.length) (hl : p.HasLoop i l)
    (own : OwnExits p i l.header) {len slot : Nat} :
    Placed c (Timer.place p i (.ofConfig c len) slot l.header (p.exitBlocks l))
      ⟨i, l.header, slot, p.temps⟩ (p.exitBlocks l) := by
  have hp := hsteps.proper h₀
  have hr : Rebodied p (Timer.place p i (.ofConfig c len) slot l.header (p.exitBlocks l)) :=
    Timer.rebodied_place hp hi
  have ht : (Timer.place p i (.ofConfig c len) slot l.header (p.exitBlocks l)).temps =
    p.temps + 2 + 4 * (p.exitBlocks l).length := Timer.temps_place
  constructor
  · exact hr.edge ▸ fun x => HasLoop.mem_exitBlocks hp hl
  · simp only [ht]
    omega
  · exact fun ho => not_occurs_stash h₀ hn hsteps hlt slot l.header (.outside (hr.outside ho))
  · intro v
    have hold := filter_mentions_old h₀ hn hsteps hlt (i := i) slot l.header v
    by_cases hv : v ∈ p.exitBlocks l
    · have hne : v ≠ l.header := fun h => HasLoop.header_not_exit hp hl (h ▸ hv)
      have hroot : v ≠ root i := (own v ((HasLoop.mem_exitBlocks hp hl).1 hv)).1
      rw [Timer.body_exit hp hi hl own hv, ← List.nil_append (p.body v),
        filter_topped_fresh (by simp) hold, Timing.uses, if_neg hne, if_neg hroot, if_pos hv]
      exact filter_mentions_record (by simp only; omega)
    · have hslots : ∀ x ∈ (if v = root i then [Timer.allocate (Timer.stashOf p)] else []),
          x.isAlloca = true := by
        split <;> simp [Instr.isAlloca]
      rw [Timer.body_inside hp hi hl hv, filter_topped_fresh hslots hold, Timing.uses, if_neg hv,
        List.append_nil]
      refine congrArg₂ (· ++ ·) (filter_ite_of_pos ?_ _) ?_
      · exact decide_eq_true (List.mem_singleton_self _)
      split
      · exact filter_mentions_putBy ⟨i, l.header, slot, p.temps⟩
      · rfl
  · rw [Timer.body_inside hp hi hl (HasLoop.header_not_exit hp hl), if_pos rfl]
    exact infix_topped_self _ _
  · intro x hx
    rw [Timer.body_exit hp hi hl own hx]
    exact infix_topped_self _ _

end Placed

namespace Steps

variable {c : Config} {p₀ p : Program} {ts : List Timing}

/-- Every timer of a run stands in its place until the end. -/
theorem placed (h : Steps c p₀ p ts) (h₀ : p₀.Proper) (hn : p₀.Numbered)
    (hlt : p.temps < 0x100000000) : ∀ t ∈ ts, ∃ exits, Placed c p t exits := by
  induction h with
  | start => exact fun t ht => nomatch ht
  | declare _ funcs temps ih =>
    intro t ht
    obtain ⟨exits, h⟩ := ih (temps ▸ hlt) t ht
    exact ⟨exits, h.declare funcs temps⟩
  | split steps site split ih =>
    intro t ht
    have hp := steps.proper h₀
    have hle := ((site.cut hp).grows split).le
    obtain ⟨exits, h⟩ := ih (by omega) t ht
    exact ⟨exits, h.split hp site split ht (steps.settled h₀ t ht)⟩
  | place steps func loop own ih =>
    intro t ht
    have hp := steps.proper h₀
    rw [Timer.temps_place] at hlt
    rcases List.mem_append.1 ht with ht | ht
    · obtain ⟨exits, h⟩ := ih (by omega) t ht
      exact ⟨exits, h.place_other hp func (HasLoop.exit_mem_ids hp loop)
        (HasLoop.nodup_exitBlocks hp loop)⟩
    · obtain rfl := List.mem_singleton.1 ht
      exact ⟨_, Placed.place h₀ hn steps (by omega) func loop own⟩

end Steps

end LoopClock
