import LoopClock.Proofs.Run.Steps
import LoopClock.Proofs.Ssa.Validity

/-! Timers and reports keep programs valid: what they define is new, and what they read is defined on all
paths there. -/
namespace LoopClock
open Graph Program

variable {c : Config} {p₀ p q : Program} {ts : List Timing} {i : Nat} {l : Loop} {v : Vertex}

/-! ## Declarations and reports -/

theorem Program.defines_refl (hr : Rebodied p q) (hw : ∀ v, writes (q.body v) = writes (p.body v)) :
    Defines p q fun _ => [] where
  params := by
    funext i
    rw [params, params, hr.bare]
  defs v := by
    rw [defs, defs, hr.phis, hw]
    exact List.Perm.refl _
  nodup _ := List.nodup_nil
  apart _ _ _ s hs := nomatch hs
  fresh _ s hs := nomatch hs

theorem Program.Ssa.declared (H : p.Ssa) (hp : p.Proper) (hf : q.funcs = p.funcs) : q.Ssa := by
  have hr := Rebodied.of_funcs hf
  have hb : q.body = p.body := (Revised.of_funcs hf).body fun _ _ => rfl
  have D := defines_refl hr fun v => by rw [hb]
  refine H.rebodied hr D hp (fun v hv => ?_) fun v x hx s hs => ?_
  · rw [hb]
    exact (H.body v hv).mono fun s hs => hs.rebodied hr D
  · exact D.mem_definitions_of (H.defined v s (.body x (hb ▸ hx) hs))

theorem served_call {known : String → Prop} {s : Instrumentation} {slots : Nat}
    (hs : s.storage.isGlobal = true) : Served known [Report.call s slots] := by
  refine served_cons.2 ⟨fun t ht => ?_, served_nil⟩
  obtain ⟨u, hu, hg, -⟩ := mem_localNames.1 ht
  obtain rfl := List.mem_singleton.1 hu
  rw [hs] at hg
  cases hg

theorem Program.Ssa.reported {s : Instrumentation} {slots : Nat} (H : p.Ssa) (hp : p.Proper)
    (hs : s.storage.isGlobal = true) (h : Reported (Report.call s slots) p q) : q.Ssa := by
  have hr := h.rebodied
  have hw : ∀ v, writes (q.body v) = writes (p.body v) := fun v => by
    rcases h.body v with hb | ⟨hb, _⟩
    · rw [hb]
    · rw [hb, writes_append]
      exact List.append_nil _
  have D := defines_refl hr hw
  refine H.rebodied hr D hp (fun v hv => ?_) fun v x hx t ht => ?_
  · have hold := (H.body v hv).mono fun s hs => hs.rebodied hr D
    rcases h.body v with hb | ⟨hb, _⟩
    · rw [hb]
      exact hold
    · rw [hb]
      exact served_append.2 ⟨hold, served_call hs⟩
  · rcases h.body v with hb | ⟨hb, _⟩
    · exact D.mem_definitions_of (H.defined v t (.body x (hb ▸ hx) ht))
    · rw [hb, List.mem_append] at hx
      rcases hx with hx | hx
      · exact D.mem_definitions_of (H.defined v t (.body x hx ht))
      · obtain rfl := List.mem_singleton.1 hx
        have hnone : Served (fun _ => False) [Report.call s slots] := served_call hs
        rcases hnone [] _ [] rfl t ht with h | h
        · exact h.elim
        · cases h

/-! ## Timers -/

namespace Timer

theorem served_topped {known : String → Prop} {new body : List Instr} (h : Served known body)
    (hn : Served (fun s => known s ∨ s ∈ writes (body.takeWhile Instr.isAlloca)) new) :
    Served known (topped new body) := by
  rw [← List.takeWhile_append_dropWhile (p := Instr.isAlloca) (l := body)] at h
  exact h.insert hn

theorem writes_topped (new body : List Instr) :
    (writes (topped new body)).Perm (writes new ++ writes body) := by
  have h := congrArg writes (List.takeWhile_append_dropWhile (p := Instr.isAlloca) (l := body))
  rw [writes_append] at h
  rw [topped, writes_append, writes_append, ← h, ← List.append_assoc]
  exact List.perm_append_comm.append_right _

theorem served_putBy {known : String → Prop} {s : Instrumentation} {stash clock : Temp}
    (hstash : known stash.name) (hclock : clock.isGlobal = false) :
    Served known (putBy s stash clock) := by
  have hw : clock.name ∈ writes [sampleClock s clock] :=
    mem_localNames.2 ⟨clock, List.mem_singleton_self _, hclock, rfl⟩
  refine served_cons.2 ⟨fun t ht => (nomatch ht), served_cons.2 ⟨fun t ht => ?_, served_nil⟩⟩
  obtain ⟨u, hu, _, rfl⟩ := mem_localNames.1 ht
  rcases List.mem_cons.1 hu with rfl | hu
  · exact .inr hw
  · obtain rfl := List.mem_singleton.1 hu
    exact .inl hstash

theorem served_record {known : String → Prop} {s : Instrumentation} {stash : Temp} {slot k : Nat}
    (hs : s.storage.isGlobal = true) (hstash : known stash.name) :
    Served known (record s stash slot k) := by
  have fresh : ∀ (x : Instr) (n : Nat) (ty : Ty), x.target? = some (.fresh n ty) →
      (Temp.fresh n ty).name ∈ writes [x] := fun x n ty hx =>
    mem_localNames.2 ⟨_, by simp [hx], rfl, rfl⟩
  refine served_cons.2 ⟨fun t ht => (nomatch ht), served_cons.2 ⟨fun t ht => ?_,
    served_cons.2 ⟨fun t ht => ?_, served_cons.2 ⟨fun t ht => ?_, served_cons.2 ⟨fun t ht => ?_,
      served_nil⟩⟩⟩⟩⟩
  · obtain ⟨u, hu, _, rfl⟩ := mem_localNames.1 ht
    obtain rfl := List.mem_singleton.1 hu
    exact .inl hstash
  · obtain ⟨u, hu, _, rfl⟩ := mem_localNames.1 ht
    rcases List.mem_cons.1 hu with rfl | hu
    · exact .inl (.inr (fresh _ _ _ rfl))
    · obtain rfl := List.mem_singleton.1 hu
      exact .inr (fresh _ _ _ rfl)
  · obtain ⟨u, hu, hg, _⟩ := mem_localNames.1 ht
    obtain rfl := List.mem_singleton.1 hu
    rw [hs] at hg
    cases hg
  · obtain ⟨u, hu, _, rfl⟩ := mem_localNames.1 ht
    rcases List.mem_cons.1 hu with rfl | hu
    · exact .inl (.inr (fresh _ _ _ rfl))
    · obtain rfl := List.mem_singleton.1 hu
      exact .inr (fresh _ _ _ rfl)

/-- The numbers of the temporaries that a timer defines in a block, apart from one. -/
def numbers (p : Program) (i : Nat) (l : Loop) (v : Vertex) : List Nat :=
  if v ∈ p.exitBlocks l then List.range' (p.temps + 2 + 4 * (p.exitBlocks l).idxOf v) 4
  else (if v = l.header then [p.temps + 1] else []) ++ if v = root i then [p.temps] else []

/-- The names that a timer defines in a block. -/
def newNames (p : Program) (i : Nat) (l : Loop) (v : Vertex) : List String :=
  (numbers p i l v).map fun k => Numeral.nat (k + 1)

theorem mem_numbers {k : Nat} (h : k ∈ numbers p i l v) :
    v ∈ p.exitBlocks l ∧ p.temps + 2 + 4 * (p.exitBlocks l).idxOf v ≤ k ∧
        k < p.temps + 2 + 4 * (p.exitBlocks l).idxOf v + 4 ∨
      v = l.header ∧ k = p.temps + 1 ∨ v = root i ∧ k = p.temps := by
  unfold numbers at h
  split at h
  · next hv =>
    rw [List.mem_range'_1] at h
    exact .inl ⟨hv, h.1, h.2⟩
  · rw [List.mem_append] at h
    rcases h with h | h
    · split at h
      · next hv => exact .inr (.inl ⟨hv, List.mem_singleton.1 h⟩)
      · cases h
    · split at h
      · next hv => exact .inr (.inr ⟨hv, List.mem_singleton.1 h⟩)
      · cases h

theorem numbers_apart {u : Vertex} {k : Nat} (hu : k ∈ numbers p i l u) (hv : k ∈ numbers p i l v) :
    u = v := by
  rcases mem_numbers hu with ⟨hux, hul, hur⟩ | ⟨rfl, hk⟩ | ⟨rfl, hk⟩ <;>
    rcases mem_numbers hv with ⟨hvx, hvl, hvr⟩ | ⟨rfl, hk'⟩ | ⟨rfl, hk'⟩
  · exact (List.idxOf_inj hux).1 (by omega)
  all_goals first | rfl | omega

theorem nodup_numbers : (numbers p i l v).Nodup := by
  unfold numbers
  split
  · exact List.nodup_range'
  · split <;> split <;> simp

section
variable (h₀ : p₀.Proper) (hn : p₀.Numbered) (h : Steps c p₀ p ts) (hi : i < p.funcs.length)
  (hl : p.HasLoop i l) (own : OwnExits p i l.header) {len slot : Nat}
  (hlt : p.temps + 2 + 4 * (p.exitBlocks l).length < 0x100000000)
include h₀ h hi hl own

theorem writes_place : (writes ((place p i (.ofConfig c len) slot l.header (p.exitBlocks l)).body v)).Perm
    (newNames p i l v ++ writes (p.body v)) := by
  have hp := h.proper h₀
  unfold newNames numbers
  by_cases hv : v ∈ p.exitBlocks l
  · rw [body_exit hp hi hl own hv, if_pos hv]
    exact writes_topped _ _
  · rw [body_inside hp hi hl hv, if_neg hv]
    refine (writes_topped _ _).trans ?_
    rw [writes_append, List.map_append, List.append_assoc]
    refine List.Perm.of_eq (congrArg₂ (· ++ ·) ?_ (congrArg (· ++ writes (p.body v)) ?_))
    · split <;> rfl
    · split <;> rfl

include hn hlt

theorem defines_place :
    Defines p (place p i (.ofConfig c len) slot l.header (p.exitBlocks l)) (newNames p i l) := by
  have hr : Rebodied p (place p i (.ofConfig c len) slot l.header (p.exitBlocks l)) :=
    rebodied_place (h.proper h₀) hi
  constructor
  · funext j
    rw [params, params, hr.bare]
  · intro v
    rw [defs, defs, hr.phis, ← List.append_assoc]
    refine ((writes_place h₀ h hi hl own).append_left _).trans ?_
    rw [← List.append_assoc]
    exact List.perm_append_comm.append_right _
  · intro v
    exact nodup_numbers.map fun a b hab => Nat.add_right_cancel (Numeral.nat_injective hab)
  · intro u v hne s hs ht
    obtain ⟨k, hk, rfl⟩ := List.mem_map.1 hs
    obtain ⟨j, hj, heq⟩ := List.mem_map.1 ht
    obtain rfl : j = k := Nat.add_right_cancel (Numeral.nat_injective heq)
    exact hne (numbers_apart hk hj)
  · intro v s hs
    obtain ⟨k, hk, rfl⟩ := List.mem_map.1 hs
    refine hn.fresh (h.grows h₀) ?_ ?_
    · rcases mem_numbers hk with ⟨_, hk, _⟩ | ⟨_, hk⟩ | ⟨_, hk⟩ <;> omega
    · rcases mem_numbers hk with ⟨hv, _, hk⟩ | ⟨_, hk⟩ | ⟨_, hk⟩
      · have := List.idxOf_lt_length_of_mem hv
        omega
      · omega
      · omega

/-- The stash has its value in all blocks of the function but the entry. -/
theorem known_stash (hv : Reaches p.Edge (root i) v) (hne : v ≠ root i) :
    (place p i (.ofConfig c len) slot l.header (p.exitBlocks l)).KnownBefore v (stashOf p).name := by
  have hp := h.proper h₀
  have hr : Rebodied p (place p i (.ofConfig c len) slot l.header (p.exitBlocks l)) :=
    rebodied_place hp hi
  have D := @defines_place c p₀ p ts i l h₀ hn h hi hl own len slot hlt
  have hroot : root i ∉ p.exitBlocks l := fun hx =>
    (own _ ((HasLoop.mem_exitBlocks hp hl).1 hx)).1 rfl
  have hmem : (stashOf p).name ∈ newNames p i l (root i) := by
    refine List.mem_map.2 ⟨p.temps, ?_, rfl⟩
    rw [numbers, if_neg hroot, if_pos rfl]
    exact List.mem_append_right _ (List.mem_singleton_self _)
  have hfunc : v.func = i := hp.reaches_func hv
  refine .inr (.inr ⟨root i, hne.symm, ?_, D.mem_defs.2 (.inl hmem)⟩)
  rw [hfunc, hr.edge]
  exact dominates_root hv

theorem served_place (H : p.Ssa) (hv : Reaches p.Edge (root v.func) v) :
    Served ((place p i (.ofConfig c len) slot l.header (p.exitBlocks l)).KnownBefore v)
      ((place p i (.ofConfig c len) slot l.header (p.exitBlocks l)).body v) := by
  have hp := h.proper h₀
  have hr : Rebodied p (place p i (.ofConfig c len) slot l.header (p.exitBlocks l)) :=
    rebodied_place hp hi
  have D := @defines_place c p₀ p ts i l h₀ hn h hi hl own len slot hlt
  have hold := (H.body v hv).mono fun s hs => hs.rebodied hr D
  have known := @known_stash c p₀ p ts i l v h₀ hn h hi hl own len slot hlt
  by_cases hx : v ∈ p.exitBlocks l
  · have hf : v.func = i := HasLoop.exit_func hp hl ((HasLoop.mem_exitBlocks hp hl).1 hx)
    have hne := (own v ((HasLoop.mem_exitBlocks hp hl).1 hx)).1
    rw [body_exit hp hi hl own hx]
    exact served_topped hold (served_record rfl (.inl (known (hf ▸ hv) hne)))
  rw [body_inside hp hi hl hx]
  have hbase : Served ((place p i (.ofConfig c len) slot l.header (p.exitBlocks l)).KnownBefore v)
      ((if v = root i then [allocate (stashOf p)] else []) ++ p.body v) := by
    refine served_append.2 ⟨?_, hold.mono fun s hs => .inl hs⟩
    split
    · exact served_cons.2 ⟨fun s hs => (nomatch hs), served_nil⟩
    · exact served_nil
  refine served_topped hbase ?_
  by_cases hvh : v = l.header
  · rw [if_pos hvh]
    refine served_putBy ?_ rfl
    by_cases hroot : v = root i
    · rw [if_pos hroot, List.singleton_append, List.takeWhile_cons_of_pos rfl]
      exact .inr (mem_localNames.2 ⟨stashOf p, List.mem_cons_self, rfl, rfl⟩)
    · have hf : v.func = i := hvh ▸ hp.reaches_func hl.header.reaches
      exact .inl (known (hf ▸ hv) hroot)
  · rw [if_neg hvh]
    exact served_nil

theorem ssa_place (H : p.Ssa) :
    (place p i (.ofConfig c len) slot l.header (p.exitBlocks l)).Ssa := by
  have hp := h.proper h₀
  have hr : Rebodied p (place p i (.ofConfig c len) slot l.header (p.exitBlocks l)) :=
    rebodied_place hp hi
  have D := @defines_place c p₀ p ts i l h₀ hn h hi hl own len slot hlt
  have hserved := @served_place c p₀ p ts i l
  refine H.rebodied hr D hp (fun v hv => hserved h₀ hn h hi hl own hlt H hv) fun v x hx s hs => ?_
  by_cases hv : Reaches p.Edge (root v.func) v
  · refine defined_of_served (hr.proper hp) ?_ hx hs
    exact hserved h₀ hn h hi hl own hlt H hv
  · have hheader : v ≠ l.header := fun heq => hv (by
      rw [heq, hp.reaches_func hl.header.reaches]
      exact hl.header.reaches)
    have hroot : v ≠ root i := fun heq => hv (by
      rw [heq]
      exact .refl)
    have hexit : v ∉ p.exitBlocks l := fun hx => hv (by
      have hx := (HasLoop.mem_exitBlocks hp hl).1 hx
      obtain ⟨u, hu, he⟩ := hx.2
      rw [HasLoop.exit_func hp hl hx]
      exact (hu.reaches hl.header).tail he)
    rw [body_inside hp hi hl hexit, if_neg hheader, if_neg hroot, topped_nil] at hx
    exact D.mem_definitions_of (H.defined v s (.body x hx hs))

end

end Timer

end LoopClock
