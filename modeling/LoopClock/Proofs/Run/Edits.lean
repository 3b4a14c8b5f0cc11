import LoopClock.Proofs.Run.Standard
import LoopClock.Proofs.Ssa.Splitting
import LoopClock.Proofs.Ssa.Timing

/-! The changes that passes make to a program, in whatever order they are run, and what all of them keep.
Unlike in a standard run, a loop may be timed again and its exits may be shared again. -/
namespace LoopClock
open Graph Program

namespace Program

/-- A header and exits in one function, for a timer. -/
structure Timable (p : Program) (header : Vertex) (exits : List Vertex) : Prop where
  func : ∀ x ∈ exits, x.func = header.func
  header : header.id ∈ p.ids header.func
  mem : ∀ x ∈ exits, x.id ∈ p.ids x.func
  nodup : exits.Nodup

/-- A change that a pass makes. Its storage and its routines are those of a configuration that
satisfies `K`. -/
inductive Edit (K : Config → Prop) (p : Program) : Program → Prop
  | around {q : Program} (around : Around p q) : Edit K p q
  | split {q : Program} {e n : Vertex} {preds : List Vertex} (cut : Cut p e n preds)
      (split : Split p e n preds q) : Edit K p q
  | time {c : Config} {len slot : Nat} {header : Vertex} {exits : List Vertex} (config : K c)
      (site : p.Timable header exits) :
      Edit K p (Timer.place p header.func (.ofConfig c len) slot header exits)
  | report {q : Program} {c : Config} {slots : Nat} (config : K c)
      (report : Reported (Report.call (.ofConfig c 0) slots) p q) : Edit K p q

variable {K : Config → Prop} {p q : Program} {v : Vertex} {s : String}

theorem Grows.numbered (h : Grows p q) (hp : p.Numbered) : q.Numbered := by
  intro s hs
  have hle := h.le
  rcases h.new s hs with hs | ⟨k, _, hk, rfl⟩
  · have := hp s hs
    omega
  · have := Numeral.word32?_ofNat_le (k + 1)
    rw [Numeral.nat, String.toList_ofList]
    omega

/-! ## Definitions -/

/-- Whatever is read in a function is a parameter or defined in it. -/
def Closed (p : Program) : Prop := ∀ v s, p.ReadIn v s → s ∈ p.definitions v.func

theorem served_of_closed (h : p.Closed) (v : Vertex) :
    Served (· ∈ p.definitions v.func) (p.body v) := by
  intro pre x post heq s hs
  have hx : x ∈ p.body v := heq ▸ List.mem_append_right _ List.mem_cons_self
  exact .inl (h v s (.body x hx hs))

namespace Rebodied

variable (hr : Rebodied p q) (hbody : ∀ v, ∀ x ∈ p.body v, x ∈ q.body v)
include hr hbody

theorem mem_definitions {i : Nat} (h : s ∈ p.definitions i) : s ∈ q.definitions i := by
  rw [Program.mem_definitions] at h ⊢
  rw [params, hr.bare]
  rcases h with h | ⟨u, hu, hs⟩
  · exact .inl h
  refine .inr ⟨u, hu, ?_⟩
  rw [defs, hr.phis]
  refine (List.mem_append.1 hs).elim (List.mem_append_left _) fun hs => List.mem_append_right _ ?_
  obtain ⟨t, ht, hlocal⟩ := mem_localNames.1 hs
  obtain ⟨x, hx, hxt⟩ := List.mem_filterMap.1 ht
  exact mem_localNames.2 ⟨t, List.mem_filterMap.2 ⟨x, hbody u x hx, hxt⟩, hlocal⟩

theorem closed (h : p.Closed) (hserved : ∀ v, Served (· ∈ q.definitions v.func) (q.body v)) :
    q.Closed := by
  intro v s hs
  cases hs with
  | phi φ hφ hs => exact hr.mem_definitions hbody (h v s (.phi φ (hr.phis ▸ hφ) hs))
  | body x hx hs => exact mem_definitions_of_served (hserved v) hx hs
  | jump t ht hs => exact hr.mem_definitions hbody (h v s (.jump t (hr.jump ▸ ht) hs))

end Rebodied

/-! ## Timers -/

namespace Timable

variable {header : Vertex} {exits : List Vertex} (T : p.Timable header exits) (hp : p.Proper)
  {c : Config} {len slot : Nat}
include T hp

theorem rebodied : Rebodied p (Timer.place p header.func (.ofConfig c len) slot header exits) :=
  Timer.rebodied_place hp (lt_of_mem_ids T.header)

theorem mem_body (v : Vertex) {x : Instr} (hx : x ∈ p.body v) :
    x ∈ (Timer.place p header.func (.ofConfig c len) slot header exits).body v := by
  obtain ⟨as, bs, cs, heq, -⟩ := @Timer.exists_body_place p header.func slot (.ofConfig c len)
    header exits hp (lt_of_mem_ids T.header) T.mem T.nodup v
  rw [heq, mem_topped, mem_topped, List.mem_append]
  exact .inr (.inr (.inr hx))

/-- The stash is defined in the function. -/
theorem mem_definitions_stash : (Timer.stashOf p).name ∈
    (Timer.place p header.func (.ofConfig c len) slot header exits).definitions header.func := by
  have hi := lt_of_mem_ids T.header
  have hroot : (root header.func).id ∈ p.ids (root header.func).func :=
    List.mem_of_mem_head? (hp.entry _ hi)
  refine mem_definitions_of_body (x := Timer.allocate (Timer.stashOf p)) (v := root header.func) ?_
    rfl rfl
  rw [Timer.body_place hp hi hroot T.mem T.nodup, mem_topped, mem_topped, if_pos rfl]
  exact .inr (.inr List.mem_cons_self)

theorem closed (h : p.Closed) :
    (Timer.place p header.func (.ofConfig c len) slot header exits).Closed := by
  have hr : Rebodied p (Timer.place p header.func (.ofConfig c len) slot header exits) :=
    T.rebodied hp
  have hi := lt_of_mem_ids T.header
  refine hr.closed (fun v x => T.mem_body hp v) h fun v => ?_
  have hstash : (Timer.stashOf p).name ∈
      (Timer.place p header.func (.ofConfig c len) slot header exits).definitions header.func :=
    T.mem_definitions_stash hp
  have hold := (served_of_closed h v).mono fun s hs =>
    hr.mem_definitions (fun v x => T.mem_body hp v) hs
  by_cases hv : v.id ∈ p.ids v.func
  · rw [Timer.body_place hp hi hv T.mem T.nodup]
    have hentry : Served (· ∈ (Timer.place p header.func (.ofConfig c len) slot header
        exits).definitions v.func) ((if v = root header.func then
          [Timer.allocate (Timer.stashOf p)] else []) ++ p.body v) := by
      refine served_append.2 ⟨?_, hold.mono fun s hs => .inl hs⟩
      split
      · exact served_cons.2 ⟨fun s hs => (nomatch hs), served_nil⟩
      · exact served_nil
    refine Timer.served_topped (Timer.served_topped hentry ?_) ?_
    · by_cases hvh : v = header
      · rw [if_pos hvh]
        exact Timer.served_putBy (.inl (hvh ▸ hstash)) rfl
      · rw [if_neg hvh]
        exact served_nil
    · by_cases hvx : v ∈ exits
      · rw [if_pos hvx]
        exact Timer.served_record rfl (.inl (T.func v hvx ▸ hstash))
      · rw [if_neg hvx]
        exact served_nil
  · rw [body_eq_nil (by rwa [hr.ids])]
    exact served_nil

end Timable

/-! ## What all changes keep -/

/-- The representation that every pass relies on. -/
structure Sound (p : Program) : Prop where
  proper : p.Proper
  numbered : p.Numbered
  names : (p.funcs.map (·.name)).Nodup
  ends : ∀ v, v.id ∈ p.ids v.func → (p.jump v).isSome
  closed : p.Closed

theorem map_name_eq (h : q.signatures = p.signatures) :
    q.funcs.map (·.name) = p.funcs.map (·.name) := by
  have h := congrArg (List.map Prod.fst) h
  rwa [signatures, signatures, List.map_map, List.map_map] at h

namespace Edit

variable (h : Edit K p q)
include h

section
variable (hp : p.Proper)
include hp

theorem proper : q.Proper := by
  cases h with
  | around h => exact (Rebodied.of_funcs h.funcs).proper hp
  | split C S => exact C.proper_split S
  | time _ T => exact (T.rebodied hp).proper hp
  | report _ h => exact h.rebodied.proper hp

theorem grows : Grows p q := by
  cases h with
  | around h =>
    have hb : q.body = p.body := (Revised.of_funcs h.funcs).body fun _ _ => rfl
    exact grows_of_rebodied (k := 0) (.of_funcs h.funcs) h.temps fun v x hx => .inl (hb ▸ hx)
  | split C S => exact C.grows S
  | time _ T => exact Timer.grows_place hp (lt_of_mem_ids T.header) T.mem T.nodup rfl
  | report _ h => exact Report.grows_reported rfl h

theorem signatures : q.signatures = p.signatures := by
  cases h with
  | around h => exact (Rebodied.of_funcs h.funcs).signatures
  | split _ S => exact S.signatures
  | time _ T => exact (T.rebodied hp).signatures
  | report _ h => exact h.rebodied.signatures

theorem ends (hends : ∀ v, v.id ∈ p.ids v.func → (p.jump v).isSome) (v : Vertex)
    (hv : v.id ∈ q.ids v.func) : (q.jump v).isSome := by
  have kept : ∀ {r}, Rebodied p r → v.id ∈ r.ids v.func → (r.jump v).isSome := fun hr hv => by
    rw [hr.jump]
    exact hends v (hr.ids _ ▸ hv)
  cases h with
  | around h => exact kept (.of_funcs h.funcs) hv
  | time _ T => exact kept (T.rebodied hp) hv
  | report _ h => exact kept h.rebodied hv
  | @split _ e n preds C S =>
    rw [C.jump_eq S]
    by_cases hvn : v = n
    · rw [if_pos hvn]
      rfl
    · have hold : v.id ∈ p.ids v.func := (S.mem_ids_iff.1 hv).resolve_right fun ⟨hf, hid⟩ =>
        hvn (Vertex.ext hf hid)
      rw [if_neg hvn]
      split
      · rw [Option.isSome_map]
        exact hends v hold
      · exact hends v hold

theorem closed (hc : p.Closed) : q.Closed := by
  cases h with
  | around h =>
    have hr := Rebodied.of_funcs h.funcs
    have hb : q.body = p.body := (Revised.of_funcs h.funcs).body fun _ _ => rfl
    have hbody : ∀ v, ∀ x ∈ p.body v, x ∈ q.body v := fun v x hx => hb ▸ hx
    refine hr.closed hbody hc fun v => ?_
    rw [hb]
    exact (served_of_closed hc v).mono fun s => hr.mem_definitions hbody
  | split C S => exact fun v s => C.defined_split S hc
  | time _ T => exact T.closed hp hc
  | report _ h =>
    have hbody : ∀ v, ∀ x ∈ p.body v, x ∈ q.body v := fun v x hx => by
      rcases h.body v with hb | ⟨hb, _⟩
      · rwa [hb]
      · rw [hb]
        exact List.mem_append_left _ hx
    refine h.rebodied.closed hbody hc fun v => ?_
    have hold := (served_of_closed hc v).mono fun s => h.rebodied.mem_definitions hbody
    rcases h.body v with hb | ⟨hb, _⟩
    · rwa [hb]
    · rw [hb]
      exact served_append.2 ⟨hold, served_call rfl⟩

end

theorem sound (hp : p.Sound) : q.Sound where
  proper := h.proper hp.proper
  numbered := (h.grows hp.proper).numbered hp.numbered
  names := map_name_eq (h.signatures hp.proper) ▸ hp.names
  ends := h.ends hp.proper hp.ends
  closed := h.closed hp.proper hp.closed

end Edit

end Program

end LoopClock
