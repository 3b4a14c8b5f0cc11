import LoopClock.Proofs.Run.Edits
import LoopClock.Proofs.Source.Programs

/-! Statements that are read back as they are written. Passes add only such statements, as long as the names
of the configuration are names of the grammar. -/
namespace LoopClock
open Graph Program Source

/-- The names that are written into a program. -/
structure Config.IsNamed (c : Config) : Prop where
  report : IsName c.reportFn
  clock : IsName c.clockFn
  storage : IsName c.storage

theorem isName_nat (n : Nat) : IsName (Numeral.nat n) := by
  rw [IsName, Numeral.nat, String.toList_ofList]
  refine ⟨Numeral.ofNat_ne_nil n, fun c hc => ?_⟩
  have hdigit := List.all_eq_true.1 (Numeral.all_isDigit_ofNat n) c hc
  simp [Grammar.isNameChar, Char.isAlphanum, hdigit]

theorem Temp.isLocal_fresh (n : Nat) (ty : Ty) : (Temp.fresh n ty).IsLocal := ⟨rfl, isName_nat _⟩

/-! ## Statements -/

/-- A value that is read back where `ty` is written in front of it. -/
structure Value.Legible (ty : Ty) (v : Value) : Prop where
  named : v.IsNamed
  plain : v.IsPlain
  under : v.Under ty
  reread : v.reread = v

theorem Value.legible_temp {t : Temp} (h : IsName t.name) : (Value.temp t).Legible t.ty where
  named _ hu := Option.some.inj hu ▸ h
  plain := trivial
  under := rfl
  reread := rfl

structure Phi.Legible (φ : Phi) : Prop where
  target : φ.target.IsLocal
  source : φ.source ≠ []
  entries : ∀ s ∈ φ.source, s.1.Legible φ.target.ty ∧ s.2.IsSpelled

namespace Source.Placed

structure Legible (x : Placed) : Prop where
  spelled : x.IsSpelled
  typed : x.Typed
  plain : ∀ v ∈ x.values, v.IsPlain
  reread : x.reread = x

theorem legible_phi {φ : Phi} : (phi φ).Legible ↔ φ.Legible := by
  constructor
  · rintro ⟨hs, ht, hp, hr⟩
    have hs : φ.IsSpelled := hs
    have hr : φ.reread = φ := phi.inj hr
    refine ⟨hs.target, hs.source, fun s hmem => ⟨?_, hs.labels s hmem⟩⟩
    have hv : s.1 ∈ φ.values := List.mem_map_of_mem hmem
    have hsource : φ.source.map (fun s => (s.1.reread, s.2)) = φ.source.map id :=
      (congrArg Phi.source hr).trans (List.map_id _).symm
    exact ⟨hs.named _ hv, hp _ hv, ht _ hv, congrArg Prod.fst (List.map_inj_left.1 hsource s hmem)⟩
  · rintro ⟨ht, hne, h⟩
    have hv : ∀ v ∈ φ.values, v.Legible φ.target.ty := fun v hv => by
      obtain ⟨s, hs, rfl⟩ := List.mem_map.1 hv
      exact (h s hs).1
    exact ⟨⟨ht, hne, fun v h => (hv v h).named, fun s hs => (h s hs).2⟩, fun v h => (hv v h).under,
      fun v h => (hv v h).plain, congrArg phi (reread_phi fun v h => (hv v h).reread)⟩

theorem legible_relabel {t : Terminator} {f : Label → Label} (h : (last t).Legible)
    (hf : ∀ l : Label, l.IsSpelled → (f l).IsSpelled) : (last (t.relabel f)).Legible := by
  obtain ⟨⟨hl, hn, hr⟩, ht, hp, he⟩ := h
  have hvalues : (last (t.relabel f)).values = (last t).values := by cases t <;> rfl
  refine ⟨⟨fun l hm => ?_, fun v hv => hn v ?_, fun v hv => hr v ?_⟩, ?_, hvalues ▸ hp, ?_⟩
  · obtain ⟨k, hk, rfl⟩ := Terminator.mem_targets_relabel.1 hm
    exact hf k (hl k hk)
  · exact (congrArg (v ∈ ·) hvalues).mp hv
  · cases t with
    | ret value => exact hv
    | _ => cases hv
  · cases t with
    | branch ty cond l m => exact ht
    | _ => trivial
  · have he : t.reread = t := last.inj he
    cases t with
    | jump l => rfl
    | branch ty cond l m =>
      exact congrArg last (congrArg (fun v => Terminator.branch ty v (f l) (f m))
        (Terminator.branch.inj he).2.1)
    | ret value => exact congrArg last he

theorem legible_jump {l : Label} (h : l.IsSpelled) : (last (.jump l)).Legible where
  spelled := ⟨fun _ hm => List.mem_singleton.1 hm ▸ h, fun _ hv => (nomatch hv), fun _ hv => (nomatch hv)⟩
  typed := trivial
  plain _ hv := nomatch hv
  reread := rfl

end Source.Placed

/-! ## Timers and reports -/

variable {c : Config} {p q : Program} {v e n : Vertex} {preds : List Vertex} {slot len k : Nat}
  {x : Instr}

private theorem forall_mem_none {α : Type} {P : α → Prop} : ∀ a ∈ (none : Option α), P a :=
  fun a h => absurd h (Option.not_mem_none a)

/-- The names in an instruction without floats are all that can keep it from being read back. -/
theorem legible_body (hreread : x.reread = x) (htarget : ∀ t ∈ x.target?, t.IsLocal)
    (hcallee : ∀ f ∈ x.callee?, IsName f) (htyped : x.Typed)
    (hvalues : ∀ v ∈ x.values, v.IsNamed ∧ v.IsPlain) : (Placed.body x).Legible where
  spelled := ⟨htarget, hcallee, fun v hv => (hvalues v hv).1⟩
  typed := htyped
  plain v hv := (hvalues v hv).2
  reread := congrArg Placed.body hreread

theorem Timer.Added.legible (hc : c.IsNamed) (h : Timer.Added p (.ofConfig c len) slot k x) :
    (Placed.body x).Legible := by
  have fresh : ∀ n ty, (Value.temp (.fresh n ty)).IsNamed ∧ (Value.temp (.fresh n ty)).IsPlain :=
    fun n ty => ⟨fun t ht => Option.some.inj ht ▸ isName_nat _, trivial⟩
  have target : ∀ n ty, ∀ t ∈ some (Temp.fresh n ty), t.IsLocal := fun n ty t ht =>
    Option.some.inj ht ▸ Temp.isLocal_fresh n ty
  have storage : (Value.temp ⟨c.storage, true, .i64Ptr⟩).IsNamed ∧
      (Value.temp ⟨c.storage, true, .i64Ptr⟩).IsPlain :=
    ⟨fun t ht => Option.some.inj ht ▸ hc.storage, trivial⟩
  have number : ∀ i, (Value.int i).IsNamed ∧ (Value.int i).IsPlain := fun i =>
    ⟨forall_mem_none, trivial⟩
  have sample : ∀ n, (Placed.body (sampleClock (.ofConfig c len) (.fresh n .i64))).Legible := fun n =>
    legible_body rfl (target n .i64) (fun f hf => Option.some.inj hf ▸ hc.clock)
      ⟨fun u hu => Option.some.inj hu ▸ rfl, List.forall_mem_nil _⟩ (List.forall_mem_nil _)
  have store : ∀ m n ty ty',
      (Placed.body (.store (.temp (.fresh m ty)) (.temp (.fresh n ty')))).Legible := fun m n ty ty' =>
    legible_body rfl forall_mem_none forall_mem_none trivial
      (List.forall_mem_cons.2 ⟨fresh m ty, List.forall_mem_singleton.2 (fresh n ty')⟩)
  rcases h with rfl | h | ⟨j, _, h⟩
  · exact legible_body rfl (target _ _) forall_mem_none rfl
      (List.forall_mem_singleton.2 (number 1))
  · simp only [putBy, List.mem_cons, List.not_mem_nil, or_false] at h
    rcases h with rfl | rfl
    · exact sample _
    · exact store _ _ _ _
  · simp only [record, List.mem_cons, List.not_mem_nil, or_false] at h
    rcases h with rfl | rfl | rfl | rfl | rfl
    · exact sample _
    · exact legible_body rfl (target _ _) forall_mem_none rfl
        (List.forall_mem_singleton.2 (fresh _ _))
    · exact legible_body rfl (target _ _) forall_mem_none ⟨rfl, rfl, rfl⟩
        (List.forall_mem_cons.2 ⟨fresh _ _, List.forall_mem_singleton.2 (fresh _ _)⟩)
    · exact legible_body rfl (target _ _) forall_mem_none trivial
        (List.forall_mem_cons.2 ⟨storage, List.forall_mem_singleton.2 (number _)⟩)
    · exact store _ _ _ _

theorem Report.legible_call (hc : c.IsNamed) (slots : Nat) :
    (Placed.body (Report.call (.ofConfig c len) slots)).Legible := by
  refine legible_body rfl forall_mem_none (fun f hf => Option.some.inj hf ▸ hc.report)
    ⟨forall_mem_none, ?_⟩ ?_
  · exact List.forall_mem_cons.2 ⟨rfl, List.forall_mem_singleton.2 fun h : Ty.i32 = .i64 => (nomatch h)⟩
  · exact List.forall_mem_cons.2 ⟨⟨fun t ht => Option.some.inj ht ▸ hc.storage, trivial⟩,
      List.forall_mem_singleton.2 ⟨forall_mem_none, trivial⟩⟩

/-! ## Splitting -/

/-- A rerouted phi has kept entries and one for the new block. -/
theorem Phi.Rerouted.legible {moved : List Label} {via : Label} {m k : Nat} {p φ : Phi} {o : Option Phi}
    (h : Rerouted moved via m p φ o k) (hp : p.Legible) (hvia : via.IsSpelled) : φ.Legible := by
  have entries : ∀ v : Value, v.Legible p.target.ty → ∀ s ∈ p.kept moved ++ [(v, via)],
      s.1.Legible p.target.ty ∧ s.2.IsSpelled := fun v hv =>
    List.forall_mem_append.2 ⟨fun s hs => hp.entries s (List.mem_of_mem_filter hs),
      List.forall_mem_singleton.2 ⟨hv, hvia⟩⟩
  cases h with
  | untouched => exact hp
  | agreed v l first same =>
    exact ⟨hp.target, List.append_ne_nil_of_right_ne_nil _ (List.cons_ne_nil _ _),
      entries v (hp.entries _ (List.mem_of_mem_filter first)).1⟩
  | merged some =>
    exact ⟨hp.target, List.append_ne_nil_of_right_ne_nil _ (List.cons_ne_nil _ _),
      entries _ (Value.legible_temp (t := .fresh _ _) (isName_nat _))⟩

namespace Program

/-- All statements of a program are read back as they are. -/
structure Legible (p : Program) : Prop where
  phis : ∀ v, ∀ φ ∈ p.phis v, φ.Legible
  body : ∀ v, ∀ x ∈ p.body v, (Placed.body x).Legible
  jump : ∀ v, ∀ t ∈ p.jump v, (Placed.last t).Legible

namespace Legible

theorem rebodied (h : p.Legible) (hr : Rebodied p q)
    (hb : ∀ v, ∀ x ∈ q.body v, x ∈ p.body v ∨ (Placed.body x).Legible) : q.Legible where
  phis := hr.phis ▸ h.phis
  body v x hx := (hb v x hx).elim (h.body v x) id
  jump := hr.jump ▸ h.jump

theorem split (h : p.Legible) (C : Cut p e n preds) (S : Split p e n preds q) : q.Legible := by
  have hR := reroutedAll_splitPhis p e n preds
  have hn : n.label.IsSpelled := isSpelled_ofId (by rw [C.id_eq]; have := C.total_nonneg; omega)
  have he : e.label.IsSpelled := isSpelled_ofId (C.proper.bound _ _ C.mem_ids).1
  refine ⟨fun v φ hφ => ?_, fun v => C.body_eq S ▸ h.body v, fun v t ht => ?_⟩
  · rw [C.phis_eq S] at hφ
    split at hφ
    · obtain ⟨ψ, hψ, k, _, _, rfl, hne⟩ := hR.exists_of_mem_added hφ
      have hp := h.phis e ψ hψ
      exact ⟨Temp.isLocal_fresh _ _, hne, fun s hs => hp.entries s (List.mem_of_mem_filter hs)⟩
    split at hφ
    · obtain ⟨ψ, hψ, k, o, l, _, _, hr, _⟩ := hR.exists_of_mem_stay hφ
      exact hr.legible (h.phis e ψ hψ) hn
    · exact h.phis v φ hφ
  · rw [C.jump_eq S] at ht
    split at ht
    · exact Option.some.inj ht ▸ Placed.legible_jump he
    split at ht
    · obtain ⟨s, hs, rfl⟩ := Option.map_eq_some_iff.1 ht
      rw [Terminator.retarget_eq_relabel]
      refine Placed.legible_relabel (h.jump v s hs) fun l hl => ?_
      split
      · exact hn
      · exact hl
    · exact h.jump v t ht

end Legible

theorem Edit.legible (h : Edit Config.IsNamed p q) (hp : p.Proper) (hl : p.Legible) : q.Legible := by
  cases h with
  | around h =>
    have hb : q.body = p.body := (Revised.of_funcs h.funcs).body fun _ _ => rfl
    exact hl.rebodied (.of_funcs h.funcs) fun v x hx => .inl (hb ▸ hx)
  | split C S => exact hl.split C S
  | time hc T =>
    refine hl.rebodied (T.rebodied hp) fun v x hx => ?_
    exact (Timer.mem_body_place hp (lt_of_mem_ids T.header) T.mem T.nodup hx).imp_right fun h =>
      h.legible hc
  | report hc h =>
    refine hl.rebodied h.rebodied fun v x hx => ?_
    rcases h.body v with hb | ⟨hb, _⟩
    · exact .inl (hb ▸ hx)
    · rw [hb] at hx
      refine (List.mem_append.1 hx).imp_right fun hx => ?_
      obtain rfl := List.mem_singleton.1 hx
      exact Report.legible_call hc _

end Program

end LoopClock
