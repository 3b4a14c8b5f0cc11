import LoopClock.Proofs.Ssa.Validity

/-! Leading edges through a new block keeps programs valid: the phis get one entry for the new block, and
what it carries is known where the moved edges meet. -/
namespace LoopClock
open Graph Program

namespace Phi

variable {moved : List Label} {via : Label} {m k : Nat} {p φ : Phi} {o : Option Phi} {s : String}

theorem mem_localNames_reads :
    s ∈ localNames p.reads ↔ ∃ x ∈ p.source, s ∈ localNames x.1.temp?.toList := by
  simp only [mem_localNames, mem_reads, Option.mem_toList]
  constructor
  · rintro ⟨t, ⟨x, hx, hxt⟩, ht⟩
    exact ⟨x, hx, t, hxt, ht⟩
  · rintro ⟨x, hx, t, hxt, ht⟩
    exact ⟨t, ⟨x, hx, hxt⟩, ht⟩

/-- The entry for the new block carries what all the moved entries carry, or a new temporary. -/
theorem Rerouted.entry_cases (h : Rerouted moved via m p φ o k) (hne : p.incoming moved ≠ [])
    {x : Value × Label} (hx : x ∈ φ.source) : x ∈ p.kept moved ∨ x.2 = via ∧
      ((∀ y ∈ p.incoming moved, y.1.temp? = x.1.temp?) ∨
        ∃ a ∈ o, x.1 = .temp a.target) := by
  cases h with
  | untouched none => exact absurd none hne
  | agreed v l first same =>
    refine (List.mem_append.1 hx).imp_right fun hx => ?_
    obtain rfl := List.mem_singleton.1 hx
    exact ⟨rfl, .inl same⟩
  | merged =>
    refine (List.mem_append.1 hx).imp_right fun hx => ?_
    obtain rfl := List.mem_singleton.1 hx
    exact ⟨rfl, .inr ⟨_, rfl, rfl⟩⟩

/-- A rerouted phi reads what it read before, or the phi of the new block. -/
theorem Rerouted.read_cases (h : Rerouted moved via m p φ o k) {x : Value × Label}
    (hx : x ∈ φ.source) :
    (∃ y ∈ p.source, y.1.temp? = x.1.temp?) ∨ ∃ a ∈ o, x.1 = .temp a.target := by
  cases h with
  | untouched => exact .inl ⟨x, hx, rfl⟩
  | agreed v l first =>
    rcases List.mem_append.1 hx with hx | hx
    · exact .inl ⟨x, List.mem_of_mem_filter hx, rfl⟩
    · obtain rfl := List.mem_singleton.1 hx
      exact .inl ⟨(v, l), List.mem_of_mem_filter first, rfl⟩
  | merged =>
    rcases List.mem_append.1 hx with hx | hx
    · exact .inl ⟨x, List.mem_of_mem_filter hx, rfl⟩
    · obtain rfl := List.mem_singleton.1 hx
      exact .inr ⟨_, rfl, rfl⟩

end Phi

namespace Program

variable {p q : Program} {e n u v : Vertex} {preds : List Vertex} {s : String}

namespace Cut

variable (C : Cut p e n preds)
include C

theorem root_ne (i : Nat) : root i ≠ n := fun h => by
  have hid : (0 : Int) = n.id := congrArg Vertex.id h
  have hn := C.id_eq
  have hpos := C.total_nonneg
  omega

/-- The names that the new block defines. -/
def newNames (p : Program) (e n : Vertex) (preds : List Vertex) (v : Vertex) : List String :=
  if v = n then localNames ((p.splitPhis e n preds).2.1.map (·.target)) else []

omit C in
theorem newNames_eq : localNames ((p.splitPhis e n preds).2.1.map (·.target)) =
    (List.range' p.temps ((p.splitPhis e n preds).2.2 - p.temps)).map
      fun k => Numeral.nat (k + 1) := by
  have hR := reroutedAll_splitPhis p e n preds
  rw [← hR.names_added, localNames, List.filter_eq_self.2, List.map_map]
  · rfl
  · intro t ht
    obtain ⟨φ, hφ, rfl⟩ := List.mem_map.1 ht
    obtain ⟨_, _, k, _, _, rfl, _⟩ := hR.exists_of_mem_added hφ
    rfl

section
variable (S : Split p e n preds q)
include S

theorem phi_targets (hv : v ≠ n) :
    (q.phis v).map (·.target) = (p.phis v).map (·.target) := by
  rw [C.phis_eq S, if_neg hv]
  split
  · next hve => rw [(reroutedAll_splitPhis p e n preds).targets, hve]
  · rfl

omit C in
theorem params_eq : q.params = p.params := by
  funext i
  rw [params, params, S.bare]
  split
  · rw [Option.map_map]
    rfl
  · rfl

theorem mem_defs_new {φ : Phi} (hφ : φ ∈ (p.splitPhis e n preds).2.1)
    (hs : s ∈ localNames [φ.target]) : s ∈ q.defs n := by
  obtain ⟨t, ht, hg, rfl⟩ := mem_localNames.1 hs
  obtain rfl := List.mem_singleton.1 ht
  refine List.mem_append_left _ (mem_localNames.2 ⟨φ.target, ?_, hg, rfl⟩)
  rw [C.phis_eq S, if_pos rfl]
  exact List.mem_map_of_mem hφ

theorem mem_definitions_split {i : Nat} (h : s ∈ p.definitions i) : s ∈ q.definitions i := by
  rw [mem_definitions] at h ⊢
  rw [params_eq S]
  refine h.imp_right fun ⟨u, hu, hs⟩ => ⟨u, hu, ?_⟩
  have hun : u ≠ n := fun hun => by
    rw [hun, defs_eq_nil C.new_not_mem] at hs
    cases hs
  rwa [defs, C.phi_targets S hun, C.body_eq S]

/-- What is read has a definition in the function, as before. -/
theorem defined_split (hdef : ∀ v s, p.ReadIn v s → s ∈ p.definitions v.func)
    (h : q.ReadIn v s) : s ∈ q.definitions v.func := by
  have hR := reroutedAll_splitPhis p e n preds
  have old : ∀ w, p.ReadIn w s → w.func = v.func → s ∈ q.definitions v.func := fun w h hw =>
    hw ▸ C.mem_definitions_split S (hdef w s h)
  cases h with
  | phi φ hφ hs =>
    rw [C.phis_eq S] at hφ
    split at hφ
    · next hv =>
      obtain ⟨ψ, hψ, _, _, _, rfl, _⟩ := hR.exists_of_mem_added hφ
      obtain ⟨x, hx, hs⟩ := Phi.mem_localNames_reads.1 hs
      refine old e (.phi ψ hψ (Phi.mem_localNames_reads.2 ⟨x, List.mem_of_mem_filter hx, hs⟩)) ?_
      rw [hv, C.func_eq]
    split at hφ
    · next hv =>
      obtain ⟨ψ, hψ, k, o, m, _, _, hr, ho⟩ := hR.exists_of_mem_stay hφ
      obtain ⟨x, hx, hs⟩ := Phi.mem_localNames_reads.1 hs
      rcases hr.read_cases hx with ⟨y, hy, hyx⟩ | ⟨a, ha, hxa⟩
      · rw [← hyx] at hs
        exact old e (.phi ψ hψ (Phi.mem_localNames_reads.2 ⟨y, hy, hs⟩)) (by rw [hv])
      · rw [hxa] at hs
        have hdef := C.mem_defs_new S (ho a ha) hs
        rw [hv, ← C.func_eq]
        exact mem_definitions.2 (.inr ⟨n, rfl, hdef⟩)
    · exact old v (.phi φ hφ hs) rfl
  | body x hx hs => exact old v (.body x (C.body_eq S ▸ hx) hs) rfl
  | jump t ht hs =>
    rw [C.jump_eq S] at ht
    split at ht
    · obtain rfl := Option.some.inj ht
      cases hs
    split at ht
    · obtain ⟨j, hj, rfl⟩ := Option.map_eq_some_iff.1 ht
      rw [Terminator.names_retarget] at hs
      exact old v (.jump j hj hs) rfl
    · exact old v (.jump t ht hs) rfl

theorem defines_split
    (hfresh : ∀ k, p.temps ≤ k → k < q.temps → ¬ p.Occurs (Numeral.nat (k + 1))) :
    Defines p q (newNames p e n preds) where
  params := params_eq S
  defs v := by
    rw [defs, defs, C.body_eq S, newNames]
    by_cases hv : v = n
    · subst hv
      rw [if_pos rfl, C.phis_eq S, if_pos rfl, phis, body, C.block?_new]
      exact List.Perm.refl _
    · rw [if_neg hv, C.phi_targets S hv]
      exact List.Perm.refl _
  nodup v := by
    unfold newNames
    split
    · rw [newNames_eq]
      exact (List.nodup_range').map fun a b hab => Nat.add_right_cancel (Numeral.nat_injective hab)
    · exact List.nodup_nil
  apart u v hne s hs ht := by
    unfold newNames at hs ht
    split at hs
    · next hu =>
      rw [if_neg fun hv => hne (hu.trans hv.symm)] at ht
      cases ht
    · cases hs
  fresh v s hs := by
    unfold newNames at hs
    split at hs
    · rw [newNames_eq] at hs
      obtain ⟨k, hk, rfl⟩ := List.mem_map.1 hs
      rw [List.mem_range'_1] at hk
      have hle := (reroutedAll_splitPhis p e n preds).le
      have ht := S.temps
      exact hfresh k hk.1 (by omega)
    · cases hs

/-! ### What is known -/

theorem reaches_iff {i : Nat} (hv : v ≠ n) :
    Reaches q.Edge (root i) v ↔ Reaches p.Edge (root i) v :=
  (C.reroute S).reaches_iff (C.root_ne i) hv

theorem dominates_iff {i : Nat} (hu : u ≠ n) (hv : v ≠ n) :
    Dominates q.Edge (root i) u v ↔ Dominates p.Edge (root i) u v :=
  (C.reroute S).dominates_iff (C.root_ne i) hu hv

omit S in
theorem dominator_ne {i : Nat} (hd : Dominates p.Edge (root i) u v) : u ≠ n := by
  rintro rfl
  rcases hd.root_reaches.cases_tail with h | ⟨w, _, he⟩
  · exact C.root_ne i h.symm
  · exact C.not_edge_to_new w he

variable {new : Vertex → List String} (D : Defines p q new)
include D

theorem known_old (hv : v ≠ n) (h : p.Known v s) : q.Known v s := by
  rw [Known, D.params]
  obtain h | ⟨u, hd, hs⟩ := h
  · exact .inl h
  · exact .inr ⟨u, (C.dominates_iff S (C.dominator_ne hd) hv).2 hd, D.mem_defs.2 (.inr hs)⟩

theorem knownBefore_old (hv : v ≠ n) (h : p.KnownBefore v s) : q.KnownBefore v s := by
  rw [KnownBefore, D.params, C.phi_targets S hv]
  obtain h | h | ⟨u, hne, hd, hs⟩ := h
  · exact .inl h
  · exact .inr (.inl h)
  · have hd' := (C.dominates_iff S (C.dominator_ne hd) hv).2 hd
    exact .inr (.inr ⟨u, hne, hd', D.mem_defs.2 (.inr hs)⟩)

/-- What all moved edges carry is known in the new block. -/
theorem known_new (A : p.Apart e.func) (hreach : Reaches q.Edge (root e.func) n)
    (h : ∀ a ∈ preds, Reaches p.Edge (root e.func) a → p.Known a s) : q.Known n s := by
  have R := C.reroute S
  have hr := C.root_ne e.func
  have hfunc : ∀ a ∈ preds, a.func = e.func := fun a ha => C.prev_func (C.mem_prev_of_pred ha)
  rw [Known, D.params, C.func_eq]
  obtain ⟨a, ha, hra⟩ := (R.reaches_new_iff hr).1 hreach
  by_cases hs : s ∈ p.params e.func
  · exact .inl hs
  have site : ∀ b ∈ preds, Reaches p.Edge (root e.func) b →
      ∃ u, u.func = e.func ∧ Dominates p.Edge (root e.func) u b ∧ s ∈ p.defs u := by
    intro b hb hrb
    have hk := h b hb hrb
    rw [Known, hfunc b hb] at hk
    obtain ⟨u, hd, hu⟩ := hk.resolve_left hs
    have hf := C.proper.reaches_func hd.root_reaches
    exact ⟨u, hf, hd, hu⟩
  obtain ⟨u, huf, hd, hu⟩ := site a ha hra
  refine .inr ⟨u, ?_, D.mem_defs.2 (.inr hu)⟩
  rw [R.dominates_new_iff hr (C.dominator_ne hd)]
  refine ⟨⟨a, ha, hra⟩, fun b hb hrb => ?_⟩
  obtain ⟨w, hwf, hdw, hw⟩ := site b hb hrb
  have heq : w = u := by
    by_contra hne
    exact A.blocks w u hwf huf hne hw hu
  exact heq ▸ hdw

/-! ### The split program -/

variable (H : p.Ssa) (hne : preds ≠ [])
include H hne

omit D in
theorem labels_split : ∀ v, ∀ φ ∈ q.phis v,
    (φ.source.map (·.2)).Perm ((q.prev v).map Vertex.label) := by
  intro v φ hφ
  by_cases hv : v = n
  · exact hv ▸ C.labels_new S (H.labels e) φ (hv ▸ hφ)
  by_cases hve : v = e
  · exact hve ▸ C.labels_target S (H.labels e) hne φ (hve ▸ hφ)
  · rw [C.phis_eq S, if_neg hv, if_neg hve] at hφ
    rw [C.prev_eq S, if_neg hv, if_neg hve]
    exact H.labels v φ hφ

/-- An entry of a phi that stayed: a kept one, or the one for the new block. -/
theorem known_entry {φ : Phi} (hφ : φ ∈ (p.splitPhis e n preds).1) {x : Value × Label}
    (hx : x ∈ φ.source) (hu : u ∈ (p.prev e).filter (· ∉ preds) ++ [n]) (hxu : x.2 = u.label)
    (hreach : Reaches q.Edge (root u.func) u) (hs : s ∈ localNames x.1.temp?.toList) :
    q.Known u s := by
  have hR := reroutedAll_splitPhis p e n preds
  obtain ⟨ψ, hψ, k, o, m, _, _, hr, ho⟩ := hR.exists_of_mem_stay hφ
  have hl := H.labels e ψ hψ
  have hin := C.incoming_ne_nil hl hne
  rcases List.mem_append.1 hu with hu | hu
  · have hprev := List.mem_of_mem_filter hu
    have hun : u ≠ n := fun hun => C.label_ne_new hprev (by rw [hun])
    rcases hr.entry_cases hin hx with hx | ⟨hvia, _⟩
    · refine C.known_old S D hun ?_
      rw [C.reaches_iff S hun] at hreach
      exact H.entries e ψ hψ x (List.mem_of_mem_filter hx) u hprev hxu hreach s hs
    · exact absurd (hxu.symm.trans hvia) (C.label_ne_new hprev)
  obtain rfl := List.mem_singleton.1 hu
  rcases hr.entry_cases hin hx with hx | ⟨_, hall | ⟨a, ha, hxa⟩⟩
  · have hlabel : x.2 ∈ (p.prev e).map Vertex.label :=
      hl.mem_iff.1 (List.mem_map_of_mem (List.mem_of_mem_filter hx))
    obtain ⟨w, hw, hwx⟩ := List.mem_map.1 hlabel
    exact absurd (hwx.trans hxu) (C.label_ne_new hw)
  · rw [C.func_eq] at hreach
    have A := (nodup_definitions_iff (C.proper.nodup e.func)).1 (H.unique e.func)
    refine C.known_new S D A hreach fun b hb hrb => ?_
    have hlabel : b.label ∈ (ψ.incoming (preds.map Vertex.label)).map (·.2) :=
      (C.perm_incoming hl).mem_iff.2 (List.mem_map_of_mem hb)
    obtain ⟨y, hy, hyb⟩ := List.mem_map.1 hlabel
    have hprev := C.mem_prev_of_pred hb
    refine H.entries e ψ hψ y (List.mem_of_mem_filter hy) b hprev hyb ?_ s ?_
    · rw [C.prev_func hprev]
      exact hrb
    · rw [hall y hy]
      exact hs
  · rw [hxa] at hs
    exact .inr ⟨u, Dominates.refl hreach, C.mem_defs_new S (ho a ha) hs⟩

theorem ssa_split : q.Ssa where
  unique := D.unique C.proper.nodup (C.proper_split S).nodup H.unique
  defined v s h := C.defined_split S H.defined h
  labels := C.labels_split S H hne
  body v hv := by
    rw [C.body_eq S]
    by_cases hvn : v = n
    · rw [body, hvn, C.block?_new]
      exact served_nil
    · rw [C.reaches_iff S hvn] at hv
      exact (H.body v hv).mono fun s hs => C.knownBefore_old S D hvn hs
  jump v hv t ht s hs := by
    rw [C.jump_eq S] at ht
    split at ht
    · obtain rfl := Option.some.inj ht
      cases hs
    · next hvn =>
      rw [C.reaches_iff S hvn] at hv
      refine C.known_old S D hvn ?_
      split at ht
      · obtain ⟨j, hj, rfl⟩ := Option.map_eq_some_iff.1 ht
        rw [Terminator.names_retarget] at hs
        exact H.jump v hv j hj s hs
      · exact H.jump v hv t ht s hs
  entries v φ hφ x hx u hu hxu hreach s hs := by
    rw [C.phis_eq S] at hφ
    rw [C.prev_eq S] at hu
    by_cases hvn : v = n
    · rw [if_pos hvn] at hφ hu
      obtain ⟨ψ, hψ, _, _, _, rfl, _⟩ := (reroutedAll_splitPhis p e n preds).exists_of_mem_added hφ
      have hun : u ≠ n := fun h => C.new_not_pred (h ▸ hu)
      rw [C.reaches_iff S hun] at hreach
      exact C.known_old S D hun (H.entries e ψ hψ x (List.mem_of_mem_filter hx) u
        (C.mem_prev_of_pred hu) hxu hreach s hs)
    rw [if_neg hvn] at hφ hu
    by_cases hve : v = e
    · rw [if_pos hve] at hφ hu
      exact C.known_entry S D H hne hφ hx hu hxu hreach hs
    rw [if_neg hve] at hφ hu
    have hun : u ≠ n := fun h => C.not_edge_new v ((C.proper.mem_prev n v).1 (h ▸ hu))
    rw [C.reaches_iff S hun] at hreach
    exact C.known_old S D hun (H.entries v φ hφ x hx u hu hxu hreach s hs)

end

end Cut

end Program

end LoopClock
