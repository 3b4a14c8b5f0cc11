import LoopClock.Proofs.Run.Standard
import LoopClock.Proofs.Ssa.Splitting
import LoopClock.Proofs.Ssa.Timing

/-! Standard runs keep programs valid. -/
namespace LoopClock
open Graph Program

theorem Steps.ssa {c : Config} {p₀ p : Program} {ts : List Timing} (h : Steps c p₀ p ts)
    (h₀ : p₀.Proper) (hn : p₀.Numbered) (hlt : p.temps < 0x100000000) (H : p₀.Ssa) : p.Ssa := by
  induction h with
  | start => exact H
  | declare steps funcs temps ih => exact (ih (temps ▸ hlt)).declared (steps.proper h₀) funcs
  | @split p q ts i l e steps site split ih =>
    have hp := steps.proper h₀
    have C := site.cut hp
    have hle := (C.grows split).le
    have D := C.defines_split split fun k hk hkq => hn.fresh (steps.grows h₀) hk (by omega)
    have hne : p.leaving l e ≠ [] := by
      obtain ⟨u, hu, he⟩ := site.exit.2
      exact List.ne_nil_of_mem ((site.mem_leaving hp).2 ⟨hu, he⟩)
    exact C.ssa_split split D (ih (by omega)) hne
  | place steps func loop own ih =>
    rw [Timer.temps_place] at hlt
    exact Timer.ssa_place h₀ hn steps func loop own hlt (ih (by omega))

/-! ## An instance -/

namespace Source

theorem vertex_sharedExit (v : Vertex) :
    v = ⟨0, 0⟩ ∨ v = ⟨0, 1⟩ ∨ v = ⟨0, 3⟩ ∨ v = ⟨0, 2⟩ ∨ sharedExit.block? v = none := by
  obtain ⟨f, j⟩ := v
  by_cases hv : j ∈ sharedExit.ids f
  · obtain rfl : f = 0 := Nat.lt_one_iff.1 (lt_of_mem_ids hv)
    have hids : sharedExit.ids 0 = [0, 1, 3, 2] := rfl
    simp only [hids, List.mem_cons, List.not_mem_nil, or_false] at hv
    rcases hv with rfl | rfl | rfl | rfl <;> simp
  · exact .inr (.inr (.inr (.inr (block?_eq_none hv))))

theorem served_sharedExit (v : Vertex) :
    Served (· ∈ sharedExit.params v.func) (sharedExit.body v) := by
  rcases vertex_sharedExit v with rfl | rfl | rfl | rfl | hv
  · exact served_nil
  · exact served_nil
  · exact served_cons.2 ⟨fun s hs => hs, served_nil⟩
  · exact served_nil
  · rw [body, hv]
    exact served_nil

/-- A terminator reads the parameter or what its block defines. -/
theorem names_sharedExit {v : Vertex} {t : Terminator} {s : String}
    (ht : sharedExit.jump v = some t) (hs : s ∈ t.names) :
    s ∈ sharedExit.params v.func ∨ s ∈ sharedExit.defs v := by
  rcases vertex_sharedExit v with rfl | rfl | rfl | rfl | hv
  · obtain rfl := Option.some.inj ht
    exact .inl hs
  · obtain rfl := Option.some.inj ht
    exact .inl hs
  · obtain rfl := Option.some.inj ht
    exact .inr hs
  · obtain rfl := Option.some.inj ht
    exact .inr hs
  · rw [jump, hv] at ht
    cases ht

/-- What a phi reads is defined in the block that it is read for. -/
theorem source_sharedExit {v : Vertex} {φ : Phi} (hφ : φ ∈ sharedExit.phis v) :
    (φ.source.map (·.2)).Perm ((sharedExit.prev v).map Vertex.label) ∧
      ∀ x ∈ φ.source, ∀ s ∈ localNames x.1.temp?.toList, s ∈ sharedExit.defs ⟨v.func, 3⟩ ∧
        ∀ u ∈ sharedExit.prev v, x.2 = u.label → u = ⟨v.func, 3⟩ := by
  rcases vertex_sharedExit v with rfl | rfl | rfl | rfl | hv
  · cases hφ
  · cases hφ
  · cases hφ
  · obtain rfl := List.mem_singleton.1 hφ
    decide +kernel
  · rw [phis, hv] at hφ
    cases hφ

theorem ssa_sharedExit : sharedExit.Ssa where
  unique i := by
    cases i with
    | zero => decide
    | succ i => exact List.nodup_nil
  defined v s h := by
    cases h with
    | phi φ hφ hs =>
      obtain ⟨t, ht, hg, rfl⟩ := mem_localNames.1 hs
      obtain ⟨x, hx, hxt⟩ := Phi.mem_reads.1 ht
      have hs := mem_localNames.2 ⟨t, Option.mem_toList.2 hxt, hg, rfl⟩
      exact mem_definitions.2 (.inr ⟨⟨v.func, 3⟩, rfl, ((source_sharedExit hφ).2 x hx _ hs).1⟩)
    | body x hx hs =>
      have hp := (wellformed_of_parse parse_sharedExit).proper
      exact defined_of_served hp ((served_sharedExit v).mono fun s hs => .inl hs) hx hs
    | jump t ht hs =>
      exact mem_definitions.2 ((names_sharedExit ht hs).imp_right fun h => ⟨v, rfl, h⟩)
  labels v φ hφ := (source_sharedExit hφ).1
  body v _ := (served_sharedExit v).mono fun s hs => .inl hs
  jump v hv t ht s hs := (names_sharedExit ht hs).imp_right fun h => ⟨v, .refl hv, h⟩
  entries v φ hφ x hx u hu hxu hv s hs := by
    obtain ⟨hd, huv⟩ := (source_sharedExit hφ).2 x hx s hs
    obtain rfl := huv u hu hxu
    exact .inr ⟨_, .refl hv, hd⟩

end Source

/-! ## The whole run -/

/-- A name made by a run denotes a number that no name of the program denoted before. -/
theorem exists_number {p q : Program} {s : String} (hn : p.Numbered) (hg : Grows p q)
    (hs : q.Occurs s) (hnew : ¬ p.Occurs s) :
    ∃ k, s = Numeral.nat k ∧ ∀ t, p.Occurs t → Numeral.word32? t.toList ≠ some k := by
  obtain ⟨k, hk, _, rfl⟩ := (hg.new s hs).resolve_left hnew
  refine ⟨k + 1, rfl, fun t ht heq => ?_⟩
  have hle := hn t ht
  rw [heq, Option.getD_some] at hle
  omega

/-- What is valid before a standard run is valid after it, and a name that is new is new under every way
of writing its number. -/
theorem exists_ssa (m : Manager) (c : Config) (tally : Nat) {txt : String} {p : Program}
    (h : Source.parse txt = .ok p) (H : p.Ssa) :
    ∃ r, (m.run none p (.ofModule c tally)).val = .ok r ∧ (r.program.Fits →
      r.program.Ssa ∧ ∀ s ∈ r.program.names, s ∉ p.names →
        ∃ k, s = Numeral.nat k ∧ ∀ t ∈ p.names, Numeral.word32? t.toList ≠ some k) := by
  have hp := Source.wellformed_of_parse h
  obtain ⟨r, ts, hok, hi⟩ := exists_run m c tally hp.proper
  obtain ⟨p', hsteps, hrep⟩ := hi.changes
  have hproper := hsteps.proper hp.proper
  refine ⟨r, hok, fun hfit => ⟨?_, fun s hs hnew => ?_⟩⟩
  · have hlt : p'.temps < 0x100000000 := hrep.temps ▸ hfit.2
    exact (hsteps.ssa hp.proper hp.numbered hlt H).reported hproper rfl hrep
  · have hg := (hsteps.grows hp.proper).trans (Report.grows_reported rfl hrep)
    have hnodup := (hrep.rebodied.proper hproper).nodup
    rw [mem_names hnodup] at hs
    rw [mem_names hp.proper.nodup] at hnew
    obtain ⟨k, hk, hfresh⟩ := exists_number hp.numbered hg hs hnew
    exact ⟨k, hk, fun t ht => hfresh t ((mem_names hp.proper.nodup).1 ht)⟩

theorem exists_ssa_sharedExit : Source.sharedExit.Ssa ∧
    ∃ r, (Manager.pipeline.run none Source.sharedExit (.ofModule {} 0)).val = .ok r ∧
      r.program.Fits ∧ r.program.Ssa ∧ "4" ∈ r.program.names ∧
      ∃ k, "4" = Numeral.nat k ∧
        ∀ t ∈ Source.sharedExit.names, Numeral.word32? t.toList ≠ some k := by
  obtain ⟨r, hr, h⟩ := exists_ssa .pipeline {} 0 Source.parse_sharedExit Source.ssa_sharedExit
  have hfit := Source.fits_sharedExit hr
  have hmem := of_toOption_all (fun r => "4" ∈ r.program.names) hr (by decide +kernel)
  have hnot : "4" ∉ Source.sharedExit.names := by decide
  exact ⟨Source.ssa_sharedExit, r, hr, hfit, (h hfit).1, hmem, (h hfit).2 "4" hmem hnot⟩

end LoopClock
