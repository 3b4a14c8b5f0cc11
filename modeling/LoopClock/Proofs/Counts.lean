import LoopClock.Proofs.Run.Counts

/-! A run counts every natural loop of the program it is given once, and hands out one slot to each loop
that can be left, in the order of visits. It does so although the loops are looked up again in graphs
that earlier loops have changed. -/
namespace LoopClock
open Graph Program

variable {p : Program}

/-- `vs` has every natural loop of every function once, with the place of its function. -/
structure Program.Lists (p : Program) (vs : List (Nat × Loop)) : Prop where
  nodup : (vs.map fun v => (v.1, v.2.header)).Nodup
  natural : ∀ i l, (i, l) ∈ vs → i < p.funcs.length ∧ p.HasLoop i l
  all : ∀ i h, i < p.funcs.length → IsHeader p.Edge (root i) h → ∃ l, (i, l) ∈ vs ∧ l.header = h

theorem mem_visits {i : Nat} {l : Loop} :
    (i, l) ∈ p.visits ↔ i < p.funcs.length ∧ l ∈ (p.flow i).forest.postOrder := by
  simp [visits]

theorem lists_visits (hp : p.Proper) : p.Lists p.visits where
  nodup := by
    rw [visits, List.map_flatMap, List.nodup_flatMap]
    refine ⟨fun i hi => ?_, List.nodup_range.imp fun {i j} hij => ?_⟩
    · have hn := (hp.sound (List.mem_range.1 hi)).postOrder_nodup
      have hn := hn.map (f := (i, ·)) fun _ _ h => (Prod.mk.inj h).2
      rw [List.map_map] at hn ⊢
      exact hn
    · intro v hv hw
      obtain ⟨a, ha, rfl⟩ := List.mem_map.1 hv
      obtain ⟨b, hb, hab⟩ := List.mem_map.1 hw
      obtain ⟨_, _, rfl⟩ := List.mem_map.1 ha
      obtain ⟨_, _, rfl⟩ := List.mem_map.1 hb
      exact hij (Prod.mk.inj hab).1.symm
  natural i l h := by
    obtain ⟨hi, hl⟩ := mem_visits.1 h
    have hs := hp.sound hi
    exact ⟨hi, hs.natural_of_mem_loops (hs.mem_postOrder.1 hl)⟩
  all i h hi hh := by
    have hs := hp.sound hi
    obtain ⟨l, hl, _, rfl⟩ := hs.exists_byHeader? hh
    exact ⟨l, mem_visits.2 ⟨hi, hs.mem_postOrder.2 hl⟩, rfl⟩

/-- A loop can be left if an edge leads from one of its blocks to one outside. -/
theorem mem_leavable (hp : p.Proper) {i : Nat} {l : Loop} (h : (i, l) ∈ p.visits) :
    (i, l) ∈ p.leavable p.visits ↔ ∃ u x, u ∈ l.blocks ∧ x ∉ l.blocks ∧ p.Edge u x := by
  have hl := ((lists_visits hp).natural i l h).2
  simp only [leavable, List.mem_filter, h, true_and, decide_eq_true_eq, hl.mem]
  constructor
  · intro hne
    obtain ⟨x, hx⟩ := List.exists_mem_of_ne_nil _ hne
    obtain ⟨hout, u, hu, he⟩ := (HasLoop.mem_exitBlocks hp hl).1 hx
    exact ⟨u, x, hu, hout, he⟩
  · rintro ⟨u, x, hu, hout, he⟩
    exact List.ne_nil_of_mem ((HasLoop.mem_exitBlocks hp hl).2 ⟨hout, u, hu, he⟩)

/-- The tally grows by the number of loops, the slots go to the loops that can be left, from 0 on and in
the order of visits, and the storage is as long as it has to be. Storage that a run defines itself is
never grown. -/
theorem exists_counted (m : Manager) (c : Config) (tally : Nat) {txt : String} {p : Program}
    (h : Source.parse txt = .ok p) :
    p.Lists p.visits ∧
    (∀ i l, (i, l) ∈ p.visits →
      ((i, l) ∈ p.leavable p.visits ↔ ∃ u x, u ∈ l.blocks ∧ x ∉ l.blocks ∧ p.Edge u x)) ∧
    ∃ r, (m.run none p (.ofModule c tally)).val = .ok r ∧
      r.context.tally = tally + p.visits.length ∧
      r.context.slots = (p.leavable p.visits).length ∧
      timers (m.run none p (.ofModule c tally)).events = p.announcements (p.leavable p.visits) ∧
      (p.global? c.storage = none →
        (r.program.global? c.storage).map Global.len = some (max p.visits.length c.minSlots) ∧
        ∀ storage n, .storageGrown storage n ∉ (m.run none p (.ofModule c tally)).events) ∧
      ∀ g, p.global? c.storage = some g →
        (r.program.global? c.storage).map Global.len = some (max g.len r.context.slots) := by
  have hp := (Source.wellformed_of_parse h).proper
  have A := accounted_instrument hp c tally
  have hrun := m.completes p (.ofModule c tally)
  obtain ⟨r, hok, hr⟩ := hrun.ok
  rw [← hr] at A
  have hle : (p.leavable p.visits).length ≤ p.visits.length := List.length_filter_le ..
  refine ⟨lists_visits hp, fun i l => mem_leavable hp, r, hok, A.tally, A.slots,
    hrun.timers.trans A.timers, fun hnone => ?_, fun g hg => ?_⟩
  · have hfor : p.storageFor c = .zeroed c.storage (max p.visits.length c.minSlots) slotBits := by
      rw [storageFor, hnone, Option.getD_none]
    have hslots : r.context.slots ≤ (p.storageFor c).len := by
      rw [hfor, Global.len_zeroed, A.slots]
      omega
    constructor
    · rw [A.storage, Global.growTo_of_le hslots, hfor]
      rfl
    · intro storage n hmem
      rw [← mem_works_grown, hrun.works, mem_works_grown] at hmem
      exact A.ungrown hslots storage n hmem
  · rw [A.storage, storageFor, hg, Option.getD_some, Option.map_some, Global.len_growTo]

theorem exists_counted_sharedExit :
    ∃ r, (Manager.pipeline.run none Source.sharedExit (.ofModule {} 3)).val = .ok r ∧
      r.context.tally = 4 ∧ r.context.slots = 1 ∧
      timers (Manager.pipeline.run none Source.sharedExit (.ofModule {} 3)).events =
        [(1, "main", 0)] ∧
      (r.program.global? "__loopprof_elapsed").map Global.len = some 1 := by
  obtain ⟨_, _, r, hr, htally, hslots, htimers, hnew, _⟩ :=
    exists_counted .pipeline {} 3 Source.parse_sharedExit
  have hvisits : Source.sharedExit.visits.length = 1 := by decide +kernel
  have hleavable : Source.sharedExit.announcements
      (Source.sharedExit.leavable Source.sharedExit.visits) = [(1, "main", 0)] := by decide +kernel
  have hlen : (Source.sharedExit.leavable Source.sharedExit.visits).length = 1 := by decide +kernel
  refine ⟨r, hr, htally.trans (by rw [hvisits]), hslots.trans hlen, htimers.trans hleavable, ?_⟩
  exact (hnew rfl).1.trans (by rw [hvisits]; rfl)

end LoopClock
