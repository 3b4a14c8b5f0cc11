import LoopClock.Proofs.Run.Edits
import LoopClock.Proofs.Source.Programs

/-! The counters of a program. The reader finds them as the greatest numbers in use, and passes put every
number that they count up to into the program. -/
namespace LoopClock
open Graph Program

variable {K : Config → Prop} {p q : Program} {e n v : Vertex} {preds : List Vertex} {i : Nat}
  {s : String} {t : Temp} {x : Instr}

theorem number_nat {k : Nat} (h : k < 0x100000000) :
    (Numeral.word32? (Numeral.nat k).toList).getD 0 = k := by
  rw [Numeral.nat, String.toList_ofList, Numeral.word32?_ofNat h]
  rfl

namespace Program

/-- The counters are numbers in use. -/
structure Tight (p : Program) : Prop where
  total : ∀ i < p.funcs.length, p.total i ∈ p.ids i
  temps : p.temps = 0 ∨
    ∃ i < p.funcs.length, ∃ s ∈ p.definitions i, (Numeral.word32? s.toList).getD 0 = p.temps

namespace Tight

theorem rebodied (h : p.Tight) (hr : Rebodied p q) (hb : ∀ v, ∀ x ∈ p.body v, x ∈ q.body v)
    (ht : q.temps = p.temps) : q.Tight where
  total i hi := by
    rw [hr.total, hr.ids]
    exact h.total i (hr.length ▸ hi)
  temps := by
    rw [ht]
    exact h.temps.imp_right fun ⟨i, hi, s, hs, hn⟩ =>
      ⟨i, hr.length ▸ hi, s, hr.mem_definitions hb hs, hn⟩

/-- The phis of the new block are numbered up to the last number. -/
theorem split (h : p.Tight) (C : Cut p e n preds) (S : Split p e n preds q)
    (hlt : q.temps < 0x100000000) : q.Tight where
  total i hi := by
    rw [C.total_eq S]
    split
    · next hf => exact S.mem_ids_iff.2 (.inr ⟨hf, rfl⟩)
    · exact S.mem_ids_iff.2 (.inl (h.total i (S.length_eq ▸ hi)))
  temps := by
    have hle := (C.grows S).le
    rcases Nat.lt_or_eq_of_le hle with hgrown | hsame
    · have hmem : Numeral.nat q.temps ∈ localNames ((p.splitPhis e n preds).2.1.map (·.target)) := by
        rw [Cut.newNames_eq, ← S.temps]
        exact List.mem_map.2 ⟨q.temps - 1, List.mem_range'_1.2 ⟨by omega, by omega⟩,
          congrArg Numeral.nat (by omega)⟩
      obtain ⟨t, ht, hl, hname⟩ := mem_localNames.1 hmem
      obtain ⟨φ, hφ, rfl⟩ := List.mem_map.1 ht
      have hdef := C.mem_defs_new S hφ
        (mem_localNames.2 ⟨φ.target, List.mem_singleton_self _, hl, hname⟩)
      have hi : n.func < q.funcs.length := by
        rw [S.length_eq, C.func_eq]
        exact C.lt_length
      exact .inr ⟨n.func, hi, _, mem_definitions.2 (.inr ⟨n, rfl, hdef⟩), number_nat hlt⟩
    · rw [← hsame]
      exact h.temps.imp_right fun ⟨i, hi, s, hs, hn⟩ =>
        ⟨i, S.length_eq ▸ hi, s, C.mem_definitions_split S hs, hn⟩

end Tight

/-- The last number of a timer is that of the clock, or of the address in the last exit. -/
theorem Timable.mem_definitions_last {header : Vertex} {exits : List Vertex}
    (T : p.Timable header exits) (hp : p.Proper) {c : Config} {len slot : Nat} :
    Numeral.nat (Timer.place p header.func (.ofConfig c len) slot header exits).temps ∈
      (Timer.place p header.func (.ofConfig c len) slot header exits).definitions header.func := by
  have hi := lt_of_mem_ids T.header
  rw [Timer.temps_place]
  cases hexits : exits.getLast? with
  | none =>
    obtain rfl := List.getLast?_eq_none_iff.1 hexits
    refine mem_definitions_of_body (x := Timer.sampleClock (.ofConfig c len) (Timer.clockOf p))
      (v := header) ?_ rfl rfl
    rw [Timer.body_place hp hi T.header T.mem T.nodup, mem_topped, mem_topped, if_pos rfl]
    exact .inr (.inl List.mem_cons_self)
  | some y =>
    obtain ⟨ys, rfl⟩ := List.getLast?_eq_some_iff.1 hexits
    have hy : y ∈ ys ++ [y] := List.mem_append_right _ (List.mem_singleton_self y)
    have hidx : (ys ++ [y]).idxOf y = ys.length := by
      have hnot : y ∉ ys := fun h =>
        (List.nodup_append.1 T.nodup).2.2 y h y (List.mem_singleton_self y) rfl
      rw [List.idxOf_append_of_notMem hnot, List.idxOf_cons_self, Nat.add_zero]
    have hbody := @Timer.body_place p (.ofConfig c len) slot header.func y header (ys ++ [y]) hp hi
      (T.mem y hy) T.mem T.nodup
    rw [if_pos hy, hidx] at hbody
    have hlast : p.temps + 2 + 4 * (ys ++ [y]).length = p.temps + 2 + 4 * ys.length + 3 + 1 := by
      rw [List.length_append, List.length_singleton]
      omega
    have hmem : Instr.gep (.fresh (p.temps + 2 + 4 * ys.length + 3) .i64Ptr) .i64
        (.temp (Instrumentation.ofConfig c len).storage) (.int (Int32.ofNat slot)) ∈
        (Timer.place p header.func (.ofConfig c len) slot header (ys ++ [y])).body y := by
      rw [hbody, mem_topped]
      exact .inl (List.mem_cons_of_mem _ (List.mem_cons_of_mem _ (List.mem_cons_of_mem _
        List.mem_cons_self)))
    have hdef := mem_definitions_of_body hmem rfl rfl
    rw [T.func y hy] at hdef
    rw [hlast]
    exact hdef

theorem Edit.tight (h : Edit K p q) (hp : p.Proper) (hlt : q.temps < 0x100000000) (ht : p.Tight) :
    q.Tight := by
  cases h with
  | around h =>
    have hb : q.body = p.body := (Revised.of_funcs h.funcs).body fun _ _ => rfl
    exact ht.rebodied (.of_funcs h.funcs) (fun v x hx => hb ▸ hx) h.temps
  | split C S => exact ht.split C S hlt
  | @time c len slot header exits _ T =>
    have hr : Rebodied p (Timer.place p header.func (.ofConfig c len) slot header exits) :=
      T.rebodied hp
    have hi : header.func < p.funcs.length := lt_of_mem_ids T.header
    refine ⟨fun i hi => ?_, .inr ⟨_, hr.length ▸ hi, _, T.mem_definitions_last hp, number_nat hlt⟩⟩
    rw [hr.total, hr.ids]
    exact ht.total i (hr.length ▸ hi)
  | report _ h =>
    refine ht.rebodied h.rebodied (fun v x hx => ?_) h.temps
    rcases h.body v with hb | ⟨hb, _⟩
    · rwa [hb]
    · rw [hb]
      exact List.mem_append_left _ hx

end Program

namespace Source

/-- The counter of temporaries is what the reader makes of the functions. -/
theorem highest_eq (hn : ∀ i, (p.ids i).Nodup) (hnum : p.Numbered) (ht : p.Tight)
    (hw : ∀ f ∈ p.funcs, ∀ t ∈ f.writes, t.isGlobal = false) : highest p.funcs = p.temps := by
  refine Nat.le_antisymm ?_ ?_
  · rw [highest]
    rcases foldl_max_mem ((p.funcs.flatMap Func.writes).map Temp.number) 0 with h | h
    · rw [h]
      exact Nat.zero_le _
    · obtain ⟨t, hmem, heq⟩ := List.mem_map.1 h
      obtain ⟨f, hf, htw⟩ := List.mem_flatMap.1 hmem
      obtain ⟨i, hi⟩ := List.getElem?_of_mem hf
      have hdef : t.name ∈ p.definitions i := by
        rw [definitions_eq (hn i) hi]
        exact mem_localNames.2 ⟨t, htw, hw f hf t htw, rfl⟩
      have hoccurs : p.Occurs t.name := (mem_definitions.1 hdef).elim occurs_of_mem_params
        fun ⟨u, _, hu⟩ => occurs_of_mem_defs hu
      rw [← heq]
      exact hnum _ hoccurs
  · rcases ht.temps with h | ⟨i, hi, s, hs, heq⟩
    · rw [h]
      exact Nat.zero_le _
    · rw [definitions_eq (hn i) (List.getElem?_eq_getElem hi)] at hs
      obtain ⟨t, htw, _, rfl⟩ := mem_localNames.1 hs
      rw [← heq]
      exact number_le_highest (List.getElem_mem hi) htw

theorem tight_of_parse {txt : String} (h : parse txt = .ok p) : p.Tight := by
  have hp := (wellformed_of_parse h).proper
  obtain ⟨R, htemps⟩ := rereadable_of_parse h
  constructor
  · intro i hi
    have hf : p.funcs[i]? = some p.funcs[i] := List.getElem?_eq_getElem hi
    obtain ⟨_, hself⟩ := R.funcs i _ hf
    have htotal : p.total i = (p.ids i).foldl max 0 := by
      rw [total, hf, ids_eq hf, Func.ids]
      refine (congrArg Func.total hself).symm.trans ?_
      rw [Func.assembled, List.map_map]
      rfl
    rw [htotal]
    exact (foldl_max_mem _ _).elim (fun h => h ▸ List.mem_of_head? (hp.entry i hi)) id
  · rw [htemps, highest]
    refine (foldl_max_mem _ 0).imp_right fun h => ?_
    obtain ⟨t, hmem, heq⟩ := List.mem_map.1 h
    obtain ⟨f, hf, htw⟩ := List.mem_flatMap.1 hmem
    obtain ⟨i, hi⟩ := List.getElem?_of_mem hf
    refine ⟨i, (List.getElem?_eq_some_iff.1 hi).1, t.name, ?_, heq⟩
    rw [definitions_eq (hp.nodup i) hi]
    exact mem_localNames.2 ⟨t, htw, ((R.funcs i f hi).1.spelled.isLocal t htw).notGlobal, rfl⟩

end Source

end LoopClock
