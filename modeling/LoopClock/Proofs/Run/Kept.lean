import LoopClock.Proofs.Flow.Congruence
import LoopClock.Proofs.Run.Steps

/-! What a run leaves of the loops that were there at the start: all of them, each with an exit if it had
one. A function without new blocks has the same analyses as before. -/
namespace LoopClock
open Graph Program

variable {c : Config} {p₀ p : Program} {ts : List Timing} {j : Nat} {k : Vertex}

namespace Steps

variable (h : Steps c p₀ p ts) (h₀ : p₀.Proper)
include h h₀

theorem isHeader_iff : IsHeader p.Edge (root j) k ↔ IsHeader p₀.Edge (root j) k := by
  refine h.flow_induction (motive := fun p =>
    IsHeader p.Edge (root j) k ↔ IsHeader p₀.Edge (root j) k) h₀ Iff.rfl ?_ ?_
  · intro p q _ hr ih
    rwa [hr.edge]
  · intro p q ts i l e hp X S ih
    by_cases hj : j = i
    · subst hj
      have R := X.exitReroute hp S
      have hr := X.root_ne hp
      by_cases hn : k = p.nextVertex j
      · refine iff_of_false ?_ fun hk => R.header_ne (ih.2 hk) hn
        exact hn ▸ ExitReroute.not_isHeader_new R hr X.loop.header X.exit
      · exact (ExitReroute.isHeader_iff R hr X.loop.header X.exit hn).trans ih
    · exact ((X.agreeOn hp S hj).isHeader_iff rfl).trans ih

theorem exists_isExit_iff (hk : IsHeader p₀.Edge (root j) k) :
    (∃ x, IsExit p.Edge (root j) k x) ↔ ∃ x, IsExit p₀.Edge (root j) k x := by
  suffices hs : IsHeader p.Edge (root j) k ∧
      ((∃ x, IsExit p.Edge (root j) k x) ↔ ∃ x, IsExit p₀.Edge (root j) k x) from hs.2
  refine h.flow_induction (motive := fun p => IsHeader p.Edge (root j) k ∧
    ((∃ x, IsExit p.Edge (root j) k x) ↔ ∃ x, IsExit p₀.Edge (root j) k x)) h₀ ⟨hk, Iff.rfl⟩ ?_ ?_
  · intro p q _ hr ih
    rwa [hr.edge]
  · rintro p q ts i l e hp X S ⟨hkp, ih⟩
    by_cases hj : j = i
    · subst hj
      have R := X.exitReroute hp S
      have hr := X.root_ne hp
      have hn := R.header_ne hkp
      exact ⟨(ExitReroute.isHeader_iff R hr X.loop.header X.exit hn).2 hkp,
        (ExitReroute.exists_isExit_iff R hr X.loop.header X.exit hkp).trans ih⟩
    · have A := X.agreeOn hp S hj
      exact ⟨(A.isHeader_iff rfl).2 hkp,
        (exists_congr fun x => A.isExit_iff (x := x) rfl hkp).trans ih⟩

/-- New blocks have greater ids than there were, so without them there are no new edges. -/
theorem alike (ht : p.total j = p₀.total j) : (p₀.flow j).Alike (p.flow j) := by
  suffices hs : p₀.total j ≤ p.total j ∧ (p.total j = p₀.total j → p.ids j = p₀.ids j ∧
      ∀ v : Vertex, v.func = j → ∀ w, p.Edge v w ↔ p₀.Edge v w) by
    obtain ⟨hids, hedge⟩ := hs.2 ht
    refine ⟨by simp only [flow, hids], fun v hv => hedge v ?_⟩
    obtain ⟨_, _, rfl⟩ := List.mem_map.1 hv
    rfl
  refine h.flow_induction (motive := fun p => p₀.total j ≤ p.total j ∧
    (p.total j = p₀.total j → p.ids j = p₀.ids j ∧
      ∀ v : Vertex, v.func = j → ∀ w, p.Edge v w ↔ p₀.Edge v w)) h₀
    ⟨Int.le_refl _, fun _ => ⟨rfl, fun _ _ _ => Iff.rfl⟩⟩ ?_ ?_
  · intro p q _ hr ih
    rwa [hr.total, hr.ids, hr.edge]
  · rintro p q ts i l e hp X S ⟨hle, ih⟩
    have hid := (X.cut hp).id_eq
    have hnf : (p.nextVertex i).func = i := rfl
    rw [(X.cut hp).total_eq S]
    rw [hnf] at hid ⊢
    by_cases hj : j = i
    · subst hj
      rw [if_pos rfl]
      exact ⟨by omega, fun heq => by omega⟩
    · rw [if_neg hj]
      refine ⟨hle, fun heq => ?_⟩
      obtain ⟨hids, hedge⟩ := ih heq
      exact ⟨(S.ids j hj).trans hids,
        fun v hv w => ((X.agreeOn hp S hj).edge v w hv).trans (hedge v hv w)⟩

theorem forest_eq (hj : j < p₀.funcs.length) (ht : p.total j = p₀.total j) :
    (p.flow j).forest = (p₀.flow j).forest :=
  congrArg Analyses.forest ((h.alike h₀ ht).analyses_eq (h₀.sound hj)
    ((h.proper h₀).sound (h.length_eq h₀ ▸ hj)))

end Steps

end LoopClock
