import LoopClock.Flow.Split
import Mathlib.Data.List.Nodup

/-! What becomes of the phis of a block when edges into it are led through a new block. -/
namespace LoopClock

theorem Value.temp?_of_same {a b : Value} (h : a.same b = true) : a.temp? = b.temp? := by
  cases a <;> cases b <;> simp_all [same, temp?]

namespace Phi

variable {moved : List Label} {via : Label} {p φ : Phi} {o : Option Phi} {m n : Nat}

def incoming (moved : List Label) (p : Phi) : List (Value × Label) := p.source.filter (·.2 ∈ moved)

def kept (moved : List Label) (p : Phi) : List (Value × Label) := p.source.filter (·.2 ∉ moved)

/-- The ways in which a phi is led through a new block. The number of the last temporary is `m`
before and `n` after. -/
inductive Rerouted (moved : List Label) (via : Label) (m : Nat) (p : Phi) :
    Phi → Option Phi → Nat → Prop
  | untouched (none : p.incoming moved = []) : Rerouted moved via m p p .none m
  | agreed (v : Value) (l : Label) (first : (v, l) ∈ p.incoming moved)
      (same : ∀ s ∈ p.incoming moved, s.1.temp? = v.temp?) :
      Rerouted moved via m p { p with source := p.kept moved ++ [(v, via)] } .none m
  | merged (some : p.incoming moved ≠ []) :
      Rerouted moved via m p
        { p with source := p.kept moved ++ [(.temp (.fresh m p.target.ty), via)] }
        (.some ⟨.fresh m p.target.ty, p.incoming moved⟩) (m + 1)

theorem rerouted_reroute (p : Phi) : Rerouted moved via m p
    (p.reroute moved via m).1 (p.reroute moved via m).2.1 (p.reroute moved via m).2.2 := by
  unfold reroute
  dsimp only
  split
  · next h => exact .untouched h
  · next v l rest h =>
    have hmem : (v, l) ∈ p.incoming moved := by
      rw [incoming, h]
      exact List.mem_cons_self
    split
    · next hsame =>
      refine .agreed v l hmem fun s hs => Value.temp?_of_same ?_
      exact List.all_eq_true.1 hsame s hs
    · exact .merged (List.ne_nil_of_mem hmem)

/-- In which order the moved edges are listed makes no difference. -/
theorem rerouteAll_congr {moved' : List Label} (h : ∀ l, l ∈ moved' ↔ l ∈ moved) (m : Nat)
    (ps : List Phi) : rerouteAll moved' via m ps = rerouteAll moved via m ps := by
  have hone : ∀ m p, reroute moved' via m p = reroute moved via m p := fun m p => by
    simp only [reroute, h]
  induction ps generalizing m with
  | nil => rfl
  | cons p ps ih => simp only [rerouteAll, hone, ih]

theorem Rerouted.target (h : Rerouted moved via m p φ o n) : φ.target = p.target := by
  cases h <;> rfl

theorem Rerouted.le (h : Rerouted moved via m p φ o n) : m ≤ n := by
  cases h <;> omega

/-- The labels of a rerouted phi: the moved ones have given way to the new one. -/
theorem Rerouted.labels (h : Rerouted moved via m p φ o k) (hne : p.incoming moved ≠ []) :
    φ.source.map (·.2) = (p.kept moved).map (·.2) ++ [via] := by
  cases h with
  | untouched none => exact absurd none hne
  | agreed => rw [List.map_append, List.map_singleton]
  | merged => rw [List.map_append, List.map_singleton]

/-! ## All phis of a block -/

/-- The phis of a block led through a new block: those that stay and those that are added there. -/
inductive ReroutedAll (moved : List Label) (via : Label) :
    Nat → List Phi → List Phi → List Phi → Nat → Prop
  | nil (m : Nat) : ReroutedAll moved via m [] [] [] m
  | cons {m k n : Nat} {p φ : Phi} {o : Option Phi} {ps stay added : List Phi}
      (head : Rerouted moved via m p φ o k) (tail : ReroutedAll moved via k ps stay added n) :
      ReroutedAll moved via m (p :: ps) (φ :: stay) (o.toList ++ added) n

theorem reroutedAll_rerouteAll (m : Nat) (ps : List Phi) :
    ReroutedAll moved via m ps (rerouteAll moved via m ps).1 (rerouteAll moved via m ps).2.1
      (rerouteAll moved via m ps).2.2 := by
  induction ps generalizing m with
  | nil => exact .nil m
  | cons p ps ih => exact .cons (rerouted_reroute p) (ih _)

namespace ReroutedAll

variable {ps stay added : List Phi} (h : ReroutedAll moved via m ps stay added n)
include h

theorem le : m ≤ n := by
  induction h with
  | nil => exact Nat.le_refl _
  | cons head _ ih => exact Nat.le_trans head.le ih

theorem targets : stay.map (·.target) = ps.map (·.target) := by
  induction h with
  | nil => rfl
  | cons head _ ih => rw [List.map_cons, List.map_cons, head.target, ih]

/-- Each phi that stays comes from one that was there. -/
theorem exists_of_mem_stay (hφ : φ ∈ stay) : ∃ p ∈ ps, ∃ k o l, m ≤ k ∧ l ≤ n ∧
    Rerouted moved via k p φ o l ∧ ∀ a ∈ o, a ∈ added := by
  induction h with
  | nil => cases hφ
  | @cons m k n p φ' o ps stay added head tail ih =>
    rcases List.mem_cons.1 hφ with rfl | hφ
    · exact ⟨p, List.mem_cons_self, m, o, k, Nat.le_refl m, tail.le, head,
        fun a ha => List.mem_append_left _ (by simpa using ha)⟩
    · obtain ⟨p', hp', k', o', l, hk, hl, hr, ho⟩ := ih hφ
      exact ⟨p', List.mem_cons_of_mem p hp', k', o', l, Nat.le_trans head.le hk, hl, hr,
        fun a ha => List.mem_append_right _ (ho a ha)⟩

/-- Each phi that is added merges the values that one of the phis chose from on the moved edges. -/
theorem exists_of_mem_added (hφ : φ ∈ added) : ∃ p ∈ ps, ∃ k, m ≤ k ∧ k < n ∧
    φ = ⟨.fresh k p.target.ty, p.incoming moved⟩ ∧ p.incoming moved ≠ [] := by
  induction h with
  | nil => cases hφ
  | @cons m k n p φ' o ps stay added head tail ih =>
    rcases List.mem_append.1 hφ with hφ | hφ
    · cases head with
      | untouched => cases hφ
      | agreed => cases hφ
      | merged hne =>
        obtain rfl := List.mem_singleton.1 hφ
        have hle := tail.le
        exact ⟨p, List.mem_cons_self, m, Nat.le_refl m, by omega, rfl, hne⟩
    · obtain ⟨p', hp', k', hk, hl, heq, hne⟩ := ih hφ
      exact ⟨p', List.mem_cons_of_mem p hp', k', Nat.le_trans head.le hk, hl, heq, hne⟩

/-- The targets of the added phis are numbered one after the other. -/
theorem names_added : added.map (·.target.name) =
    (List.range' m (n - m)).map fun k => Numeral.nat (k + 1) := by
  induction h with
  | nil m => simp
  | @cons m k n p φ' o ps stay added head tail ih =>
    have hle := tail.le
    cases head with
    | untouched => exact ih
    | agreed => exact ih
    | merged =>
      have hn : n - m = n - (m + 1) + 1 := by omega
      rw [hn, List.range'_succ, Option.toList_some, List.singleton_append, List.map_cons,
        List.map_cons, ih]
      rfl

end ReroutedAll

end Phi
end LoopClock
