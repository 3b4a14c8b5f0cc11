import LoopClock.Proofs.Program.Rows
import LoopClock.Proofs.Run.Passes

/-! Phis that are printed on one line each. What the passes put into a phi has no line break, and what has
been read has none either. -/
namespace LoopClock
open Program

/-! ## Names and values -/

theorem Single.not_mem_magnitudeText (c : Nat) : '\n' ∉ magnitudeText c := by
  rw [magnitudeText]
  split
  · decide
  · split
    · next d k _ =>
      have hd := Numeral.not_mem_ofNat (c := '\n') rfl d
      split
      · simp only [positional]
        split
        · simp [hd]
        split
        · have htake : ∀ i, '\n' ∉ (Numeral.ofNat d).take i := fun _ h => hd (List.mem_of_mem_take h)
          have hdrop : ∀ i, '\n' ∉ (Numeral.ofNat d).drop i := fun _ h => hd (List.mem_of_mem_drop h)
          simp [htake, hdrop]
        · simp [hd]
      · simp only [scientific]
        have he := Numeral.not_mem_ofInt ((Numeral.ofNat d).length + k - 1)
        split
        · next h => rw [h] at hd he; simp_all
        · simp [hd, he]
    · exact List.not_mem_nil

theorem Single.not_mem_text (x : Single) : '\n' ∉ x.text.toList := by
  rw [text]
  split
  · decide
  · have hm : '\n' ∉ (if x.code = infinityCode then "inf".toList else magnitudeText x.code) := by
      split
      · decide
      · exact not_mem_magnitudeText _
    rw [String.toList_ofList]
    split
    · simpa using hm
    · exact hm

theorem Ty.not_mem_text (ty : Ty) : '\n' ∉ ty.text.toList := by cases ty <;> decide

theorem Temp.not_mem_text {t : Temp} (h : '\n' ∉ t.name.toList) : '\n' ∉ t.text.toList := by
  rw [text, String.toList_append, List.mem_append, not_or]
  exact ⟨by split <;> decide, h⟩

theorem Temp.not_mem_fresh (n : Nat) (ty : Ty) : '\n' ∉ (fresh n ty).text.toList :=
  not_mem_text (Numeral.not_mem_nat _)

/-- Only names can bring a line break into the text of a value. -/
theorem Value.not_mem_text {v : Value} (h : ∀ t ∈ v.temp?, '\n' ∉ t.name.toList) : '\n' ∉ v.text.toList := by
  cases v with
  | int i => exact Numeral.not_mem_int _
  | long i => exact Numeral.not_mem_int _
  | float x => exact x.not_mem_text
  | temp t => exact Temp.not_mem_text (h t rfl)

/-! ## Phis -/

namespace Phi

variable {moved : List Label} {via : Label} {m n : Nat} {φ ψ : Phi} {o : Option Phi}

theorem isLine_iff : φ.IsLine ↔ '\n' ∉ φ.target.text.toList ∧
    ∀ s ∈ φ.source, '\n' ∉ s.1.text.toList ∧ '\n' ∉ s.2.toList := by
  have hparts : '\n' ∉ " = phi ".toList ∧ '\n' ∉ " ".toList ∧ '\n' ∉ ", ".toList ∧ '\n' ∉ "[".toList ∧
      '\n' ∉ ", %".toList ∧ '\n' ∉ "]".toList := by decide
  obtain ⟨h₁, h₂, h₃, h₄, h₅, h₆⟩ := hparts
  rw [IsLine, text]
  simp only [String.toList_append, List.mem_append, not_or, not_mem_joined h₃, List.forall_mem_map, h₁, h₂,
    h₄, h₅, h₆, φ.target.ty.not_mem_text, not_false_eq_true, and_true, true_and]

/-- A phi led through a new block takes one line if it took one before. -/
theorem Rerouted.isLine (h : Rerouted moved via m φ ψ o n) (hφ : φ.IsLine) (hvia : '\n' ∉ via.toList) :
    ψ.IsLine := by
  rw [isLine_iff] at hφ ⊢
  obtain ⟨htarget, hsource⟩ := hφ
  have hlast : ∀ v : Value, '\n' ∉ v.text.toList →
      ∀ s ∈ φ.kept moved ++ [(v, via)], '\n' ∉ s.1.text.toList ∧ '\n' ∉ s.2.toList := fun v hv =>
    List.forall_mem_append.2 ⟨fun s hs => hsource s (List.mem_of_mem_filter hs),
      List.forall_mem_singleton.2 ⟨hv, hvia⟩⟩
  cases h with
  | untouched => exact ⟨htarget, hsource⟩
  | agreed v k first same => exact ⟨htarget, hlast v (hsource _ (List.mem_of_mem_filter first)).1⟩
  | merged some => exact ⟨htarget, hlast _ (Temp.not_mem_fresh m _)⟩

end Phi

/-! ## Programs -/

namespace Program

variable {K : Config → Prop} {p q : Program}

theorem Lined.phis (h : p.Lined) (v : Vertex) : ∀ φ ∈ p.phis v, φ.IsLine := by
  intro φ hφ
  cases hb : p.block? v with
  | none => simp [Program.phis, hb] at hφ
  | some b =>
    obtain ⟨f, hf, hbf⟩ := mem_blocks_of_block? hb
    exact h f (List.mem_of_getElem? hf) b hbf φ (by simpa [Program.phis, hb] using hφ)

/-- Ids being distinct, all phis are those of some vertex. -/
theorem lined_of_phis (hp : p.Proper) (h : ∀ v, ∀ φ ∈ p.phis v, φ.IsLine) : p.Lined := by
  intro f hf b hb φ hφ
  obtain ⟨i, hi⟩ := List.getElem?_of_mem hf
  refine h ⟨i, b.id⟩ φ ?_
  rw [phis, block?_of_mem (hp.nodup i) hi hb]
  exact hφ

/-- No change that passes make brings a line break into a phi. -/
theorem Edit.lined (h : Edit K p q) (hp : p.Proper) (hl : p.Lined) : q.Lined := by
  refine lined_of_phis (h.proper hp) fun v φ hφ => ?_
  cases h with
  | around h => exact hl.phis v φ ((Rebodied.of_funcs h.funcs).phis ▸ hφ)
  | time _ T => exact hl.phis v φ ((T.rebodied hp).phis ▸ hφ)
  | report _ h => exact hl.phis v φ (h.rebodied.phis ▸ hφ)
  | @split _ e n preds C S =>
    have hR := reroutedAll_splitPhis p e n preds
    rw [C.phis_eq S] at hφ
    split at hφ
    · obtain ⟨ψ, hψ, k, -, -, rfl, -⟩ := hR.exists_of_mem_added hφ
      have hψ := Phi.isLine_iff.1 (hl.phis e ψ hψ)
      exact Phi.isLine_iff.2 ⟨Temp.not_mem_fresh k _, fun s hs => hψ.2 s (List.mem_of_mem_filter hs)⟩
    split at hφ
    · obtain ⟨ψ, hψ, _, _, _, -, -, hr, -⟩ := hR.exists_of_mem_stay hφ
      exact hr.isLine (hl.phis e ψ hψ) (Label.line_ofId n.id).1
    · exact hl.phis v φ hφ

theorem Edits.lined (h : Edits K p q) (hp : p.Proper) (hl : p.Lined) : q.Lined := by
  induction h with
  | refl => exact hl
  | tail h k ih => exact k.lined (Edits.proper h hp) ih

end Program

end LoopClock
