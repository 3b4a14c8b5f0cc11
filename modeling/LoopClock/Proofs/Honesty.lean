import LoopClock.Proofs.BuiltIn
import LoopClock.Proofs.Reachable
import LoopClock.Proofs.Run.Growth
import LoopClock.Proofs.Run.Lines
import LoopClock.Proofs.Run.Outcome

/-! What a run reports is true. If it reports no change, nothing has changed, and if it reports one, the text
has changed. -/
namespace LoopClock
open Program

variable {R : Bool → Progress → Progress → Prop} {changed : Bool} {s t : Progress} {p : Program}
  {c : Context} {txt : String}

/-! ## The passes of the profiler -/

/-- All passes of the profiler are in the relation. -/
structure Profiler.Within (R : Bool → Progress → Progress → Prop) : Prop where
  modules : ∀ a ∈ modulePasses, Effect.Within R a.run
  loops : ∀ a ∈ loopPasses, a.Within R

theorem Pipeline.BuiltIn.within {l : Pipeline} (h : l.BuiltIn) (W : Profiler.Within R) : l.Within R where
  modules a ha := W.modules a (h.modules a ha)
  loops a ha := W.loops a (h.loops a ha)
  late a ha := W.modules a (h.late a ha)

theorem Schedule.BuiltIn.within {s : Schedule} (h : s.BuiltIn) (W : Profiler.Within R) : s.Within R := by
  intro x hx
  cases x with
  | onModule a => exact W.modules a (h _ hx)
  | onLoops as => exact fun a ha => W.loops a (h _ hx a ha)

namespace Profiler

end Profiler

/-! ## Programs that come from a text -/

theorem Source.lined_of_parse (h : parse txt = .ok p) : p.Lined := by
  have R := readable_of_parse h
  have hname : ∀ {s : String}, IsName s → '\n' ∉ s.toList := fun hs hbreak =>
    absurd (hs.2 _ hbreak) (by decide)
  intro f hf b hb φ hφ
  have hspelled : φ.IsSpelled :=
    ((R.funcs f hf).spelled.blocks b hb).placed (.phi φ) (by simp [Block.placed, hφ])
  refine Phi.isLine_iff.2 ⟨Temp.not_mem_text (hname hspelled.target.2), fun s hs => ⟨?_, ?_⟩⟩
  · exact Value.not_mem_text fun t ht => hname (hspelled.named s.1 (List.mem_map_of_mem hs) t ht)
  · rcases hspelled.labels s hs with hlabel | ⟨cs, hcs, hlabel⟩ <;> rw [hlabel]
    · decide
    · rw [String.toList_ofList, List.mem_cons, not_or]
      exact ⟨by decide, fun hbreak => absurd (hcs.2 _ hbreak) (by decide)⟩

/-- In every program that runs of the passes lead to, each phi is printed on one line. -/
theorem Reachable.lined (h : Reachable txt p c) : p.Lined := by
  induction h with
  | parsed parse config tally => exact Source.lined_of_parse parse
  | renewed _ config tally ih => exact ih
  | kept _ _ ih _ => exact ih
  | @run _ p c m names r before run ih =>
    have hp := before.reached.sound.proper
    have E := Manager.run_edited (s := (p, c)) hp ⟨.refl, before.reached.within⟩ run
    exact Edits.lined E.edits hp ih

/-! ## Whole runs -/

end LoopClock
