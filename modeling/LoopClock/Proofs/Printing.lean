import LoopClock.Proofs.Run.Standard
import LoopClock.Proofs.Source.Programs

/-! A program that was read and printed, and is read again. The text is read unless a float in it
has an exponent or a word of a global stands for a negative number; what is read prints the same,
and it is the same program unless a computed address has another type than what it is computed
from. -/
namespace LoopClock

private theorem retyped_eq_self_iff (i : Instr) :
    Source.retyped i = i ↔ ∀ t ty addr offset, i = .gep t ty addr offset → t.ty = addr.ty := by
  cases i with
  | gep t ty addr offset =>
    obtain ⟨name, isGlobal, tty⟩ := t
    simp only [Source.retyped, Instr.gep.injEq, Temp.mk.injEq, and_true, true_and]
    constructor
    · rintro h t _ _ _ ⟨rfl, _, rfl, _⟩
      exact h.symm
    · exact fun h => (h _ ty addr offset ⟨rfl, rfl, rfl, rfl⟩).symm
  | _ =>
    refine iff_of_true rfl fun t ty addr offset h => ?_
    cases h

private theorem placed_eq_self_iff {b : Block} (h : ∀ v ∈ b.values, v.reread = v) :
    (∀ x ∈ b.placed, x.reread = x) ↔ ∀ t ty addr offset,
      Instr.gep t ty addr offset ∈ b.body → t.ty = addr.ty := by
  have hvalues : ∀ x ∈ b.placed, ∀ v ∈ x.values, v.reread = v := fun x hx v hv =>
    h v (List.mem_flatMap.2 ⟨x, hx, hv⟩)
  constructor
  · intro hall t ty addr offset hi
    have hmem : Source.Placed.body (.gep t ty addr offset) ∈ b.placed := by simp [Block.placed, hi]
    have hself : Instr.reread (.gep t ty addr offset) = .gep t ty addr offset :=
      Source.Placed.body.inj (hall _ hmem)
    rw [Source.reread_instr (i := .gep t ty addr offset) (hvalues _ hmem)] at hself
    exact (retyped_eq_self_iff _).1 hself t ty addr offset rfl
  · intro hgep x hx
    cases x with
    | phi φ => exact congrArg Source.Placed.phi (Source.reread_phi (φ := φ) (hvalues _ hx))
    | body i =>
      have hi : i ∈ b.body := by simpa [Block.placed] using hx
      refine congrArg Source.Placed.body ((Source.reread_instr (i := i) (hvalues _ hx)).trans ?_)
      exact (retyped_eq_self_iff i).2 fun t ty addr offset h => hgep t ty addr offset (h ▸ hi)
    | last t => exact congrArg Source.Placed.last (Source.reread_terminator (t := t) (hvalues _ hx))

theorem exists_reread {text : String} {p : Program} (h : Source.parse text = .ok p)
    (hf : ∀ f ∈ p.funcs, ∀ x : Single, .float x ∈ f.values → x.IsPlain →
      Single.read? x.text.toList = some x) :
    ((∃ q, Source.parse p.text = .ok q) ↔
      (∀ f ∈ p.funcs, ∀ x : Single, .float x ∈ f.values → x.IsPlain) ∧
        ∀ g ∈ p.globals, ∀ w ∈ g.words, w.toNat < 0x8000000000000000) ∧
    ∀ q, Source.parse p.text = .ok q → q.text = p.text ∧
      (q = p ↔ ∀ f ∈ p.funcs, ∀ b ∈ f.blocks, ∀ t ty addr offset,
        Instr.gep t ty addr offset ∈ b.body → t.ty = addr.ty) := by
  obtain ⟨R, htemps⟩ := Source.rereadable_of_parse h
  have hparse (q : Program) := Source.parse_text (q := q) (Source.readable_of_parse h)
  have hplain : p.IsPlain ↔ ∀ f ∈ p.funcs, ∀ x : Single, .float x ∈ f.values → x.IsPlain := by
    rw [Program.isPlain_iff]
    refine forall₂_congr fun f _ => ⟨fun h x hx => h _ hx, fun h v hv => ?_⟩
    cases v with
    | float x => exact h x hv
    | _ => trivial
  have hnarrow : (∀ g ∈ p.globals, g.IsNarrow) ↔
      ∀ g ∈ p.globals, ∀ w ∈ g.words, w.toNat < 0x8000000000000000 :=
    forall₂_congr fun g hg => Source.isNarrow_iff R hg
  refine ⟨?_, fun q hq => ?_⟩
  · rw [← hplain, ← hnarrow]
    exact ⟨fun ⟨q, hq⟩ => ⟨((hparse q).1 hq).1, ((hparse q).1 hq).2.1⟩,
      fun ⟨hp, hn⟩ => ⟨p.reread, (hparse _).2 ⟨hp, hn, rfl⟩⟩⟩
  · obtain ⟨hp, -, rfl⟩ := (hparse q).1 hq
    have hvalues : ∀ f ∈ p.funcs, ∀ v ∈ f.values, v.reread = v := by
      intro f hmem v hv
      cases v with
      | float x => rw [Value.reread, hf f hmem x hv (hplain.1 hp f hmem x hv), Option.getD_some]
      | _ => rfl
    refine ⟨Source.text_reread R hvalues, (Source.reread_eq_iff R htemps).trans ?_⟩
    exact forall₂_congr fun f hmem => forall₂_congr fun b hb =>
      placed_eq_self_iff fun v hv => hvalues f hmem v (List.mem_flatMap.2 ⟨b, hb, hv⟩)

namespace Source

/-- A global whose word is negative, and a function that halves a number. -/
def halvedText : String :=
  "@last = global i32 -1
define f32 @half(f32 %x) \x7b
entry:
%y = fmul f32 %x, 0.5
ret f32 %y
\x7d
"

def halved : Program where
  globals := [⟨"last", [.word 0xffffffffffffffff], 32, false⟩]
  funcs := [⟨"half", .f32, [⟨"x", false, .f32⟩], 0,
    [{ id := 0,
       body := [.arith ⟨"y", false, .f32⟩ .fmul .f32 (.temp ⟨"x", false, .f32⟩)
         (.float ⟨false, 0x3f000000⟩)],
       jump := some (.ret (some (.temp ⟨"y", false, .f32⟩))) }]⟩]

theorem parse_halved : parse halvedText = .ok halved := by
  refine (parse_ofList _).trans ?_
  decide +kernel

end Source

theorem exists_reread_halved :
    Source.parse Source.halvedText = .ok Source.halved ∧
      ¬ ∃ q, Source.parse Source.halved.text = .ok q := by
  have hhalf : Single.read? (Single.text ⟨false, 0x3f000000⟩).toList = some ⟨false, 0x3f000000⟩ := by
    decide +kernel
  have hfloats : ∀ f ∈ Source.halved.funcs, ∀ x : Single, .float x ∈ f.values → x.IsPlain →
      Single.read? x.text.toList = some x := by
    intro f hf x hx _
    obtain rfl := List.mem_singleton.1 hf
    obtain rfl : x = ⟨false, 0x3f000000⟩ := by
      simpa [Func.values, Block.values, Block.placed, Source.Placed.values, Instr.values,
        Terminator.values] using hx
    exact hhalf
  obtain ⟨hreads, -⟩ := exists_reread Source.parse_halved hfloats
  refine ⟨Source.parse_halved, fun h => ?_⟩
  have hword := (hreads.1 h).2 _ (List.mem_singleton_self _) 0xffffffffffffffff
    (List.mem_singleton_self _)
  exact absurd hword (by decide)

end LoopClock
