import LoopClock.Pass.Rounds
import LoopClock.Proofs.Run.Outcome
import LoopClock.Proofs.Run.Recoverable

/-! Rounds that go through the text of the program. What is read differs from what was printed in the order
of the blocks before a block and in how zeros of globals are kept, and the next round does not see either.
But the length of the storage is printed as a number without a sign and read as one with a sign, so a
storage that is too long keeps the program from being read. -/
namespace LoopClock
open Program Source

variable {c : Config} {p₀ p q : Program} {m : Manager} {tally n : Nat} {txt : String}

/-- Two runs that tell the same and leave the same text. -/
structure Run.Agrees (r s : Run) : Prop where
  order : s.order = r.order
  changed : s.changed = r.changed
  context : s.context = r.context
  text : s.program.text = r.program.text

namespace Round

/-- A round that leaves block ids and numbers of temporaries within their ranges. -/
def Fits : Round → Prop
  | done r _ => r.program.Fits
  | failed .. | unreadable _ => True

instance : DecidablePred Fits
  | done r _ => inferInstanceAs (Decidable r.program.Fits)
  | failed .. | unreadable _ => .isTrue trivial

/-- Two rounds that were made and agree. -/
inductive Agrees : Round → Round → Prop
  | done {r s : Run} {es fs : List Event} (runs : r.Agrees s) : Agrees (.done r es) (.done s fs)

end Round

namespace Program

/-! ## The storage -/

/-- The number of slots that a run on the program hands out. -/
abbrev needed (p : Program) : Nat := (p.leavable p.visits).length

section
variable (hp : p.Proper) (c : Config) (tally : Nat)
include hp

theorem isSome_global?_outcome : ((p.outcome c tally).program.global? c.storage).isSome :=
  Option.isSome_iff_exists.2 ⟨_, (accounted_instrument hp c tally).storage⟩

theorem storageFor_outcome :
    (p.outcome c tally).program.storageFor c = ((p.storageFor c).growTo p.needed).2 := by
  have A := accounted_instrument hp c tally
  have hstorage : (p.outcome c tally).program.global? c.storage = _ := A.storage
  rw [storageFor, hstorage, A.slots]
  rfl

theorem stored_outcome :
    (p.outcome c tally).program.stored c = grown c.storage p.needed (p.stored c) := by
  rw [stored, if_pos (isSome_global?_outcome hp c tally)]
  exact (framed_instrument hp c tally).2

theorem two_mul_needed_le : 2 * p.needed ≤ (p.outcome c tally).program.temps := by
  obtain ⟨ts, I⟩ := instrumented_instrument hp c tally
  have htwo := I.two_mul_slots_le hp
  rwa [(accounted_instrument hp c tally).slots] at htwo

end

theorem storageFor_reread (h : (p.global? c.storage).isSome) :
    p.reread.storageFor c = (p.storageFor c).reread := by
  obtain ⟨g, hg⟩ := Option.isSome_iff_exists.1 h
  have hname : ((fun g : Global => g.name == c.storage) ∘ Global.reread) = fun g => g.name == c.storage :=
    funext fun g => congrArg (· == c.storage) (Global.alike_reread g).name
  have hread : p.reread.global? c.storage = some g.reread := by
    rw [global?_eq_find?, reread, List.find?_map, hname]
    exact congrArg (Option.map Global.reread) hg
  rw [storageFor, storageFor, hg, hread]
  rfl

/-- A run brings the storage back to its length after it has been printed and read. -/
def Lasting (c : Config) (p : Program) : Prop :=
  max (p.storageFor c).reread.len p.needed = max (p.storageFor c).len p.needed

theorem Lasting.outcome (h : p.Lasting c) (hp : p.Proper) (tally : Nat) :
    (p.outcome c tally).program.Lasting c := by
  have hneeded : (p.outcome c tally).program.needed = p.needed := (counts_instrument hp c tally).2
  rw [Lasting, storageFor_outcome hp, hneeded, Global.max_len_reread_growTo, h, Global.len_growTo]
  omega

theorem lasting_of_parse (h : parse txt = .ok p) (c : Config) : p.Lasting c := by
  have hsame : (p.storageFor c).reread = p.storageFor c := by
    rw [storageFor]
    cases hg : p.global? c.storage with
    | none => exact Global.reread_zeroed _ _ _
    | some g => exact ((rereadable_of_parse h).1.globals g (List.mem_of_find?_eq_some hg)).2.2
  rw [Lasting, hsame]

/-! ## One round -/

/-- Two programs on which a round does the same. -/
structure Level (c : Config) (p q : Program) : Prop where
  same : Same p q
  length : max (q.storageFor c).len p.needed = max (p.storageFor c).len p.needed

theorem Level.refl (hp : p.Proper) : Level c p p := ⟨.refl hp, rfl⟩

theorem Level.agrees (L : Level c p q) (tally : Nat) : (p.outcome c tally).Agrees (q.outcome c tally) where
  order := rfl
  changed := L.same.changes c tally
  context := by
    have T := L.same.twin
    rw [context_outcome T.left, context_outcome T.right, T.visits, T.leavable, L.length]
  text := (L.same.instrument c tally).text

/-- A program that rounds in memory lead to from `p₀`. -/
structure Continued (c : Config) (p₀ p : Program) : Prop where
  edits : Edits Config.IsNamed p₀ p
  decls : ∀ d ∈ p.decls, IsName d.name
  globals : ∀ g ∈ p.stored c, g.IsSpelled
  lasting : p.Lasting c
  narrow : (∀ g ∈ p.stored c, g.IsNarrow) ↔ (p₀.storageFor c).len < 0x8000000000000000

end Program

section
variable (hparse : parse txt = .ok p₀) (hback : parse p₀.text = .ok p₀) (hc : c.IsNamed)
include hparse

include hback hc in
theorem continued_of_parse : Continued c p₀ p₀ := by
  have hread := readable_of_parse hparse
  have hnarrow := ((parse_text hread).1 hback).2.1
  refine ⟨.refl, hread.decls, ?_, lasting_of_parse hparse c, ?_⟩
  · rw [stored]
    split
    · exact hread.globals
    · next hnone =>
      refine List.forall_mem_append.2 ⟨hread.globals, List.forall_mem_singleton.2 ?_⟩
      rw [storageFor, Option.not_isSome_iff_eq_none.1 hnone]
      exact ⟨hc.storage, .inr rfl⟩
  · rw [stored, storageFor]
    cases hg : p₀.global? c.storage with
    | none =>
      refine List.forall_mem_append.trans ((and_iff_right hnarrow).trans ?_)
      exact List.forall_mem_singleton.trans (Global.isNarrow_zeroed _ _ _)
    | some g =>
      have hlen := ((rereadable_of_parse hparse).1.globals g (List.mem_of_find?_eq_some hg)).2.1
      simpa [hlen] using hnarrow

variable (K : Continued c p₀ p)
include K

theorem Program.Continued.proper : p.Proper := K.edits.proper (wellformed_of_parse hparse).proper

include hc in
theorem Program.Continued.outcome (hfit : (p.outcome c tally).program.Fits) :
    Continued c p₀ (p.outcome c tally).program := by
  have hp := K.proper hparse
  have E : Edited Config.IsNamed p₀ (p, .ofModule c tally) := ⟨K.edits, hc, fun _ h => nomatch h⟩
  have hstored := stored_outcome hp c tally
  have hneeded : p.needed < 0x8000000000000000 := by
    have htwo := two_mul_needed_le hp c tally
    have hlt := hfit.2
    omega
  refine ⟨?_, fun d hd => ?_, ?_, K.lasting.outcome hp tally, ?_⟩
  · -- the managers make the same of it, so any of them will do
    have hrun := Manager.run_eq .pipeline hp c tally
    exact (Manager.run_edited (wellformed_of_parse hparse).proper E hrun).edits
  · have hd : d ∈ p.declared c := (framed_instrument hp c tally).1 ▸ hd
    rcases mem_declared hd with hd | rfl | rfl
    · exact K.decls d hd
    · exact hc.report
    · exact hc.clock
  · rw [hstored, forall_mem_grown fun g => g.isSpelled_growTo _]
    exact K.globals
  · rw [hstored, forall_mem_grown fun g => g.isNarrow_growTo hneeded]
    exact K.narrow

include hback in
/-- The text of a program that has its storage can be read if the storage is not too long. -/
theorem Program.Continued.parse_text (hu : p₀.Usual) (hs : (p.global? c.storage).isSome)
    (hfit : p.Fits) :
    (∀ q, parse p.text = .ok q ↔ (p₀.storageFor c).len < 0x8000000000000000 ∧ p.reread = q) ∧
      ((p₀.storageFor c).len < 0x8000000000000000 → Level c p p.reread) := by
  have hstored : p.stored c = p.globals := if_pos hs
  have hnarrow := K.narrow
  have hspelled := K.globals
  rw [hstored] at hnarrow hspelled
  have R := Edits.recoverable K.edits hparse hback hu hfit
  have htext : ∀ q, parse p.text = .ok q ↔
      (p₀.storageFor c).len < 0x8000000000000000 ∧ p.reread = q := fun q => by
    rw [Source.parse_text (R.readable K.decls hspelled), hnarrow]
    exact and_iff_right R.isPlain
  refine ⟨htext, fun hlen => ⟨R.same_reread ((htext _).2 ⟨hlen, rfl⟩), ?_⟩⟩
  rw [storageFor_reread hs]
  exact K.lasting

end

/-! ## All rounds -/

theorem rounds_succ (m : Manager) (hp : p.Proper) (c : Config) (reparse : Bool) (n tally : Nat) :
    rounds m none c reparse (n + 1) p tally =
      .done (p.outcome c tally) (m.run none p (.ofModule c tally)).events ::
        if n = 0 then []
        else match carryOver reparse (p.outcome c tally).program with
          | .error e => [.unreadable e]
          | .ok q => rounds m none c reparse n q (p.outcome c tally).context.tally := by
  have hrun := m.run_eq hp c tally
  rw [rounds]
  generalize m.run none p (.ofModule c tally) = x at hrun ⊢
  obtain ⟨y, es⟩ := x
  obtain rfl : y = .ok (p.outcome c tally) := hrun
  rfl

theorem rounds_in_memory (m : Manager) (hp : p.Proper) (c : Config) (n tally : Nat) :
    rounds m none c false (n + 1) p tally =
      .done (p.outcome c tally) (m.run none p (.ofModule c tally)).events ::
        rounds m none c false n (p.outcome c tally).program (p.outcome c tally).context.tally := by
  rw [rounds_succ m hp]
  cases n <;> rfl

theorem fits_rounds (hp : p.Proper) (h : ∀ x ∈ rounds m none c false (n + 1) p tally, x.Fits) :
    (p.outcome c tally).program.Fits ∧
      ∀ x ∈ rounds m none c false n (p.outcome c tally).program (p.outcome c tally).context.tally,
        x.Fits := by
  rw [rounds_in_memory m hp] at h
  exact List.forall_mem_cons.1 h

section
variable (hparse : parse txt = .ok p₀) (hback : parse p₀.text = .ok p₀) (hu : p₀.Usual)
  (hc : c.IsNamed) (K : Continued c p₀ p)
include hparse hback hu hc K

theorem Program.Continued.rounds_done (hfit : ∀ x ∈ rounds m none c false n p tally, x.Fits) :
    (rounds m none c false n p tally).length = n ∧
      ∀ x ∈ rounds m none c false n p tally, ∃ r es, x = .done r es ∧
        ((∃ q, parse r.program.text = .ok q) ↔ (p₀.storageFor c).len < 0x8000000000000000) := by
  induction n generalizing p tally with
  | zero => exact ⟨rfl, fun _ h => nomatch h⟩
  | succ n ih =>
    have hp := K.proper hparse
    obtain ⟨hfirst, hrest⟩ := fits_rounds hp hfit
    have K' := K.outcome hparse hc hfirst
    obtain ⟨hlength, hdone⟩ := ih K' hrest
    obtain ⟨htext, -⟩ := K'.parse_text hparse hback hu (isSome_global?_outcome hp c tally) hfirst
    rw [rounds_in_memory m hp]
    refine ⟨congrArg (· + 1) hlength, List.forall_mem_cons.2 ⟨⟨_, _, rfl, ?_⟩, hdone⟩⟩
    exact ⟨fun ⟨q, hq⟩ => ((htext q).1 hq).1, fun hlen => ⟨_, (htext _).2 ⟨hlen, rfl⟩⟩⟩

/-- Rounds in memory on `p` agree with rounds through the text on `q`. -/
theorem Program.Continued.rounds_agree (hlen : (p₀.storageFor c).len < 0x8000000000000000)
    (L : Level c p q) (hfit : ∀ x ∈ rounds m none c false n p tally, x.Fits) :
    List.Forall₂ Round.Agrees (rounds m none c false n p tally) (rounds m none c true n q tally) := by
  -- after the first round the one side is what the other side is read back as
  induction n generalizing p q tally with
  | zero => exact .nil
  | succ n ih =>
    have hp := K.proper hparse
    obtain ⟨hfirst, hrest⟩ := fits_rounds hp hfit
    have K' := K.outcome hparse hc hfirst
    obtain ⟨htext, hlevel⟩ := K'.parse_text hparse hback hu (isSome_global?_outcome hp c tally) hfirst
    have A := L.agrees tally
    rw [rounds_in_memory m hp, rounds_succ m L.same.twin.right]
    refine .cons (.done A) ?_
    cases n with
    | zero => exact .nil
    | succ n =>
      have hread : carryOver true (q.outcome c tally).program =
          .ok (p.outcome c tally).program.reread := by
        show parse (q.outcome c tally).program.text = _
        rw [A.text]
        exact (htext _).2 ⟨hlen, rfl⟩
      rw [if_neg (Nat.succ_ne_zero n), hread, A.context]
      exact ih K' (hlevel hlen) hrest

theorem Program.Continued.not_rounds_agree (hlen : ¬ (p₀.storageFor c).len < 0x8000000000000000)
    (hfit : ∀ x ∈ rounds m none c false (n + 2) p tally, x.Fits) : ¬ List.Forall₂ Round.Agrees
      (rounds m none c false (n + 2) p tally) (rounds m none c true (n + 2) p tally) := by
  have hp := K.proper hparse
  obtain ⟨hfirst, -⟩ := fits_rounds hp hfit
  have K' := K.outcome hparse hc hfirst
  obtain ⟨htext, -⟩ := K'.parse_text hparse hback hu (isSome_global?_outcome hp c tally) hfirst
  have hread : ∃ e, carryOver true (p.outcome c tally).program = .error e := by
    cases h : carryOver true (p.outcome c tally).program with
    | error e => exact ⟨e, rfl⟩
    | ok q => exact absurd ((htext q).1 h).1 hlen
  obtain ⟨e, he⟩ := hread
  intro h
  rw [rounds_in_memory m hp, rounds_succ m hp, if_neg (Nat.succ_ne_zero n), he,
    rounds_in_memory m (K'.proper hparse)] at h
  obtain ⟨-, h⟩ := List.forall₂_cons.1 h
  cases (List.forall₂_cons.1 h).1

end

/-- From a program that comes back from its text, and with names that can be written, all rounds in memory
are made. What they leave can be read if the length of the storage can, and then rounds that go through the
text agree with them one by one. Otherwise there is no second round through the text. -/
theorem rounds_through_text (m : Manager) (hc : c.IsNamed) (n tally : Nat) (hparse : parse txt = .ok p)
    (hback : parse p.text = .ok p) (hu : p.Usual) (hfit : ∀ x ∈ rounds m none c false n p tally, x.Fits) :
    (rounds m none c false n p tally).length = n ∧
      (∀ x ∈ rounds m none c false n p tally, ∃ r es, x = .done r es ∧
        ((∃ q, parse r.program.text = .ok q) ↔ (p.storageFor c).len < 0x8000000000000000)) ∧
      (List.Forall₂ Round.Agrees (rounds m none c false n p tally) (rounds m none c true n p tally) ↔
        n < 2 ∨ (p.storageFor c).len < 0x8000000000000000) := by
  have K := continued_of_parse hparse hback hc
  obtain ⟨hlength, hdone⟩ := K.rounds_done hparse hback hu hc hfit
  refine ⟨hlength, hdone, ?_⟩
  by_cases hlen : (p.storageFor c).len < 0x8000000000000000
  · exact iff_of_true (K.rounds_agree hparse hback hu hc hlen (.refl (K.proper hparse)) hfit) (.inr hlen)
  · match n with
    | 0 => exact iff_of_true .nil (.inl (by omega))
    | 1 =>
      have hp := K.proper hparse
      rw [rounds_in_memory m hp, rounds_succ m hp]
      exact iff_of_true (.cons (.done ((Level.refl hp).agrees tally)) .nil) (.inl (by omega))
    | n + 2 => exact iff_of_false (K.not_rounds_agree hparse hback hu hc hlen hfit) (by omega)

namespace Source

theorem parse_text_sharedExit : parse sharedExit.text = .ok sharedExit := by
  refine (parse_text (readable_of_parse parse_sharedExit)).2 ⟨?_, List.forall_mem_nil _, ?_⟩
  · decide +kernel
  · decide +kernel

theorem usual_sharedExit : sharedExit.Usual := by
  have husual : ∀ f ∈ sharedExit.funcs, ∀ b ∈ f.blocks, ∀ t ∈ b.jump, ∀ l ∈ t.targets,
      ∀ j ∈ l.id?, l = Label.ofId j := by decide +kernel
  intro v t ht l hl j hj
  obtain ⟨b, hb, ht⟩ := Option.bind_eq_some_iff.1 ht
  obtain ⟨f, hf, hmem⟩ := mem_blocks_of_block? hb
  exact husual f (List.mem_of_getElem? hf) b hmem t ht l hl j hj

end Source

/-- Two rounds agree if the storage has as many slots as there are loops, but there is no second round
if it must have more than can be read. -/
theorem rounds_through_text_sharedExit :
    List.Forall₂ Round.Agrees (rounds .pipeline none {} false 2 Source.sharedExit 0)
        (rounds .pipeline none {} true 2 Source.sharedExit 0) ∧
      ¬ List.Forall₂ Round.Agrees
        (rounds .pipeline none { minSlots := 0x8000000000000000 } false 2 Source.sharedExit 0)
        (rounds .pipeline none { minSlots := 0x8000000000000000 } true 2 Source.sharedExit 0) := by
  have hnamed : ∀ n, ({ minSlots := n } : Config).IsNamed := fun n => {
    report := by show IsName "__loopprof_report"; decide
    clock := by show IsName "__loopprof_clock"; decide
    storage := by show IsName "__loopprof_elapsed"; decide }
  obtain ⟨-, -, hagree⟩ := rounds_through_text .pipeline (hnamed 1) 2 0 Source.parse_sharedExit
    Source.parse_text_sharedExit Source.usual_sharedExit (by decide +kernel)
  obtain ⟨-, -, hnot⟩ := rounds_through_text .pipeline (hnamed 0x8000000000000000) 2 0
    Source.parse_sharedExit Source.parse_text_sharedExit Source.usual_sharedExit (by decide +kernel)
  refine ⟨hagree.2 (.inr (by decide +kernel)), fun h => ?_⟩
  exact absurd (hnot.1 h) (by decide +kernel)

end LoopClock
