import LoopClock.Proofs.Run.Counts

/-! The declarations and globals that a standard run leaves behind. They are told by those of the program
that it starts with and by the number of slots. -/
namespace LoopClock
open Program

variable {c : Config} {p : Program} {s : Progress}

namespace Program

/-- The declarations of a program that is given the missing routines. -/
def declared (p : Program) (c : Config) : List Decl :=
  ((p.declare (reportDecl c)).val.2.declare (clockDecl c)).val.2.decls

/-- The globals of a program that is given the storage if it has none. -/
def stored (p : Program) (c : Config) : List Global :=
  if (p.global? c.storage).isSome then p.globals else p.globals ++ [p.storageFor c]

/-- The first global of a name grown to `n` elements. -/
def grown (name : String) (n : Nat) (gs : List Global) : List Global :=
  match gs.findIdx? (·.name == name) with
  | some i => gs.modify i fun g => (g.growTo n).2
  | none => gs

theorem decls_declare {d : Decl} : (p.declare d).val.2.decls =
    if p.isDeclared d.name then p.decls else p.decls ++ [d] := by
  rw [declare]
  split <;> rfl

theorem declare_of_isDeclared {d : Decl} (h : p.isDeclared d.name = true) :
    (p.declare d).val.2 = p := by
  rw [declare, if_pos h]
  rfl

theorem mem_declared {d : Decl} (h : d ∈ p.declared c) :
    d ∈ p.decls ∨ d = reportDecl c ∨ d = clockDecl c := by
  have hone : ∀ {q : Program} {e : Decl}, d ∈ (q.declare e).val.2.decls → d ∈ q.decls ∨ d = e := by
    intro q e h
    rw [decls_declare] at h
    split at h
    · exact .inl h
    · exact (List.mem_append.1 h).imp_right List.mem_singleton.1
  rcases hone h with h | h
  · exact (hone h).imp_right .inl
  · exact .inr (.inr h)

theorem global?_eq_find? (p : Program) (name : String) :
    p.global? name = p.globals.find? (·.name == name) := rfl

/-! ## The storage -/

theorem decls_defineStorage : (p.defineStorage c).val.2.2.decls = p.decls := by
  rw [defineStorage]
  split <;> rfl

theorem globals_defineStorage (hp : p.Proper) :
    (p.defineStorage c).val.2.2.globals = p.stored c := by
  rw [defineStorage, stored, storageFor]
  cases p.global? c.storage with
  | some g => rfl
  | none =>
    simp only [Traced.val_bind, Traced.val_pure, val_countLoops hp]
    rfl

theorem framed_prepare (hp : p.Proper) : (p.prepare c).val.2.2.decls = p.declared c ∧
    (p.prepare c).val.2.2.globals = p.stored c := by
  rw [prepare]
  split
  · next s hs =>
    rw [instrumentation?] at hs
    split at hs
    · next hd =>
      obtain ⟨g, hg, -⟩ := Option.map_eq_some_iff.1 hs
      obtain ⟨hreport, hclock⟩ := Bool.and_eq_true_iff.1 hd
      have hdeclared : p.declared c = p.decls := by
        rw [declared, declare_of_isDeclared (d := reportDecl c) hreport,
          declare_of_isDeclared (d := clockDecl c) hclock]
      rw [hdeclared, stored, hg]
      exact ⟨rfl, rfl⟩
    · cases hs
  · obtain ⟨hf₁, hg₁⟩ := inside_declare (p := p) (d := reportDecl c)
    obtain ⟨hf₂, hg₂⟩ := inside_declare (p := (p.declare (reportDecl c)).val.2) (d := clockDecl c)
    have hf := hf₂.trans hf₁
    have hg := hg₂.trans hg₁
    have hq := (Rebodied.of_funcs hf).proper hp
    constructor
    · exact decls_defineStorage
    · refine (globals_defineStorage hq).trans ?_
      rw [stored, storageFor_congr hf hg, global?_eq_find?, hg]
      rfl

theorem framed_syncStorage (p : Program) (u : Instrumentation) :
    (p.syncStorage u).val.2.decls = p.decls ∧
      (p.syncStorage u).val.2.globals = grown u.storage.name u.len p.globals := by
  have hgrow : (p.growGlobal u.storage.name u.len).2.decls = p.decls ∧
      (p.growGlobal u.storage.name u.len).2.globals = grown u.storage.name u.len p.globals := by
    rw [growGlobal, grown]
    cases hg : p.global? u.storage.name with
    | none =>
      have hi : p.globals.findIdx? (·.name == u.storage.name) = none :=
        List.findIdx?_eq_none_iff.2 fun g h => by simpa using List.find?_eq_none.1 hg g h
      rw [hi]
      exact ⟨rfl, rfl⟩
    | some g =>
      dsimp only
      rw [updateGlobal]
      cases p.globals.findIdx? (·.name == u.storage.name) <;> exact ⟨rfl, rfl⟩
  simp only [syncStorage]
  split <;> exact hgrow

/-- Growing to what is there already changes nothing. -/
theorem grown_max {name : String} {gs : List Global} {g : Global} (n : Nat)
    (h : gs.find? (·.name == name) = some g) : grown name (max g.len n) gs = grown name n gs := by
  rw [grown, grown]
  cases hi : gs.findIdx? (·.name == name) with
  | none => rfl
  | some i =>
    rw [List.find?_eq_bind_findIdx?_getElem?, hi] at h
    refine List.ext_getElem? fun j => ?_
    rw [List.getElem?_modify, List.getElem?_modify]
    by_cases hj : i = j
    · subst hj
      have hg : gs[i]? = some g := h
      rw [hg]
      simp [growTo_max]
    · simp [hj]

/-- What growing does not change holds of all globals as before. -/
theorem forall_mem_grown {name : String} {n : Nat} {gs : List Global} {P : Global → Prop}
    (hP : ∀ g : Global, P (g.growTo n).2 ↔ P g) :
    (∀ g ∈ grown name n gs, P g) ↔ ∀ g ∈ gs, P g := by
  have hmodify : ∀ (gs : List Global) (i : Nat),
      (∀ g ∈ gs.modify i fun g => (g.growTo n).2, P g) ↔ ∀ g ∈ gs, P g := by
    intro gs
    induction gs with
    | nil => simp
    | cons g gs ih =>
      intro i
      cases i with
      | zero => simp [hP]
      | succ i => simp [ih i]
  rw [grown]
  split
  · exact hmodify gs _
  · exact Iff.rfl

end Program

/-! ## Whole runs -/

theorem framed_timeProgram {u : Instrumentation}
    (hu : (timeProgram s).val.2.instrumentation = some u) :
    (timeProgram s).val.1.decls = s.1.decls ∧
      (timeProgram s).val.1.globals = grown u.storage.name u.len s.1.globals := by
  have hin := inside_foldlM inside_timeFunc (List.range s.1.funcs.length) s
  rw [timeProgram] at hu ⊢
  generalize (List.range s.1.funcs.length).foldlM timeFunc s = y at hin hu
  simp only [Traced.val_bind] at hu ⊢
  cases hy : y.val.2.instrumentation with
  | none =>
    simp only [hy] at hu
    exact absurd (hy.symm.trans hu) (by simp)
  | some v =>
    simp only [hy] at hu
    obtain rfl := Option.some.inj (hy.symm.trans hu)
    obtain ⟨hd, hg⟩ := framed_syncStorage y.val.1 v
    rw [hin.globals] at hg
    exact ⟨hd.trans hin.decls, hg⟩

theorem framed_reportTo (s : Progress) : (reportTo s).val.2 = s.2 ∧ s.1.Inside (reportTo s).val.1 := by
  simp only [reportTo]
  split
  · exact ⟨rfl, .refl⟩
  · exact ⟨rfl, Report.inside_insert⟩

/-- A standard run declares what is missing and leaves the storage long enough for its slots. -/
theorem framed_instrument (hp : p.Proper) (c : Config) (tally : Nat) :
    (instrument p (.ofModule c tally)).val.1.decls = p.declared c ∧
      (instrument p (.ofModule c tally)).val.1.globals =
        grown c.storage (p.leavable p.visits).length (p.stored c) := by
  have A := accounted_instrument hp c tally
  have hu := A.instrumentation
  have hslots := A.slots
  obtain ⟨hd, hg⟩ := framed_prepare (c := c) hp
  obtain ⟨hstorage, -⟩ := prepared_storage hp c
  rw [global?_eq_find?, hg] at hstorage
  let s := (provideStorage (p, .ofModule c tally)).val
  have hs : s.1.decls = p.declared c ∧ s.1.globals = p.stored c := ⟨hd, hg⟩
  suffices h : (instrument p (.ofModule c tally)).val.1.decls = (timeProgram s).val.1.decls ∧
      (instrument p (.ofModule c tally)).val.1.globals = (timeProgram s).val.1.globals ∧
      (instrument p (.ofModule c tally)).val.2 = (timeProgram s).val.2 by
    obtain ⟨hdecls, hglobals, hcontext⟩ := h
    rw [hcontext] at hu hslots
    obtain ⟨hd, hg⟩ := framed_timeProgram hu
    refine ⟨hdecls.trans (hd.trans hs.1), hglobals.trans (hg.trans ?_)⟩
    rw [hs.2, ← hslots]
    exact grown_max _ hstorage
  simp only [instrument, Traced.val_bind]
  split
  · obtain ⟨hcontext, hin⟩ := framed_reportTo (timeProgram s).val
    exact ⟨hin.decls, hin.globals, hcontext⟩
  · exact ⟨rfl, rfl, rfl⟩

end LoopClock
