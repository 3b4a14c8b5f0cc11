import LoopClock.Proofs.Run.Again
import LoopClock.Proofs.Run.Changes

/-! All that a standard run tells of itself. Whichever manager makes it, it is told by the program, and runs
on programs with the same text tell the same, but for the length of a storage that is no array. -/
namespace LoopClock
open Program

variable {c : Config} {p q : Program} {tally : Nat}

namespace Program

theorem changed_declare (p : Program) (d : Decl) :
    (p.declare d).val.1.isChanged = !p.isDeclared d.name := by
  rw [declare]
  split
  · next h => rw [h]; rfl
  · next h => rw [Bool.eq_false_iff.2 h]; rfl

theorem changed_defineStorage (p : Program) (c : Config) :
    (p.defineStorage c).val.1.isChanged = !(p.global? c.storage).isSome := by
  rw [defineStorage]
  split
  · next h => rw [h]; rfl
  · next h => rw [h]; rfl

/-- The first pass changes the program if anything is missing. -/
theorem changed_prepare (p : Program) (c : Config) : (p.prepare c).val.1.isChanged =
    !(p.isDeclared c.reportFn && p.isDeclared c.clockFn && (p.global? c.storage).isSome) := by
  have hfound : (p.instrumentation? c).isSome =
      (p.isDeclared c.reportFn && p.isDeclared c.clockFn && (p.global? c.storage).isSome) := by
    rw [instrumentation?]
    split
    · next h => rw [h, Bool.true_and, Option.isSome_map]
    · next h => rw [Bool.eq_false_iff.2 h]; rfl
  rw [prepare]
  split
  · next h => rw [← hfound, h]; rfl
  · simp only [Traced.val_bind, Traced.val_pure, PassResult.isChanged_or, changed_declare,
      changed_defineStorage]
    cases hr : p.isDeclared c.reportFn with
    | false => simp [reportDecl, hr]
    | true =>
      have hp : (p.declare (reportDecl c)).val.2 = p := declare_of_isDeclared hr
      rw [hp]
      cases hc : p.isDeclared c.clockFn with
      | false => simp [clockDecl, hc]
      | true =>
        have hp : (p.declare (clockDecl c)).val.2 = p := declare_of_isDeclared hc
        rw [hp]
        change (!p.isDeclared c.reportFn || !p.isDeclared c.clockFn || _) = _
        rw [hr, hc]
        rfl

theorem Same.changes (D : Same p q) (c : Config) (tally : Nat) :
    q.changes c tally = p.changes c tally := by
  obtain ⟨A, hdecls⟩ := D.timed c tally
  have hprepare : (q.prepare c).val.1.isChanged = (p.prepare c).val.1.isChanged := by
    rw [changed_prepare, changed_prepare, D.twin.isDeclared D.decls, D.twin.isDeclared D.decls,
      D.isSome_global?]
  have hreports : reports c (timeProgram (provideStorage (q, .ofModule c tally)).val).val =
      reports c (timeProgram (provideStorage (p, .ofModule c tally)).val).val := by
    rw [reports, reports, A.slots, (A.twin.report hdecls _ _ _).1]
  rw [Program.changes, Program.changes, hprepare, hreports, D.twin.visits, D.twin.leavable]

end Program

/-- What a standard run gives. -/
def Program.outcome (p : Program) (c : Config) (tally : Nat) : Run :=
  let s := (instrument p (.ofModule c tally)).val
  ⟨(Pipeline.profiling c).names, p.changes c tally, s.1, s.2⟩

/-- A standard run of either manager. -/
theorem Manager.run_eq (m : Manager) (hp : p.Proper) (c : Config) (tally : Nat) :
    (m.run none p (.ofModule c tally)).val = .ok (p.outcome c tally) := by
  have hpipeline : (Manager.pipeline.run none p (.ofModule c tally)).val = .ok (p.outcome c tally) := by
    obtain ⟨kept, hrun, hkept⟩ := exists_kept hp c tally
    show (Manager.runPipeline none p (.ofModule c tally)).val = _
    simp only [Manager.runPipeline, Option.elim_none, Traced.val_bind, Context.ofModule] at hrun ⊢
    rw [hrun]
    simp [Traced.val_pure, hkept, Program.outcome, Context.ofModule]
  cases m with
  | pipeline => exact hpipeline
  | schedule =>
    have hview : Impartial Event.work? := ⟨fun _ _ => rfl, fun _ _ => rfl, fun _ _ => rfl⟩
    exact (Manager.simulated hview p (.ofModule c tally)).val.symm.trans hpipeline

/-- The context that a standard run leaves. -/
theorem context_outcome (hp : p.Proper) (c : Config) (tally : Nat) :
    (p.outcome c tally).context =
      ⟨c, tally + p.visits.length, (p.leavable p.visits).length,
        some (.ofConfig c (max (p.storageFor c).len (p.leavable p.visits).length))⟩ := by
  show (instrument p (.ofModule c tally)).val.2 = _
  have A := accounted_instrument hp c tally
  have hconfig : (instrument p (.ofModule c tally)).val.2.config = c := by
    have hc := ((Same.refl hp).timed c tally).1.left.config
    simp only [instrument, Traced.val_bind]
    split
    · rw [(framed_reportTo _).1]
      exact hc
    · exact hc
  have htally := A.tally
  have hslots := A.slots
  have hstate := A.instrumentation
  rw [hslots] at hstate
  generalize (instrument p (.ofModule c tally)).val.2 = x at hconfig htally hslots hstate ⊢
  obtain ⟨config, n, slots, state⟩ := x
  dsimp only at hconfig htally hslots hstate
  rw [hconfig, htally, hslots, hstate]

end LoopClock
