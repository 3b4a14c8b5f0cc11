import LoopClock.Proofs.Run.Changes
import LoopClock.Proofs.Run.Simulation

/-! Runs as chains of calls. A relation that holds of every call of a pass, and of growing the storage,
holds of a whole run if it can be put together along a chain. The relation is also told whether a change
was reported on the way, so that it may speak about the reports. -/
namespace LoopClock
open Program

/-- `R b s t` can be put together along a run, where `b` tells whether a change is reported between `s`
and `t`. -/
structure Chained (R : Bool → Progress → Progress → Prop) : Prop where
  refl : ∀ s, R false s s
  trans : ∀ {a b s t u}, R a s t → R b t u → R (a || b) s u
  sync : ∀ p c u, c.instrumentation = some u →
    R (p.syncStorage u).val.1 (p, c) ((p.syncStorage u).val.2, c)

/-- Each call is in the relation. -/
def Effect.Within (R : Bool → Progress → Progress → Prop) (e : Effect) : Prop :=
  ∀ p c, R (e p c).val.1.isChanged (p, c) (e p c).val.2

/-- Each call is in the relation whose loop was found in a program from which the run has come. -/
def LoopPass.Within (R : Bool → Progress → Progress → Prop) (a : LoopPass) : Prop :=
  ∀ l func s b p c, l ∈ (s.1.flow func).analyses.forest.loops → R b s (p, c) →
    R (a.run l func p c).val.1.isChanged (p, c) (a.run l func p c).val.2

/-- All passes are in the relation. -/
structure Pipeline.Within (R : Bool → Progress → Progress → Prop) (l : Pipeline) : Prop where
  modules : ∀ a ∈ l.modulePasses, Effect.Within R a.run
  loops : ∀ a ∈ l.loopPasses, a.Within R
  late : ∀ a ∈ l.latePasses, Effect.Within R a.run

def Stage.Within (R : Bool → Progress → Progress → Prop) : Stage → Prop
  | .onModule a => Effect.Within R a.run
  | .onLoops as => ∀ a ∈ as, a.Within R

def Schedule.Within (R : Bool → Progress → Progress → Prop) (s : Schedule) : Prop :=
  ∀ x ∈ s.stages, x.Within R

variable {R : Bool → Progress → Progress → Prop} {func : Nat} {ps : List LoopPass} {b : Bool}
  {s t : Progress} {p : Program} {c : Context}

/-! ## Walks over loops -/

namespace Schedule.Walk

def state (w : Walk) : Progress := (w.program, w.context)

/-- The analyses are those of a program from which the walk has come. -/
def Known (R : Bool → Progress → Progress → Prop) (func : Nat) (w : Walk) : Prop :=
  ∃ s b, w.analyses = (s.1.flow func).analyses ∧ R b s w.state

/-- One walk goes on to the other. -/
structure Leads (R : Bool → Progress → Progress → Prop) (func : Nat) (w w' : Walk) : Prop where
  flag : ∃ b, w'.changed = (w.changed || b) ∧ R b w.state w'.state
  known : w'.Known R func

namespace Leads

variable {v w x : Walk}

theorem refl (hR : Chained R) (hw : w.Known R func) : w.Leads R func w :=
  ⟨⟨false, by simp, hR.refl _⟩, hw⟩

theorem trans (hR : Chained R) (h : v.Leads R func w) (k : w.Leads R func x) : v.Leads R func x := by
  obtain ⟨a, ha, hvw⟩ := h.flag
  obtain ⟨b, hb, hwx⟩ := k.flag
  exact ⟨⟨a || b, by rw [hb, ha, Bool.or_assoc], hR.trans hvw hwx⟩, k.known⟩

/-- A call after which the analyses are kept. -/
theorem keep (hR : Chained R) (hw : w.Known R func) (h : R b w.state s) :
    w.Leads R func ⟨s.1, s.2, w.analyses, w.changed || b⟩ := by
  obtain ⟨s₀, a, ha, hs₀⟩ := hw
  exact ⟨⟨b, rfl, h⟩, s₀, a || b, ha, hR.trans hs₀ h⟩

theorem foldl {σ : Type} (hR : Chained R) {f : σ → Walk} {visit : σ → Int → σ}
    (h : ∀ w header, (f w).Known R func → (f w).Leads R func (f (visit w header)))
    (headers : List Int) {w : σ} (hw : (f w).Known R func) :
    (f w).Leads R func (f (headers.foldl visit w)) := by
  induction headers generalizing w with
  | nil => exact refl hR hw
  | cons header headers ih =>
    have hstep := h w header hw
    exact hstep.trans hR (ih hstep.known)

end Leads

end Schedule.Walk

section
variable (hR : Chained R)
include hR

end

end LoopClock
