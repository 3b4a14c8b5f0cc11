import LoopClock.Pass.Profiler
import LoopClock.Proofs.Program.Persists

/-! Globals and declarations. Timing leaves them alone; the storage is looked up, or defined, before it
and grown after it. -/
namespace LoopClock

namespace Global

theorem lenOf_pad (n : Nat) (items : List Item) : lenOf (pad n items) = lenOf items + n := by
  induction items using pad.induct with
  | case1 => simp [pad, lenOf, Item.len]
  | case2 m => simp [pad, lenOf, Item.len]
  | case3 i is h ih =>
    rw [pad, lenOf, lenOf, ih, Nat.add_assoc]
    exact h

theorem len_growTo (g : Global) (n : Nat) : (g.growTo n).2.len = max g.len n := by
  rw [growTo]
  split
  · next h => exact (Nat.max_eq_left h).symm
  · next h =>
    show lenOf (pad (n - g.len) g.data) = _
    rw [lenOf_pad]
    change g.len + (n - g.len) = _
    omega

theorem growTo_of_le {g : Global} {n : Nat} (h : n ≤ g.len) : g.growTo n = (false, g) := if_pos h

theorem growTo_fst (g : Global) (n : Nat) : (g.growTo n).1 = decide (g.len < n) := by
  rw [growTo]
  split <;> simp [*]
  omega

theorem name_growTo (g : Global) (n : Nat) : (g.growTo n).2.name = g.name := by
  rw [growTo]
  split <;> rfl

theorem len_zeroed (name : String) (len bits : Nat) : (zeroed name len bits).len = len := rfl

end Global

namespace Program

variable {p q r : Program}

private theorem find?_modify {f : Global → Global} (hf : ∀ g, (f g).name = g.name)
    (name : String) (gs : List Global) :
    ((gs.findIdx? (fun g : Global => g.name == name)).elim gs fun i => gs.modify i f).find?
      (·.name == name) = (gs.find? (·.name == name)).map f := by
  induction gs with
  | nil => rfl
  | cons g gs ih =>
    cases hg : g.name == name with
    | true => simp [List.findIdx?_cons, hg, hf]
    | false =>
      rw [List.findIdx?_cons, hg, List.find?_cons, hg, ← ih]
      cases gs.findIdx? (fun g : Global => g.name == name) <;> simp [hg]

theorem global?_updateGlobal {name : String} {f : Global → Global}
    (hf : ∀ g, (f g).name = g.name) :
    (p.updateGlobal name f).global? name = (p.global? name).map f := by
  have h := find?_modify hf name p.globals
  rw [updateGlobal]
  split
  · next hi =>
    rw [hi] at h
    exact h
  · next hi =>
    rw [hi] at h
    exact h

/-- Neither declarations nor globals are touched. -/
structure Inside (p q : Program) : Prop where
  decls : q.decls = p.decls
  globals : q.globals = p.globals

namespace Inside

theorem refl : Inside p p := ⟨rfl, rfl⟩

theorem trans (h : Inside p q) (k : Inside q r) : Inside p r :=
  ⟨k.decls.trans h.decls, k.globals.trans h.globals⟩

theorem global? (h : Inside p q) (name : String) : q.global? name = p.global? name :=
  congrArg (List.find? fun g : Global => g.name == name) h.globals

end Inside

theorem persists_inside : Persists Inside where
  refl _ := .refl
  trans := .trans
  rewire _ _ _ _ := ⟨rfl, rfl⟩
  retarget _ _ _ _ := ⟨rfl, rfl⟩
  addBlock _ _ _ _ _ _ _ := ⟨rfl, rfl⟩
  temps _ _ := ⟨rfl, rfl⟩

theorem inside_dedicateExits {i : Nat} {l : Loop} : Inside p (p.dedicateExits i l).val.1 :=
  persists_inside.dedicateExits p i l

end Program

theorem Timer.inside_place {p : Program} {i : Nat} {s : Instrumentation} {slot : Nat}
    {header : Vertex} {exits : List Vertex} :
    p.Inside (Timer.place p i s slot header exits) := by
  have hstep : ∀ (stash : Temp) (q : Program) (x : Vertex), q.Inside (recordAt s stash slot q x) :=
    fun _ _ _ => ⟨rfl, rfl⟩
  have hrecord : ∀ {q : Program} {stash : Temp}, q.Inside (exits.foldl (recordAt s stash slot) q) :=
    Program.persists_inside.foldl (hstep _) _ exits
  rw [place]
  exact ⟨hrecord.decls, hrecord.globals⟩

theorem Report.inside_insert {p : Program} {s : Instrumentation} {slots : Nat} {entry : String} :
    p.Inside (Report.insert p s slots entry).val.2 := by
  rw [insert]
  split
  · exact .refl
  split <;> exact ⟨rfl, rfl⟩

end LoopClock
