import LoopClock.Proofs.Run.Symbols

/-! A preparation settles a module. What is missing of the routines and the storage is added once; after
that a preparation finds everything there, whatever the passes that follow do with the program. -/
namespace LoopClock

theorem PassResult.or_eq_changed {a b : PassResult} :
    a.or b = .changed ↔ a = .changed ∨ b = .changed := by
  cases a <;> cases b <;> decide

namespace Program

/-- `q` is `p` with the declarations `ds` and the globals `gs` at the end of its own, of which there are
some if and only if a change is reported. No name of a routine, declared or defined, is declared once more,
and no name of a global is given to another one. -/
structure Joins (p : Program) (r : PassResult) (ds : List Decl) (gs : List Global) (q : Program) :
    Prop where
  program : q = { p with decls := p.decls ++ ds, globals := p.globals ++ gs }
  changed : r = .changed ↔ ds ≠ [] ∨ gs ≠ []
  routines : ∀ d ∈ ds, p.isDeclared d.name = false
  distinct : (ds.map (·.name)).Nodup
  globals : ∀ g ∈ gs, p.global? g.name = none

/-- What the timers, the reports and growing a storage make of a program, in any order and number. -/
inductive Later (p : Program) : Program → Prop where
  | refl : Later p p
  | time {q : Program} (l : Loop) (func : Nat) (u : Instrumentation) (slots : Nat) :
    Later p q → Later p (Timer.time l func ⟨q, u, slots⟩).val.2.program
  | grow {q : Program} (u : Instrumentation) : Later p q → Later p (q.syncStorage u).val.2
  | report {q : Program} (u : Instrumentation) (slots : Nat) (entry : String) :
    Later p q → Later p (Report.insert q u slots entry).val.2

variable {p q t : Program} {r s : PassResult} {ds ds' : List Decl} {gs gs' : List Global} {c : Config}
  {name : String}

/-! ## What is added -/

theorem isDeclared_append (p : Program) (ds : List Decl) (gs : List Global) (name : String) :
    isDeclared { p with decls := p.decls ++ ds, globals := gs } name =
      (p.isDeclared name || ds.any (·.name == name)) := by
  simp only [isDeclared, decl?, func?, List.find?_append, Option.isSome_or, List.isSome_find?]
  ac_rfl

theorem global?_append (p : Program) (ds : List Decl) (gs : List Global) (name : String) :
    global? { p with decls := ds, globals := p.globals ++ gs } name =
      (p.global? name).or (gs.find? (·.name == name)) := by
  simp only [global?, List.find?_append]

namespace Joins

theorem refl (p : Program) : p.Joins .noChange [] [] p where
  program := by simp
  changed := by simp
  routines := by simp
  distinct := by simp
  globals := by simp

theorem trans (h : p.Joins r ds gs q) (k : q.Joins s ds' gs' t) :
    p.Joins (r.or s) (ds ++ ds') (gs ++ gs') t where
  program := by
    rw [k.program, h.program]
    simp
  changed := by
    rw [PassResult.or_eq_changed, h.changed, k.changed]
    simp only [ne_eq, List.append_eq_nil_iff]
    tauto
  routines d hd := by
    rcases List.mem_append.1 hd with hd | hd
    · exact h.routines d hd
    · have hq := k.routines d hd
      rw [h.program, isDeclared_append, Bool.or_eq_false_iff] at hq
      exact hq.1
  distinct := by
    rw [List.map_append, List.nodup_append']
    refine ⟨h.distinct, k.distinct, ?_⟩
    intro name hold hnew
    obtain ⟨d, hd, rfl⟩ := List.mem_map.1 hnew
    obtain ⟨d', hd', heq⟩ := List.mem_map.1 hold
    have hq := k.routines d hd
    rw [h.program, isDeclared_append, Bool.or_eq_false_iff, List.any_eq_false] at hq
    exact hq.2 d' hd' (by simp [heq])
  globals g hg := by
    rcases List.mem_append.1 hg with hg | hg
    · exact h.globals g hg
    · have hq := k.globals g hg
      rw [h.program, global?_append, Option.or_eq_none_iff] at hq
      exact hq.1

end Joins

theorem joins_declare (p : Program) (d : Decl) : ∃ ds, ds.length ≤ 1 ∧
    p.Joins (p.declare d).val.1 ds [] (p.declare d).val.2 := by
  rw [declare]
  cases hd : p.isDeclared d.name with
  | true => exact ⟨[], by simp, .refl p⟩
  | false =>
    refine ⟨[d], by simp, ?_⟩
    constructor <;> simp [hd]

theorem joins_defineStorage (p : Program) (c : Config) : ∃ gs, gs.length ≤ 1 ∧
    p.Joins (p.defineStorage c).val.1 [] gs (p.defineStorage c).val.2.2 := by
  rw [defineStorage]
  cases hg : p.global? c.storage with
  | some g => exact ⟨[], by simp, .refl p⟩
  | none =>
    refine ⟨[.zeroed c.storage (max p.countLoops.val c.minSlots) slotBits], by simp, ?_⟩
    constructor <;> simp [Global.zeroed, hg]

theorem joins_prepare (p : Program) (c : Config) : ∃ ds gs, ds.length ≤ 2 ∧ gs.length ≤ 1 ∧
    p.Joins (p.prepare c).val.1 ds gs (p.prepare c).val.2.2 := by
  rw [prepare]
  split
  · exact ⟨[], [], by simp, by simp, .refl p⟩
  · simp only [Traced.val_bind, Traced.val_pure]
    obtain ⟨ds, hds, hreport⟩ := joins_declare p (reportDecl c)
    obtain ⟨ds', hds', hclock⟩ := joins_declare (p.declare (reportDecl c)).val.2 (clockDecl c)
    obtain ⟨gs, hgs, hstorage⟩ := joins_defineStorage
      ((p.declare (reportDecl c)).val.2.declare (clockDecl c)).val.2 c
    refine ⟨ds ++ ds' ++ [], [] ++ [] ++ gs, ?_, ?_, (hreport.trans hclock).trans hstorage⟩
    · simp
      omega
    · simpa using hgs

/-! ## What is found -/

/-- The length is that of the storage, whether it was there or is new. -/
theorem len_defineStorage (p : Program) (c : Config) {g : Global}
    (h : (p.defineStorage c).val.2.2.global? c.storage = some g) : (p.defineStorage c).val.2.1 = g.len := by
  rw [defineStorage] at h ⊢
  cases hg : p.global? c.storage with
  | some g' =>
    rw [hg] at h
    obtain rfl := Option.some.inj (hg.symm.trans h)
    rfl
  | none =>
    rw [hg] at h
    simp only [Traced.val_bind, Traced.val_pure] at h ⊢
    rw [global?, List.find?_append, ← global?, hg, Option.none_or] at h
    obtain rfl := List.mem_singleton.1 (List.mem_of_find?_eq_some h)
    exact (Global.len_zeroed _ _ _).symm

namespace Settled

variable (h : p.Settled c)
include h

theorem instrumentation? {g : Global} (hg : p.global? c.storage = some g) :
    p.instrumentation? c = some (.ofConfig c g.len) := by
  simp [Program.instrumentation?, h.report, h.clock, hg]

/-- Nothing is left to do. -/
theorem prepare {g : Global} (hg : p.global? c.storage = some g) :
    (p.prepare c).val = (.noChange, .ofConfig c g.len, p) := by
  rw [Program.prepare, h.instrumentation? hg]
  rfl

theorem later (k : p.Later q) : q.Settled c := by
  induction k with
  | refl => exact h
  | @time q l func u slots _ ih =>
    have hw := Timer.weaves_time l func ⟨q, u, slots⟩
    exact (Keeps.of_weaves (c := .ofModule c 0) (d := .ofModule c 0) hw nofun).settled ih
  | grow u _ ih => exact (keeps_syncStorage _ (.ofModule c 0) u).settled ih
  | @report q u slots entry _ ih =>
    have hw := @Report.weaves_insert q u slots entry
    exact (Keeps.of_weaves (c := .ofModule c 0) (d := .ofModule c 0) hw nofun).settled ih

end Settled

/-- The storage that a preparation leaves is as long as it says. -/
theorem len_prepare (p : Program) (c : Config) {g : Global}
    (h : (p.prepare c).val.2.2.global? c.storage = some g) : (p.prepare c).val.2.1 = .ofConfig c g.len := by
  rw [prepare] at h ⊢
  split at h
  · next u hu =>
    rw [instrumentation?] at hu
    split at hu
    · obtain ⟨g', hg', rfl⟩ := Option.map_eq_some_iff.1 hu
      obtain rfl := Option.some.inj (hg'.symm.trans h)
      simp
    · cases hu
  · simp only [Traced.val_bind, Traced.val_pure] at h ⊢
    rw [len_defineStorage _ c h]

/-- A preparation adds what is missing and no more than that, and none that comes later adds anything. -/
theorem prepare_settles (p : Program) (c : Config) :
    let r := (p.prepare c).val.1
    let u := (p.prepare c).val.2.1
    let q := (p.prepare c).val.2.2
    q.isDeclared c.reportFn = true ∧ q.isDeclared c.clockFn = true ∧
    (∃ ds gs, ds.length ≤ 2 ∧ gs.length ≤ 1 ∧ p.Joins r ds gs q) ∧
    (∃ g, q.global? c.storage = some g ∧ u = .ofConfig c g.len ∧ u.len = g.len ∧
      u.reportFn = c.reportFn ∧ u.clockFn = c.clockFn ∧ u.storage = ⟨c.storage, true, .i64Ptr⟩ ∧
      q.instrumentation? c = some u) ∧
    ∀ t, q.Later t → ∃ g, t.global? c.storage = some g ∧
      (t.prepare c).val = (.noChange, .ofConfig c g.len, t) := by
  intro r u q
  have hq : q.Settled c := settled_prepare p c
  obtain ⟨g, hg⟩ := Option.isSome_iff_exists.1 hq.storage
  have hu : u = .ofConfig c g.len := len_prepare p c hg
  refine ⟨hq.report, hq.clock, joins_prepare p c, ⟨g, hg, hu, ?_⟩, ?_⟩
  · rw [hu]
    exact ⟨rfl, rfl, rfl, rfl, hq.instrumentation? hg⟩
  · intro t ht
    have hsettled := hq.later ht
    obtain ⟨g', hg'⟩ := Option.isSome_iff_exists.1 hsettled.storage
    exact ⟨g', hg', hsettled.prepare hg'⟩

/-- The clock is declared in advance. After the preparation the loop is timed and reported, and the storage
grown to three elements. -/
theorem prepare_settles_sharedExit : ∃ p t : Program,
    p = { Source.sharedExit with decls := [clockDecl {}] } ∧ (p.prepare {}).val.2.2.Later t ∧
      (p.prepare {}).val.2.2.decls = [clockDecl {}, reportDecl {}] ∧
      (p.prepare {}).val.2.1 = .ofConfig {} 1 ∧ (t.prepare {}).val = (.noChange, .ofConfig {} 3, t) := by
  let p : Program := { Source.sharedExit with decls := [clockDecl {}] }
  let u : Instrumentation := .ofConfig {} 3
  let l : Loop := ⟨0, ⟨0, 1⟩, [⟨0, 1⟩, ⟨0, 3⟩], none, [], 1⟩
  let q := (Timer.time l 0 ⟨(p.prepare {}).val.2.2, u, 0⟩).val.2.program
  let t := ((Report.insert q u 1 "main").val.2.syncStorage u).val.2
  have ht : (p.prepare {}).val.2.2.Later t := .grow u (.report u 1 "main" (.time _ 0 u 0 .refl))
  obtain ⟨-, -, -, -, hlater⟩ := prepare_settles p {}
  obtain ⟨g, hg, hagain⟩ := hlater t ht
  have hlen : (t.global? "__loopprof_elapsed").map Global.len = some 3 := by decide +kernel
  have hg' : g.len = 3 := by
    rw [show t.global? "__loopprof_elapsed" = some g from hg] at hlen
    simpa using hlen
  refine ⟨p, t, rfl, ht, by decide +kernel, by decide +kernel, ?_⟩
  rw [hagain, hg']

end Program
end LoopClock
