import LoopClock.Proofs.Run.Chains
import LoopClock.Proofs.Run.Code

/-! The symbols that the timers and the reports use. The pass that comes first provides them, and from
then on every pass of the profiler keeps them. -/
namespace LoopClock
open Program

/-- The routine that the instruction calls is declared or defined, and the globals that it uses exist. -/
def Instr.Resolved (p : Program) (x : Instr) : Prop :=
  (∀ f, x.callee? = some f → p.isDeclared f = true) ∧
    ∀ t ∈ x.reads, t.isGlobal = true → (p.global? t.name).isSome = true

/-- The program has the two routines and the storage that the configuration names. -/
structure Program.Settled (p : Program) (c : Config) : Prop where
  report : p.isDeclared c.reportFn = true
  clock : p.isDeclared c.clockFn = true
  storage : (p.global? c.storage).isSome = true

/-- No routine and no global is lost, nor is the instrumentation. -/
structure Keeps (s t : Progress) : Prop where
  declared : ∀ name, s.1.isDeclared name = true → t.1.isDeclared name = true
  stored : ∀ name, (s.1.global? name).isSome = true → (t.1.global? name).isSome = true
  instrumentation : s.2.instrumentation.isSome = true → t.2.instrumentation.isSome = true

/-- The instrumentation names the symbols that it did before. -/
def Context.KeepsState (c d : Context) : Prop :=
  ∀ u, c.instrumentation = some u → ∃ len, d.instrumentation = some { u with len }

/-- The configuration names the symbols that it did before. -/
def Context.KeepsConfig (c d : Context) : Prop :=
  ∀ len, Instrumentation.ofConfig d.config len = .ofConfig c.config len

variable {p q : Program} {c d : Context} {s t u : Progress} {x : Instr} {l : Loop} {func : Nat}
  {new : Instr → Prop}

namespace Keeps

theorem refl (s : Progress) : Keeps s s := ⟨fun _ h => h, fun _ h => h, fun h => h⟩

theorem trans (h : Keeps s t) (k : Keeps t u) : Keeps s u where
  declared name hs := k.declared name (h.declared name hs)
  stored name hs := k.stored name (h.stored name hs)
  instrumentation hs := k.instrumentation (h.instrumentation hs)

theorem settled {config : Config} (h : Keeps s t) (hs : s.1.Settled config) : t.1.Settled config where
  report := h.declared _ hs.report
  clock := h.declared _ hs.clock
  storage := h.stored _ hs.storage

/-- Code may be put in, as long as the instrumentation stays. -/
theorem of_weaves (h : p.Weaves new q)
    (hd : c.instrumentation.isSome = true → d.instrumentation.isSome = true) : Keeps (p, c) (q, d) where
  declared name hp := (isDeclared_of_names h.decls h.names name).trans hp
  stored name hp := by
    dsimp only at hp ⊢
    rwa [h.global?]
  instrumentation := hd

end Keeps

/-- What names nothing but the symbols of the configuration is resolved where these are. -/
theorem Program.Settled.resolved {config : Config} {len : Nat} (h : p.Settled config)
    (hx : (Instrumentation.ofConfig config len).Names x) : x.Resolved p := by
  constructor
  · intro f hf
    rcases hx.1 f hf with rfl | rfl
    · exact h.report
    · exact h.clock
  · intro g hg hglobal
    obtain rfl := hx.2 g hg hglobal
    exact h.storage

/-! ## Names -/

theorem chained_keepsState : Chained fun _ s t => s.2.KeepsState t.2 where
  refl _ u hu := ⟨u.len, hu⟩
  trans h k v hv := by
    obtain ⟨len, ht⟩ := h v hv
    exact k { v with len } ht
  sync _ _ _ _ v hv := ⟨v.len, hv⟩

theorem chained_keepsConfig : Chained fun _ s t => s.2.KeepsConfig t.2 where
  refl _ _ := rfl
  trans h k len := (k len).trans (h len)
  sync _ _ _ _ _ := rfl

/-! ## Growing the storage -/

theorem isSome_global?_iff {p : Program} {name : String} :
    (p.global? name).isSome = true ↔ ∃ g ∈ p.globals, g.name = name := by
  rw [global?, List.isSome_find?, List.any_eq_true]
  simp only [beq_iff_eq]

theorem keeps_syncStorage (p : Program) (c : Context) (u : Instrumentation) :
    Keeps (p, c) ((p.syncStorage u).val.2, c) := by
  obtain ⟨hdecls, hglobals⟩ := framed_syncStorage p u
  have hfuncs := (around_syncStorage (p := p) (s := u)).1.funcs
  refine ⟨fun name hp => ?_, fun name hp => ?_, fun h => h⟩
  · exact (isDeclared_of_names hdecls (congrArg (List.map _) hfuncs) name).trans hp
  · have hiff := @forall_mem_grown u.storage.name u.len p.globals (¬ ·.name = name)
      fun g => by rw [g.name_growTo]
    rw [← hglobals] at hiff
    rw [isSome_global?_iff] at hp ⊢
    by_contra hno
    obtain ⟨g, hg, hname⟩ := hp
    exact hiff.1 (fun g hg hname => hno ⟨g, hg, hname⟩) g hg hname

theorem chained_keeps : Chained fun _ => Keeps where
  refl := .refl
  trans := .trans
  sync p c u _ := keeps_syncStorage p c u

/-! ## Providing the symbols -/

theorem isSome_defineStorage {name : String}
    (h : (p.global? name).isSome = true ∨ name = c.config.storage) :
    ((p.defineStorage c.config).val.2.2.global? name).isSome = true := by
  rw [defineStorage]
  split
  · next g hg =>
    rcases h with h | rfl
    · exact h
    · exact Option.isSome_of_eq_some hg
  · rw [isSome_global?_iff] at h ⊢
    rcases h with ⟨g, hg, hname⟩ | rfl
    · exact ⟨g, List.mem_append_left _ hg, hname⟩
    · exact ⟨_, List.mem_append_right _ (List.mem_singleton_self _), rfl⟩

theorem instrumentation?_eq_some {config : Config} {u : Instrumentation}
    (h : p.instrumentation? config = some u) : p.isDeclared config.reportFn = true ∧
      p.isDeclared config.clockFn = true ∧ (p.global? config.storage).isSome = true := by
  rw [instrumentation?] at h
  split at h
  · next hd =>
    obtain ⟨hreport, hclock⟩ := Bool.and_eq_true_iff.1 hd
    obtain ⟨g, hg, -⟩ := Option.map_eq_some_iff.1 h
    exact ⟨hreport, hclock, Option.isSome_of_eq_some hg⟩
  · cases h

/-- What was declared or stored stays so, and the symbols of the configuration join it. -/
theorem provided_prepare (p : Program) (c : Context) :
    (∀ name, p.isDeclared name = true ∨ name = c.config.reportFn ∨ name = c.config.clockFn →
      (p.prepare c.config).val.2.2.isDeclared name = true) ∧
    ∀ name, (p.global? name).isSome = true ∨ name = c.config.storage →
      ((p.prepare c.config).val.2.2.global? name).isSome = true := by
  rw [prepare]
  split
  · next u hu =>
    obtain ⟨hreport, hclock, hstorage⟩ := instrumentation?_eq_some hu
    constructor
    · rintro name (h | rfl | rfl)
      exacts [h, hreport, hclock]
    · rintro name (h | rfl)
      exacts [h, hstorage]
  · simp only [Traced.val_bind, Traced.val_pure]
    constructor
    · intro name h
      rw [isDeclared_of_names decls_defineStorage (congrArg (List.map _) around_defineStorage.1.funcs)]
      rcases h with h | rfl | rfl
      · exact isDeclared_declare _ _ _ (.inl (isDeclared_declare _ _ _ (.inl h)))
      · exact isDeclared_declare _ _ _ (.inl (isDeclared_declare _ _ _ (.inr rfl)))
      · exact isDeclared_declare _ _ _ (.inr rfl)
    · intro name h
      refine isSome_defineStorage (h.imp_left fun h => ?_)
      rwa [global?_eq_find?, inside_declare.2, inside_declare.2, ← global?_eq_find?]

theorem Program.settled_prepare (p : Program) (c : Config) : (p.prepare c).val.2.2.Settled c := by
  obtain ⟨hdeclared, hstored⟩ := provided_prepare p (.ofModule c 0)
  exact ⟨hdeclared _ (.inr (.inl rfl)), hdeclared _ (.inr (.inr rfl)), hstored _ (.inr rfl)⟩

/-! ## Passes -/

namespace Profiler

theorem val_insertStorage (p : Program) (c : Context) : ∃ len,
    (insertStorage.run p c).val.2 = ((p.prepare c.config).val.2.2,
      { c with instrumentation := some (.ofConfig c.config len) }) := by
  obtain ⟨-, -, len, hlen⟩ := around_prepare (p := p) (c := c.config)
  exact ⟨len, by simp only [insertStorage, Traced.val_bind, Traced.val_pure, hlen]⟩

/-- The pass provides what all others need, whatever the module and the context are. -/
theorem settled_insertStorage (p : Program) (c : Context) : (insertStorage.run p c).val.2.1.Settled c.config ∧
    (insertStorage.run p c).val.2.2.config = c.config ∧
    ∃ len, (insertStorage.run p c).val.2.2.instrumentation = some (.ofConfig c.config len) := by
  obtain ⟨len, hval⟩ := val_insertStorage p c
  rw [hval]
  exact ⟨settled_prepare p c.config, rfl, len, rfl⟩

theorem keeps_insertStorage : Effect.Within (fun _ => Keeps) insertStorage.run := by
  intro p c
  obtain ⟨len, hval⟩ := val_insertStorage p c
  obtain ⟨hdeclared, hstored⟩ := provided_prepare p c
  rw [hval]
  exact ⟨fun name h => hdeclared name (.inl h), fun name h => hstored name (.inl h), fun _ => rfl⟩

theorem keeps_countLoops (l : Loop) (func : Nat) (p : Program) (c : Context) :
    Keeps (p, c) (countLoops.run l func p c).val.2 := by
  have hw : p.Weaves (fun _ => True) p := .refl
  exact .of_weaves hw fun h => h

theorem keepsNames_countLoops (l : Loop) (func : Nat) (p : Program) (c : Context) :
    c.KeepsState (countLoops.run l func p c).val.2.2 ∧ c.KeepsConfig (countLoops.run l func p c).val.2.2 :=
  ⟨fun u hu => ⟨u.len, hu⟩, fun _ => rfl⟩

/-- Where the context has an instrumentation, the pass puts in instructions that keep to it. -/
theorem weaves_insertTimer (l : Loop) (func : Nat) {p : Program} {c : Context} {u : Instrumentation}
    (hu : c.instrumentation = some u) :
    p.Weaves u.Names (insertTimer.run l func p c).val.2.1 := by
  simp only [insertTimer, hu, Traced.val_bind, Traced.val_pure]
  exact Timer.weaves_time l func ⟨p, u, c.slots⟩

theorem keepsNames_insertTimer (l : Loop) (func : Nat) (p : Program) (c : Context) :
    c.KeepsState (insertTimer.run l func p c).val.2.2 ∧
      c.KeepsConfig (insertTimer.run l func p c).val.2.2 := by
  cases hu : c.instrumentation with
  | none =>
    simp only [insertTimer, hu]
    exact ⟨fun u hv => absurd (hu.symm.trans hv) (Option.some_ne_none u).symm, fun _ => rfl⟩
  | some u =>
    obtain ⟨len, hlen⟩ := Timer.exists_len_time l func ⟨p, u, c.slots⟩
    simp only [insertTimer, hu, Traced.val_bind, Traced.val_pure]
    refine ⟨fun v hv => ⟨len, ?_⟩, fun _ => rfl⟩
    obtain rfl := Option.some.inj (hu.symm.trans hv)
    exact congrArg some hlen

theorem keeps_insertTimer (l : Loop) (func : Nat) (p : Program) (c : Context) :
    Keeps (p, c) (insertTimer.run l func p c).val.2 := by
  cases hu : c.instrumentation with
  | none =>
    simp only [insertTimer, hu]
    exact .refl _
  | some u =>
    obtain ⟨len, hlen⟩ := (keepsNames_insertTimer l func p c).1 u hu
    exact .of_weaves (weaves_insertTimer l func hu) fun _ => Option.isSome_of_eq_some hlen

theorem weaves_insertReport {p : Program} {c : Context} {u : Instrumentation}
    (hu : c.instrumentation = some u) : p.Weaves u.Names (insertReport.run p c).val.2.1 := by
  simp only [insertReport, hu, Traced.val_bind, Traced.val_pure]
  exact Report.weaves_insert

theorem context_insertReport (p : Program) (c : Context) : (insertReport.run p c).val.2.2 = c := by
  cases hu : c.instrumentation <;> simp [insertReport, hu]

theorem keepsNames_insertReport (p : Program) (c : Context) :
    c.KeepsState (insertReport.run p c).val.2.2 ∧ c.KeepsConfig (insertReport.run p c).val.2.2 := by
  rw [context_insertReport]
  exact ⟨fun u hu => ⟨u.len, hu⟩, fun _ => rfl⟩

theorem keeps_insertReport : Effect.Within (fun _ => Keeps) insertReport.run := by
  intro p c
  cases hu : c.instrumentation with
  | none =>
    simp only [insertReport, hu]
    exact .refl _
  | some u =>
    refine .of_weaves (weaves_insertReport hu) fun h => ?_
    rwa [context_insertReport]

end Profiler

end LoopClock
