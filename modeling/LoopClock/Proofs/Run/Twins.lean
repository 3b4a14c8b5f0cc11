import LoopClock.Proofs.Program.Twin
import LoopClock.Proofs.Run.Frame
import LoopClock.Proofs.Source.Zeros

/-! Standard runs on twins. They visit the same loops, split the same edges and take the same temporaries,
so what they leave behind are twins again. -/
namespace LoopClock
open Graph Program

variable {c : Config} {p q : Program} {s t : Progress} {i : Nat} {l : Loop} {x : Vertex}

/-! ## Splitting exits -/

/-- A block of function `i` that lies outside of the loop. -/
structure Program.Beyond (p : Program) (i : Nat) (l : Loop) (x : Vertex) : Prop where
  func : x.func = i
  mem : x.id ∈ p.ids i
  outside : l.holds x.id = false

theorem beyond_of_mem_exitBlocks (hp : p.Proper) (hl : p.HasLoop i l) (hx : x ∈ p.exitBlocks l) :
    p.Beyond i l x := by
  have hexit := (HasLoop.mem_exitBlocks hp hl).1 hx
  have hf := HasLoop.exit_func hp hl hexit
  refine ⟨hf, hf ▸ HasLoop.exit_mem_ids hp hl x hx, Bool.eq_false_iff.2 fun h => ?_⟩
  exact hexit.1 ((HasLoop.holds_iff hp hl hf).1 h)

namespace Program.Beyond

variable (B : p.Beyond i l x)
include B

theorem cut (hp : p.Proper) : Cut p x (p.nextVertex i) (p.leaving l x) where
  proper := hp
  regular := hp.regular _
  mem_ids := B.func ▸ B.mem
  next := by rw [B.func]
  edge a ha := (hp.mem_prev a x).1 (List.mem_of_mem_filter ha)
  not_self h := by
    have hin := List.of_mem_filter h
    rw [B.outside] at hin
    cases hin
  nodup := (hp.nodup_prev x).filter _

/-- The same edges are split in twins, or none are. -/
theorem twin (T : Twin p q) (b b' : Bool) :
    Twin (dedicateExit i l (p, b) x).val.1 (dedicateExit i l (q, b') x).val.1 := by
  have hprev : ∀ v, v ∈ q.prev x ↔ v ∈ p.prev x := fun v => T.mem_prev v x
  have B' : q.Beyond i l x := ⟨B.func, T.ids i ▸ B.mem, B.outside⟩
  have C' := B'.cut T.right
  rw [T.nextVertex] at C'
  have hmoved : ∀ v, v ∈ q.leaving l x ↔ v ∈ p.leaving l x := fun v => by
    rw [leaving, leaving, List.mem_filter, List.mem_filter, hprev]
  have hsplit := T.split (B.func.symm ▸ B.cut T.left) (B.func.symm ▸ C') hmoved
  rw [B.func] at hsplit
  have houtside : (q.prev x).filter (not ∘ fun v => l.holds v.id) = [] ↔
      (p.prev x).filter (not ∘ fun v => l.holds v.id) = [] := by
    simp only [List.filter_eq_nil_iff, hprev]
  simp only [dedicateExit, List.partition_eq_filter_filter, houtside, T.first?]
  split
  · exact T
  · exact hsplit

/-- No block is lost. -/
theorem mem_ids {j : Int} (hp : p.Proper) (b : Bool) (hj : j ∈ p.ids i) :
    j ∈ (dedicateExit i l (p, b) x).val.1.ids i := by
  have S := (B.cut hp).split
  rw [B.func] at S
  simp only [dedicateExit, List.partition_eq_filter_filter]
  split
  · exact hj
  · exact S.mem_ids_iff.2 (.inl hj)

end Program.Beyond

theorem twin_foldlM_dedicateExit {xs : List Vertex} (T : Twin p q) (hx : ∀ x ∈ xs, p.Beyond i l x)
    (b b' : Bool) : Twin (xs.foldlM (dedicateExit i l) (p, b)).val.1
      (xs.foldlM (dedicateExit i l) (q, b')).val.1 ∧
    ∀ j ∈ p.ids i, j ∈ (xs.foldlM (dedicateExit i l) (p, b)).val.1.ids i := by
  induction xs generalizing p q b b' with
  | nil => exact ⟨T, fun _ hj => hj⟩
  | cons x xs ih =>
    obtain ⟨B, hxs⟩ := List.forall_mem_cons.1 hx
    have hmem : ∀ j ∈ p.ids i, j ∈ (dedicateExit i l (p, b) x).val.1.ids i :=
      fun j => B.mem_ids T.left b
    obtain ⟨T', hkept⟩ := ih (B.twin T b b') (fun y hy =>
      ⟨(hxs y hy).func, hmem _ (hxs y hy).mem, (hxs y hy).outside⟩)
      (dedicateExit i l (p, b) x).val.2 (dedicateExit i l (q, b') x).val.2
    exact ⟨T', fun j hj => hkept j (hmem j hj)⟩

theorem twin_dedicateExits (T : Twin p q) (hl : p.HasLoop i l) :
    Twin (p.dedicateExits i l).val.1 (q.dedicateExits i l).val.1 ∧
      ∀ j ∈ p.ids i, j ∈ (p.dedicateExits i l).val.1.ids i := by
  rw [dedicateExits, dedicateExits, T.exitBlocks]
  exact twin_foldlM_dedicateExit T (fun x => beyond_of_mem_exitBlocks T.left hl) false false

/-! ## Timing loops -/

/-- A context in which the storage is known. -/
structure Context.Prepared (c : Config) (x : Context) : Prop where
  config : x.config = c
  instrumentation : ∃ len, x.instrumentation = some (.ofConfig c len)

/-- Two runs that have come equally far. The length that the storage must have may differ. -/
structure Abreast (c : Config) (s t : Progress) : Prop where
  twin : Twin s.1 t.1
  left : s.2.Prepared c
  right : t.2.Prepared c
  slots : t.2.slots = s.2.slots

/-- Timing a loop does not look at the length of the storage. -/
theorem Timer.place_ofConfig (p : Program) (i : Nat) (c : Config) (len slot : Nat) (header : Vertex)
    (exits : List Vertex) : Timer.place p i (.ofConfig c len) slot header exits =
      Timer.place p i (.ofConfig c 0) slot header exits := rfl

theorem Abreast.timeLoop (A : Abreast c s t) (k : Int) :
    Abreast c (timeLoop i s k).val (timeLoop i t k).val := by
  have hforest := A.twin.forest_eq i
  cases hl : (s.1.flow i).forest.byHeader? k with
  | none => rwa [timeLoop_none hl, timeLoop_none (hforest ▸ hl)]
  | some l =>
    obtain ⟨hc, len, hlen⟩ := A.left
    obtain ⟨hc', len', hlen'⟩ := A.right
    have hmem : l ∈ (s.1.flow i).forest.loops := List.mem_of_find?_eq_some hl
    have hn := A.twin.left.hasLoop hmem
    rw [(timeLoop_some hl hlen).1, (timeLoop_some (hforest ▸ hl) hlen').1]
    have hexits := A.twin.exitBlocks l
    by_cases he : s.1.exitBlocks l = []
    · rw [(Timer.time_of_no_exits l i ⟨s.1, .ofConfig c len, s.2.slots⟩ he).1,
        (Timer.time_of_no_exits l i ⟨t.1, .ofConfig c len', t.2.slots⟩ (hexits.trans he)).1]
      exact ⟨A.twin, ⟨hc, len, rfl⟩, ⟨hc', len', rfl⟩, A.slots⟩
    · obtain ⟨T, hkept⟩ := twin_dedicateExits A.twin hn
      have hfunc : i = l.header.func := (HasLoop.func_eq A.twin.left hn ((hn.mem _).2 inLoop_header)).symm
      have hheader : l.header.id ∈ s.1.ids i := by
        rw [hfunc]
        exact HasLoop.header_mem_ids A.twin.left hn
      have hplace := T.place (lt_of_mem_ids (hkept _ hheader)) (.ofConfig c 0) s.2.slots l.header
        ((s.1.dedicateExits i l).val.1.exitBlocks l)
      obtain ⟨n, hn⟩ := ofConfig_require c len s.2.slots
      obtain ⟨n', hn'⟩ := ofConfig_require c len' s.2.slots
      rw [Timer.val_time_of_exits l i ⟨s.1, .ofConfig c len, s.2.slots⟩ he,
        Timer.val_time_of_exits l i ⟨t.1, .ofConfig c len', t.2.slots⟩ fun h => he (hexits.symm.trans h)]
      dsimp only
      rw [A.slots, T.exitBlocks, hn, hn', Timer.place_ofConfig, Timer.place_ofConfig _ _ _ n']
      exact ⟨hplace, ⟨hc, n, rfl⟩, ⟨hc', n', rfl⟩, rfl⟩

theorem Abreast.foldlM {α : Type} {step : Progress → α → Traced Progress}
    (h : ∀ {s t}, Abreast c s t → ∀ a, Abreast c (step s a).val (step t a).val) (as : List α)
    (A : Abreast c s t) : Abreast c (as.foldlM step s).val (as.foldlM step t).val := by
  induction as generalizing s t with
  | nil => exact A
  | cons a as ih =>
    rw [List.foldlM_cons, List.foldlM_cons]
    exact ih (h A a)

theorem Abreast.timeFunc (A : Abreast c s t) (i : Nat) :
    Abreast c (timeFunc s i).val (timeFunc t i).val := by
  rw [LoopClock.timeFunc, LoopClock.timeFunc, A.twin.forest_eq]
  exact A.foldlM (fun A k => A.timeLoop k) _

theorem Abreast.timeProgram (A : Abreast c s t) :
    Abreast c (timeProgram s).val (timeProgram t).val := by
  have A' := A.foldlM (fun A i => A.timeFunc i) (List.range s.1.funcs.length)
  obtain ⟨hc, len, hlen⟩ := A'.left
  obtain ⟨hc', len', hlen'⟩ := A'.right
  simp only [LoopClock.timeProgram, Traced.val_bind, A.twin.length, hlen, hlen']
  have hs := (around_syncStorage (p := ((List.range s.1.funcs.length).foldlM LoopClock.timeFunc s).val.1)
    (s := .ofConfig c len)).1
  have ht := (around_syncStorage (p := ((List.range s.1.funcs.length).foldlM LoopClock.timeFunc t).val.1)
    (s := .ofConfig c len')).1
  exact ⟨((Twin.of_funcs A'.twin.left hs.funcs hs.temps).symm.trans A'.twin).trans
    (Twin.of_funcs A'.twin.right ht.funcs ht.temps), ⟨hc, len, hlen⟩, ⟨hc', len', hlen'⟩, A'.slots⟩

/-! ## Whole runs -/

theorem abreast_provideStorage (T : Twin p q) (c : Config) (tally : Nat) :
    Abreast c (provideStorage (p, .ofModule c tally)).val
      (provideStorage (q, .ofModule c tally)).val := by
  obtain ⟨hp, -, len, hlen⟩ := around_prepare (p := p) (c := c)
  obtain ⟨hq, -, len', hlen'⟩ := around_prepare (p := q) (c := c)
  exact ⟨((Twin.of_funcs T.left hp.funcs hp.temps).symm.trans T).trans
    (Twin.of_funcs T.right hq.funcs hq.temps), ⟨rfl, len, congrArg some hlen⟩,
    ⟨rfl, len', congrArg some hlen'⟩, rfl⟩

theorem Abreast.reportTo (A : Abreast c s t) (hd : t.1.decls = s.1.decls) :
    Abreast c (reportTo s).val (reportTo t).val := by
  obtain ⟨hc, len, hlen⟩ := A.left
  obtain ⟨hc', len', hlen'⟩ := A.right
  have T := (A.twin.report hd (.ofConfig c 0) s.2.slots s.2.config.entryFn).2
  simp only [LoopClock.reportTo, hlen, hlen', Traced.val_bind]
  rw [A.slots, hc'.trans hc.symm]
  exact ⟨T, ⟨hc, len, hlen⟩, ⟨hc', len', hlen'⟩, A.slots⟩

namespace Program

theorem Twin.visits (T : Twin p q) : q.visits = p.visits := by
  simp only [Program.visits, T.length, T.forest_eq]

theorem Twin.leavable (T : Twin p q) (vs : List (Nat × Loop)) : q.leavable vs = p.leavable vs := by
  simp only [Program.leavable, T.exitBlocks]

/-- Two programs with the same text, in which all functions lead to the same flow graphs. -/
structure Same (p q : Program) : Prop where
  twin : Twin p q
  decls : q.decls = p.decls
  globals : List.Forall₂ Global.Alike p.globals q.globals

theorem map_eq_of_alike {α : Type} {f : Global → α} {gs hs : List Global}
    (hf : ∀ {g h : Global}, g.Alike h → f h = f g) (A : List.Forall₂ Global.Alike gs hs) :
    hs.map f = gs.map f := by
  induction A with
  | nil => rfl
  | cons h _ ih => rw [List.map_cons, List.map_cons, hf h, ih]

private theorem alike_modify {gs hs : List Global} (n i : Nat)
    (A : List.Forall₂ Global.Alike gs hs) :
    List.Forall₂ Global.Alike (gs.modify i fun g => (g.growTo n).2)
      (hs.modify i fun g => (g.growTo n).2) := by
  induction A generalizing i with
  | nil => simp
  | cons h A ih =>
    cases i with
    | zero => exact .cons (h.growTo n) A
    | succ i => exact .cons h (ih i)

theorem alike_grown {gs hs : List Global} (name : String) (n : Nat)
    (A : List.Forall₂ Global.Alike gs hs) :
    List.Forall₂ Global.Alike (grown name n gs) (grown name n hs) := by
  have hidx : hs.findIdx? (·.name == name) = gs.findIdx? (·.name == name) := by
    have hname : ∀ ks : List Global, ks.findIdx? (·.name == name) = (ks.map (·.name)).findIdx? (· == name) :=
      fun ks => by
        rw [List.findIdx?_map]
        rfl
    rw [hname, map_eq_of_alike Global.Alike.name A, hname]
  rw [grown, grown, hidx]
  cases gs.findIdx? (·.name == name) with
  | none => exact A
  | some i => exact alike_modify n i A

namespace Same

theorem refl (hp : p.Proper) : Same p p :=
  ⟨.refl hp, rfl, List.forall₂_same.2 fun g _ => .refl g⟩

variable (D : Same p q)
include D

theorem text : q.text = p.text := by
  have hfuncs : ∀ r : Program, r.onward.funcs.map Func.text = r.funcs.map Func.text := fun r => by
    rw [onward, List.map_map]
    exact List.map_congr_left fun f _ => text_onward f
  unfold Program.text
  rw [D.decls, map_eq_of_alike Global.Alike.text D.globals, ← hfuncs q, D.twin.onward, hfuncs]

theorem declared (c : Config) : q.declared c = p.declared c := by
  have hone : ∀ {p q : Program}, Twin p q → q.decls = p.decls → ∀ d : Decl,
      (q.declare d).val.2.decls = (p.declare d).val.2.decls := fun T hd d => by
    rw [decls_declare, decls_declare, T.isDeclared hd, hd]
  have hp := (around_declare (p := p) (d := reportDecl c)).1
  have hq := (around_declare (p := q) (d := reportDecl c)).1
  exact hone (((Twin.of_funcs D.twin.left hp.funcs hp.temps).symm.trans D.twin).trans
    (Twin.of_funcs D.twin.right hq.funcs hq.temps)) (hone D.twin D.decls _) _

theorem isSome_global? (name : String) : (q.global? name).isSome = (p.global? name).isSome := by
  have hname : ∀ r : Program, (r.global? name).isSome = (r.globals.map (·.name)).any (· == name) :=
    fun r => by
      rw [Bool.eq_iff_iff, global?_eq_find?, List.find?_isSome, List.any_map, List.any_eq_true]
      rfl
  rw [hname, map_eq_of_alike Global.Alike.name D.globals, hname]

theorem stored (c : Config) : List.Forall₂ Global.Alike (p.stored c) (q.stored c) := by
  have hsome := D.isSome_global? c.storage
  rw [Program.stored, Program.stored, hsome]
  split
  · exact D.globals
  · next hnone =>
    have hp : p.global? c.storage = none := by simpa using hnone
    have hq : q.global? c.storage = none := by simpa [hp] using hsome
    refine List.rel_append D.globals (List.Forall₂.cons ?_ .nil)
    rw [storageFor, storageFor, hp, hq, D.twin.visits]
    exact .refl _

/-- When all loops are timed the programs are even. -/
theorem timed (c : Config) (tally : Nat) :
    Abreast c (timeProgram (provideStorage (p, .ofModule c tally)).val).val
        (timeProgram (provideStorage (q, .ofModule c tally)).val).val ∧
      (timeProgram (provideStorage (q, .ofModule c tally)).val).val.1.decls =
        (timeProgram (provideStorage (p, .ofModule c tally)).val).val.1.decls := by
  have A := (abreast_provideStorage D.twin c tally).timeProgram
  obtain ⟨-, len, hlen⟩ := A.left
  obtain ⟨-, len', hlen'⟩ := A.right
  refine ⟨A, ?_⟩
  rw [(framed_timeProgram hlen).1, (framed_timeProgram hlen').1]
  exact ((framed_prepare D.twin.right).1.trans (D.declared c)).trans (framed_prepare D.twin.left).1.symm

/-- Programs with the same text have the same text after a standard run. -/
theorem instrument (c : Config) (tally : Nat) :
    Same (instrument p (.ofModule c tally)).val.1 (instrument q (.ofModule c tally)).val.1 := by
  obtain ⟨hdp, hgp⟩ := framed_instrument D.twin.left c tally
  obtain ⟨hdq, hgq⟩ := framed_instrument D.twin.right c tally
  refine ⟨?_, ?_, ?_⟩
  · obtain ⟨A, hdecls⟩ := D.timed c tally
    simp only [LoopClock.instrument, Traced.val_bind]
    split
    · exact (A.reportTo hdecls).twin
    · exact A.twin
  · rw [hdq, hdp, D.declared]
  · rw [hgq, hgp, D.twin.visits, D.twin.leavable]
    exact alike_grown _ _ (D.stored c)

end Same

end Program
end LoopClock
