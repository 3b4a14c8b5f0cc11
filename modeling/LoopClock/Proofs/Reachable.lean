import LoopClock.Proofs.Run.Passes
import LoopClock.Proofs.Source.Programs

/-! What holds of every program that passes can leave behind, whichever of them are run, in whatever order,
how often and with whatever context. -/
namespace LoopClock
open Graph Program

/-- The programs that a text leads to by runs of passes, each with the context that comes with it. A context
is a new one at any time, or one that is kept from whatever was reached before, from this text or another. -/
inductive Reachable : String → Program → Context → Prop
  | parsed {txt : String} {p : Program} (parse : Source.parse txt = .ok p) (config : Config)
      (tally : Nat) : Reachable txt p (.ofModule config tally)
  | renewed {txt : String} {p : Program} {c : Context} (before : Reachable txt p c) (config : Config)
      (tally : Nat) : Reachable txt p (.ofModule config tally)
  | kept {txt txt' : String} {p q : Program} {c d : Context} (before : Reachable txt p c)
      (earlier : Reachable txt' q d) : Reachable txt p d
  | run {txt : String} {p : Program} {c : Context} {m : Manager} {names : Option (List String)} {r : Run}
      (before : Reachable txt p c) (run : (m.run names p c).val = .ok r) :
    Reachable txt r.program r.context

/-- A function as the passes rely on it. The function is at place `i` of its program. -/
structure Func.Intact (f : Func) (i : Nat) : Prop where
  nodup : f.ids.Nodup
  entry : f.ids.head? = some 0
  bound : ∀ j ∈ f.ids, 0 ≤ j ∧ j ≤ f.total
  /-- All neighbours of a block are blocks of the function, and each is listed once. -/
  inside : ∀ b ∈ f.blocks, ∀ w ∈ b.succ ++ b.prev, w.func = i ∧ w.id ∈ f.ids
  once : ∀ b ∈ f.blocks, b.succ.Nodup ∧ b.prev.Nodup
  both : ∀ b ∈ f.blocks, ∀ d ∈ f.blocks, ⟨i, b.id⟩ ∈ d.prev ↔ ⟨i, d.id⟩ ∈ b.succ
  ends : ∀ b ∈ f.blocks, b.jump.isSome
  known : ∀ b ∈ f.blocks, ∀ t ∈ b.reads, t.isGlobal = false →
    ∃ u ∈ f.writes, u.isGlobal = false ∧ u.name = t.name

/-- A program as the passes rely on it. -/
structure Program.Intact (p : Program) : Prop where
  names : (p.funcs.map (·.name)).Nodup
  funcs : ∀ (i : Nat) (f : Func), p.funcs[i]? = some f → f.Intact i
  /-- A name that denotes a number denotes one that temporaries to come do not have. -/
  numbered : ∀ s ∈ p.names, ∀ n, Numeral.word32? s.toList = some n → n ≤ p.temps

variable {txt : String} {p : Program} {c : Context}

theorem Program.Sound.intact (h : p.Sound) : p.Intact where
  names := h.names
  numbered s hs n hn := by
    have := h.numbered s ((mem_names h.proper.nodup).1 hs)
    rwa [hn] at this
  funcs i f hf := by
    have hp := h.proper
    have hids := ids_eq hf
    have hi : i < p.funcs.length := (List.getElem?_eq_some_iff.1 hf).1
    have hblock : ∀ b ∈ f.blocks, p.block? ⟨i, b.id⟩ = some b := fun b => block?_of_mem (hp.nodup i) hf
    have hmem : ∀ b ∈ f.blocks, b.id ∈ p.ids i := fun b hb => hids ▸ List.mem_map_of_mem hb
    have hsucc : ∀ b ∈ f.blocks, p.succ ⟨i, b.id⟩ = b.succ := fun b hb => by
      rw [succ, hblock b hb]
      rfl
    have hprev : ∀ b ∈ f.blocks, p.prev ⟨i, b.id⟩ = b.prev := fun b hb => by
      rw [prev, hblock b hb]
      rfl
    constructor
    · exact hids ▸ hp.nodup i
    · exact hids ▸ hp.entry i hi
    · have hb := hp.bound i
      rwa [hids, total, hf] at hb
    · intro b hb w hw
      rw [← hids]
      rcases List.mem_append.1 hw with hw | hw
      · have he : p.Edge ⟨i, b.id⟩ w := (congrArg (w ∈ ·) (hsucc b hb)).mpr hw
        have hfunc : w.func = i := hp.func_eq _ _ he
        exact ⟨hfunc, hfunc ▸ hp.mem_ids _ _ he⟩
      · have he : p.Edge w ⟨i, b.id⟩ := (hp.mem_prev _ _).1 (hprev b hb ▸ hw)
        exact ⟨(hp.func_eq _ _ he).symm, hp.edge_source he⟩
    · intro b hb
      exact ⟨hsucc b hb ▸ hp.nodup_succ _, hprev b hb ▸ hp.nodup_prev _⟩
    · intro b hb d hd
      rw [← hprev d hd, ← hsucc b hb]
      exact hp.mem_prev _ _
    · intro b hb
      have hj := h.ends ⟨i, b.id⟩ (hmem b hb)
      rwa [jump, hblock b hb] at hj
    · intro b hb t ht hg
      have hread : p.ReadIn ⟨i, b.id⟩ t.name :=
        (readIn_iff (hblock b hb)).2 (mem_localNames.2 ⟨t, ht, hg, rfl⟩)
      have hdef := h.closed _ _ hread
      rw [definitions_eq (hp.nodup i) hf] at hdef
      exact mem_localNames.1 hdef

/-- A program is sound when it has been read. -/
theorem Source.sound_of_parse (h : parse txt = .ok p) : p.Sound := by
  have W := wellformed_of_parse h
  have R := readable_of_parse h
  refine ⟨W.proper, W.numbered, W.names, fun v hv => ?_, fun v s hs => ?_⟩
  · obtain ⟨b, hb⟩ := exists_block? hv
    obtain ⟨t, ht⟩ := W.ends v b hb
    rw [jump, hb]
    exact Option.isSome_iff_exists.2 ⟨t, ht⟩
  · have hv : v.id ∈ p.ids v.func := by
      by_contra hv
      have hnone := block?_eq_none hv
      cases hs with
      | phi φ hφ => simp [phis, hnone] at hφ
      | body x hx => simp [Program.body, hnone] at hx
      | jump t ht => simp [Program.jump, hnone] at ht
    obtain ⟨b, hb⟩ := exists_block? hv
    obtain ⟨f, hf, hbf⟩ := mem_blocks_of_block? hb
    obtain ⟨t, ht, hg, rfl⟩ := mem_localNames.1 ((readIn_iff hb).1 hs)
    have F := R.funcs f (List.mem_of_getElem? hf)
    obtain ⟨u, hu, hname⟩ := F.checked.known b hbf t ht hg
    rw [definitions_eq (W.proper.nodup _) hf]
    exact mem_localNames.2 ⟨u, hu, (F.spelled.isLocal u hu).notGlobal, hname⟩

/-- A program and its context on the way from a program that was read. -/
structure Reached (p : Program) (c : Context) : Prop where
  sound : p.Sound
  within : c.Within fun _ => True

theorem within_ofModule (config : Config) (tally : Nat) :
    (Context.ofModule config tally).Within fun _ => True :=
  ⟨trivial, fun _ h => nomatch h⟩

theorem Reachable.reached (h : Reachable txt p c) : Reached p c := by
  induction h with
  | parsed parse config tally => exact ⟨Source.sound_of_parse parse, within_ofModule config tally⟩
  | renewed _ config tally ih => exact ⟨ih.sound, within_ofModule config tally⟩
  | kept _ _ ih earlier => exact ⟨ih.sound, earlier.within⟩
  | @run _ p c m names r _ run ih =>
    have E := Manager.run_edited (s := (p, c)) ih.sound.proper ⟨.refl, ih.within⟩ run
    exact ⟨E.edits.sound ih.sound, E.within⟩

/-- Every program that runs of the passes lead to is as the passes rely on it. -/
theorem intact_of_reachable (h : Reachable txt p c) : p.Intact := h.reached.sound.intact

/-- A standard run, one with a new context, and one that is scheduled and takes up the context of the
first. -/
theorem intact_of_reachable_sharedExit :
    ∃ r r' r'', (Manager.pipeline.run none Source.sharedExit (.ofModule {} 0)).val = .ok r ∧
      (Manager.pipeline.run none r.program (.ofModule {} 0)).val = .ok r' ∧
      (Manager.schedule.run none r'.program r.context).val = .ok r'' ∧
      Reachable Source.sharedExitText r''.program r''.context ∧ r''.program.Intact := by
  obtain ⟨r, hr, -⟩ := (Manager.completes .pipeline Source.sharedExit (.ofModule {} 0)).ok
  obtain ⟨r', hr', -⟩ := (Manager.completes .pipeline r.program (.ofModule {} 0)).ok
  obtain ⟨r'', hr'', -⟩ := (Manager.completes .schedule r'.program r.context).ok
  have first := (Reachable.parsed Source.parse_sharedExit {} 0).run hr
  have second := (first.renewed {} 0).run hr'
  have h := (second.kept first).run hr''
  exact ⟨r, r', r'', hr, hr', hr'', h, intact_of_reachable h⟩

end LoopClock
