import LoopClock.Proofs.Run.Outcome

/-! Instrumenting a program that is instrumented already. The second run finds all declarations, the storage
and the reports, and every loop has exits of its own. So it places another timer around each loop and
changes nothing else. -/
namespace LoopClock
open Graph Program

variable {c : Config} {p q : Program} {s : Progress} {tally : Nat}

/-! ## After the first run -/

theorem funcName_injective (hn : (p.funcs.map (·.name)).Nodup) {i j : Nat} (hi : i < p.funcs.length)
    (hj : j < p.funcs.length) (h : p.funcName i = p.funcName j) : i = j := by
  rw [funcName, funcName, List.getElem?_eq_getElem hi, List.getElem?_eq_getElem hj] at h
  rw [← List.length_map (·.name)] at hi hj
  refine (@List.Nodup.getElem_inj_iff _ _ hn i hi j hj).1 ?_
  rw [List.getElem_map, List.getElem_map]
  exact h

/-- Every loop that can be left has been timed, and it has kept the exits that it got for that. -/
theorem allOwn_instrument (hp : p.Proper) (hn : (p.funcs.map (·.name)).Nodup) (c : Config) (tally : Nat) :
    (instrument p (.ofModule c tally)).val.1.AllOwn := by
  obtain ⟨ts, I⟩ := instrumented_instrument hp c tally
  have A := accounted_instrument hp c tally
  obtain ⟨q, hsteps, hr⟩ := I.changes
  refine AllOwn.rebodied (p := q) (fun i h hh x hx => ?_) hr.rebodied
  have hh₀ := (hsteps.isHeader_iff hp).1 hh
  have hi := lt_of_isHeader hp hh₀
  -- the loop is announced
  have hkey := (mem_keys_leavable hp).2 ⟨hh₀, (hsteps.exists_isExit_iff hp hh₀).1 ⟨x, hx⟩⟩
  obtain ⟨⟨j, l⟩, hl, heq⟩ := List.mem_map.1 hkey
  obtain ⟨rfl, rfl⟩ := Prod.mk.inj heq
  obtain ⟨k, hk⟩ := List.mem_iff_getElem?.1 hl
  have hannounced : (l.header.id, p.funcName j, k) ∈ ts.map (·.announced p) := by
    rw [← I.announced, A.timers]
    exact List.mem_map.2 ⟨((j, l), k), List.mk_mem_zipIdx_iff_getElem?.2 hk, rfl⟩
  obtain ⟨t, ht, heq⟩ := List.mem_map.1 hannounced
  obtain ⟨hid, hname, -⟩ : t.header.id = l.header.id ∧ p.funcName t.func = p.funcName j ∧ t.slot = k := by
    simpa [Timing.announced] using heq
  -- so its timer is one of those that were placed
  have S := hsteps.settled hp t ht
  have hlt : t.func < p.funcs.length := (hsteps.length_eq hp).symm ▸ S.func
  have hfunc : t.func = j := funcName_injective hn hlt hi hname
  have hheader : t.header = l.header :=
    Vertex.ext (((hsteps.proper hp).reaches_func S.header.reaches).trans (hfunc.trans
      (hp.reaches_func hh₀.reaches).symm)) hid
  have hown := S.own
  rw [hfunc, hheader] at hown
  exact hown x hx

theorem program_reportTo {len : Nat} (hc : s.2.config = c)
    (hu : s.2.instrumentation = some (.ofConfig c len)) : (reportTo s).val.1 =
      (Report.insert s.1 (.ofConfig c len) s.2.slots c.entryFn).val.2 := by
  simp only [reportTo, hu, hc]
  rfl

/-- A run that is to report does so last. -/
theorem instrument_of_report (h : c.reportOnExit = true) : (instrument p (.ofModule c tally)).val =
    (reportTo (timeProgram (provideStorage (p, .ofModule c tally)).val).val).val := by
  simp only [instrument, Traced.val_bind, Context.ofModule, h, if_true]

theorem reporting_instrument (hp : p.Proper) (hc : c.reportOnExit = true) (tally : Nat) :
    (instrument p (.ofModule c tally)).val.1.Reporting c := by
  have hd := (framed_instrument hp c tally).1
  obtain ⟨h₁, R₁, hf, -⟩ := steps_provideStorage c tally p
  obtain ⟨ts, -, h₂, R₂⟩ := steps_timeProgram hp hf h₁ R₁
  obtain ⟨len, hlen⟩ := R₂.instrumentation
  rw [instrument_of_report hc] at hd ⊢
  have hin := (framed_reportTo (timeProgram (provideStorage (p, .ofModule c tally)).val).val).2
  rw [program_reportTo R₂.config hlen]
  refine reporting_insert ?_ len _
  exact (isDeclared_declared (hin.decls.symm.trans hd) (h₂.signatures hp)).1

/-! ## The second run -/

theorem retimed_instrument {g : Global} (hp : p.Proper) (own : p.AllOwn)
    (hr : p.isDeclared c.reportFn = true) (hc : p.isDeclared c.clockFn = true)
    (hg : p.global? c.storage = some g) (hlen : (p.leavable p.visits).length ≤ g.len)
    (hreport : c.reportOnExit = true → p.Reporting c) (tally : Nat) :
    Retimed c p (instrument p (.ofModule c tally)).val.1 ∧
      (instrument p (.ofModule c tally)).val.1.decls = p.decls ∧
      (instrument p (.ofModule c tally)).val.1.globals = p.globals := by
  obtain ⟨hdecls, hglobals⟩ := framed_instrument hp c tally
  refine ⟨?_, hdecls.trans (declared_of_isDeclared hr hc), hglobals.trans ?_⟩
  · obtain ⟨ha, -, len, hlen⟩ := around_prepare (p := p) (c := c)
    have R : Resumed c p (provideStorage (p, .ofModule c tally)).val :=
      ⟨.of_funcs ha.funcs, rfl, len, congrArg some hlen⟩
    have R' := R.timeProgram hp own
    simp only [instrument, Traced.val_bind]
    split
    · next hexit =>
      obtain ⟨hconfig, len, hlen⟩ := R'.prepared
      have hq := R'.retimed.rebodied.proper hp
      have hsame := insert_of_reporting hq.nodup ((hreport hexit).retimed R'.retimed) len
      rw [program_reportTo hconfig hlen, hsame]
      exact R'.retimed
    · exact R'.retimed
  · rw [stored, if_pos (by rw [hg]; rfl)]
    exact grown_of_le hg hlen

/-- A second run, by whichever manager, leaves the declarations, the globals and all of the blocks but their
bodies as they are, and puts nothing into the bodies but timers: the stashes at the entries of functions,
the samples at the headers of loops, the records at their exits, and no report. It hands out as many slots
as the first one and counts as many loops. -/
theorem exists_retimed (m m' : Manager) (c : Config) (tally : Nat) {txt : String} {p : Program}
    (h : Source.parse txt = .ok p) :
    ∃ r r' n, (m.run none p (.ofModule c tally)).val = .ok r ∧
      (m'.run none r.program (.ofModule c r.context.tally)).val = .ok r' ∧
      Retimed c r.program r'.program ∧ r'.program.decls = r.program.decls ∧
      r'.program.globals = r.program.globals ∧ r'.context.slots = r.context.slots ∧
      r.context.tally = tally + n ∧ r'.context.tally = r.context.tally + n := by
  have W := Source.wellformed_of_parse h
  have hp := W.proper
  obtain ⟨ts, I⟩ := instrumented_instrument hp c tally
  have A := accounted_instrument hp c tally
  have hcounts := counts_instrument hp c tally
  let r := p.outcome c tally
  have hq : r.program.Proper := I.proper hp
  have A' := accounted_instrument hq c r.context.tally
  -- all that the second run looks for is there
  obtain ⟨hrep, hclock⟩ := isDeclared_declared (framed_instrument hp c tally).1 (I.signatures hp)
  have hlen : (r.program.leavable r.program.visits).length ≤
      ((p.storageFor c).growTo r.context.slots).2.len := by
    rw [Global.len_growTo]
    exact (hcounts.2.trans A.slots.symm).le.trans (Nat.le_max_right _ _)
  obtain ⟨hretimed, hdecls, hglobals⟩ := retimed_instrument hq (allOwn_instrument hp W.names c tally)
    hrep hclock A.storage hlen (fun hc => reporting_instrument hp hc tally) r.context.tally
  refine ⟨r, r.program.outcome c r.context.tally, p.visits.length, m.run_eq hp c tally,
    m'.run_eq hq c r.context.tally, hretimed, hdecls, hglobals, ?_, A.tally, ?_⟩
  · exact A'.slots.trans (hcounts.2.trans A.slots.symm)
  · exact A'.tally.trans (congrArg (r.context.tally + ·) hcounts.1)

theorem exists_retimed_sharedExit : ∃ r r',
    (Manager.pipeline.run none Source.sharedExit (.ofModule {} 3)).val = .ok r ∧
    (Manager.schedule.run none r.program (.ofModule {} r.context.tally)).val = .ok r' ∧
    Retimed {} r.program r'.program ∧ r.context.tally = 4 ∧ r'.context.tally = 5 := by
  obtain ⟨r, r', n, hr, hr', hretimed, -, -, -, htally, htally'⟩ :=
    exists_retimed .pipeline .schedule {} 3 Source.parse_sharedExit
  have hfour : r.context.tally = 4 :=
    of_toOption_all (fun r : Run => r.context.tally = 4) hr (by decide +kernel)
  exact ⟨r, r', hr, hr', hretimed, hfour, by omega⟩

end LoopClock
