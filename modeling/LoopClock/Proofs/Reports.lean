import LoopClock.Proofs.Dominance
import LoopClock.Proofs.Run.Quiet
import LoopClock.Proofs.Run.Returns
import Mathlib.Logic.Relation

/-! Each return of the entry function reports, once and last. Whatever loops are timed afterwards, the call
that was put in still comes right before the return. -/
namespace LoopClock
open Program

/-- The block returns and does not call the report routine. -/
def Block.Lacks (u : Instrumentation) (b : Block) : Prop :=
  b.isRet = true ∧ ∀ x ∈ b.body, x.callee? ≠ some u.reportFn

/-- A block that lacks its report gets one behind all instructions, with the storage and the number of
slots, and any other stays as it is. -/
inductive Block.Reports (u : Instrumentation) (slots : Nat) (b : Block) : Block → Prop where
  | added : b.Lacks u → Reports u slots b { b with body := b.body ++ [.call none .void u.reportFn
      [(.i64Ptr, .temp u.storage), (.i32, .int (Int32.ofNat slots))]] }
  | kept : ¬ b.Lacks u → Reports u slots b b

/-- All returns of the function report. -/
def Func.Reports (u : Instrumentation) (f : Func) : Prop :=
  ∀ b ∈ f.returns, ∃ x ∈ b.body, x.callee? = some u.reportFn

/-- `q` is what timing some loop makes of `p`. -/
def Timer.Times (p q : Program) : Prop :=
  ∃ l func u slots, q = (time l func ⟨p, u, slots⟩).val.2.program

variable {p q : Program} {u : Instrumentation} {slots i : Nat} {entry : String} {b c : Block} {f g : Func}

/-! ## Blocks -/

namespace Report

theorem isMissing_iff : isMissing u b = true ↔ b.Lacks u := by
  simp [isMissing, Block.Lacks]

theorem reports_insertInto (u : Instrumentation) (slots : Nat) (b : Block) :
    b.Reports u slots (insertInto u slots b) := by
  rw [insertInto]
  split
  · next h => exact .added (isMissing_iff.1 h)
  · next h => exact .kept fun hlacks => h (isMissing_iff.2 hlacks)

theorem isRet_insertInto (b : Block) : (insertInto u slots b).isRet = b.isRet := by
  rw [insertInto_eq]
  rfl

/-- After the insertion every return reports. -/
theorem exists_call_insertInto (u : Instrumentation) (slots : Nat) (h : b.isRet = true) :
    ∃ x ∈ (insertInto u slots b).body, x.callee? = some u.reportFn := by
  have hb := reports_insertInto u slots b
  generalize insertInto u slots b = c at hb ⊢
  cases hb with
  | added _ => exact ⟨call u slots, List.mem_append_right _ (List.mem_singleton_self _), rfl⟩
  | kept hno =>
    by_contra hcalls
    apply hno
    constructor
    · exact h
    · intro x hx hcall
      exact hcalls ⟨x, hx, hcall⟩

theorem returns_insertInto (u : Instrumentation) (slots : Nat) (f : Func) :
    Func.returns { f with blocks := f.blocks.map (insertInto u slots) } =
      f.returns.map (insertInto u slots) := by
  unfold Func.returns
  rw [List.filter_map]
  congr 2
  funext b
  exact isRet_insertInto b

end Report

/-! ## Programs -/

theorem Program.exists_funcIdx? (h : p.func? entry = some f) :
    ∃ i, p.funcIdx? entry = some i ∧ p.funcs[i]? = some f := by
  rw [func?, List.find?_eq_bind_findIdx?_getElem?] at h
  exact Option.bind_eq_some_iff.1 h

theorem Program.func?_of_names (hn : q.funcs.map (·.name) = p.funcs.map (·.name))
    (hi : p.funcIdx? entry = some i) (hg : q.funcs[i]? = some g) : q.func? entry = some g := by
  have hidx : ∀ r : Program,
      r.funcIdx? entry = (r.funcs.map (·.name)).findIdx? (· == entry) := by
    intro r
    rw [funcIdx?, List.findIdx?_map]
    rfl
  have hq : q.funcIdx? entry = some i := by rw [hidx, hn, ← hidx, hi]
  rw [func?_of_funcIdx? hq, hg]

namespace Report

theorem insert_eq (hd : p.isDeclared u.reportFn = true) (hi : p.funcIdx? entry = some i)
    (hf : p.funcs[i]? = some f) (slots : Nat) : (insert p u slots entry).val =
      (.ofBool !(f.blocks.filter (isMissing u)).isEmpty,
        { p with funcs := p.funcs.set i { f with blocks := f.blocks.map (insertInto u slots) } }) := by
  have hfunc : p.func? entry = some f := (func?_of_funcIdx? hi).trans hf
  rw [insert, hd, hi, hfunc]
  rfl

/-- Where all returns report, nothing is inserted. -/
theorem insert_of_reports (hd : p.isDeclared u.reportFn = true) (hf : p.func? entry = some f)
    (h : f.Reports u) (slots : Nat) : (insert p u slots entry).val = (.noChange, p) := by
  obtain ⟨i, hi, hget⟩ := exists_funcIdx? hf
  have hmissing : f.blocks.filter (isMissing u) = [] := by
    apply List.filter_eq_nil_iff.2
    intro b hb hno
    obtain ⟨hret, hnone⟩ := isMissing_iff.1 hno
    obtain ⟨x, hx, hcall⟩ := h b (List.mem_filter.2 ⟨hb, hret⟩)
    exact hnone x hx hcall
  have hresult : (insert p u slots entry).val.1 = .noChange := by
    rw [insert_eq hd hi hget slots, hmissing]
    rfl
  have hprogram : (insert p u slots entry).val.2 = p :=
    insert_of_quiet (congrArg PassResult.isChanged hresult)
  exact Prod.ext hresult hprogram

end Report

/-- What timing loops keeps: the names of the routines, and how functions are left. -/
theorem Timer.kept_of_times (h : Relation.ReflTransGen Times p q) : p.Closes q ∧
    q.funcs.map (·.name) = p.funcs.map (·.name) ∧ ∀ name, q.isDeclared name = p.isDeclared name := by
  induction h with
  | refl => exact ⟨.refl p, rfl, fun _ => rfl⟩
  | @tail r q _ htime ih =>
    obtain ⟨l, func, u, slots, rfl⟩ := htime
    obtain ⟨hcloses, hnames, hdeclared⟩ := ih
    have hw := weaves_time l func ⟨r, u, slots⟩
    refine ⟨hcloses.trans (closes_time l func ⟨r, u, slots⟩), hw.names.trans hnames, ?_⟩
    intro name
    rw [isDeclared_of_names hw.decls hw.names, hdeclared]

/-- How a block is left that reports, after loops have been timed. -/
theorem Block.Closes.reported (h : (Report.insertInto u slots b).Closes c) (hret : b.isRet = true) :
    c.id = b.id ∧ c.jump = b.jump ∧ (b.Lacks u → c.body.getLast? = some (Report.call u slots)) ∧
      ∃ x ∈ c.body, x.callee? = some u.reportFn := by
  obtain ⟨x, hx, hcall⟩ := Report.exists_call_insertInto u slots hret
  have hcalls : ∃ x ∈ c.body, x.callee? = some u.reportFn := ⟨x, h.body.subset hx, hcall⟩
  have hid := h.id
  have hjump := h.jump
  rw [Report.insertInto_eq] at hid hjump
  refine ⟨hid, hjump, ?_, hcalls⟩
  intro hlacks
  apply h.last _ _ rfl
  rw [Report.insertInto, if_pos (Report.isMissing_iff.2 hlacks)]
  exact List.getLast?_concat

/-- How a function is left after its returns were made to report and loops have been timed. -/
theorem Func.Closes.reported
    (h : Func.Closes { f with blocks := f.blocks.map (Report.insertInto u slots) } g) : g.Reports u ∧
      List.Forall₂ (fun b c => c.id = b.id ∧ c.jump = b.jump ∧
        (b.Lacks u → c.body.getLast? = some (Report.call u slots))) f.returns g.returns := by
  rw [Func.Closes, Report.returns_insertInto, List.forall₂_map_left_iff] at h
  have hret : ∀ b ∈ f.returns, b.isRet = true := fun b hb => (List.mem_filter.1 hb).2
  have hreported := ((List.forall₂_and_left _ _).2 ⟨hret, h⟩).imp fun _ _ h => h.2.reported h.1
  constructor
  · have hcalls : List.Forall₂ (fun c _ => (∃ x ∈ c.body, x.callee? = some u.reportFn) ∧ True)
        g.returns f.returns := .flip (hreported.imp fun _ _ h => ⟨h.2.2.2, trivial⟩)
    exact ((List.forall₂_and_left _ _).1 hcalls).1
  · exact hreported.imp fun _ _ h => ⟨h.1, h.2.1, h.2.2.1⟩

/-- In a program that has the report routine and the entry function, just the first function of that name is
changed, and just by a call behind the instructions of each return that had none. Every return then has one,
and after any timers the calls put in still come last, so that nothing is left for another report. -/
theorem report_once_and_last (hd : p.isDeclared u.reportFn = true) (hf : p.func? entry = some f)
    (slots : Nat) : ∃ r i f',
      (Report.insert p u slots entry).val = (r, { p with funcs := p.funcs.set i f' }) ∧
      p.funcIdx? entry = some i ∧ f' = { f with blocks := f'.blocks } ∧
      List.Forall₂ (Block.Reports u slots) f.blocks f'.blocks ∧
      (r = .changed ↔ ∃ b ∈ f.blocks, b.Lacks u) ∧
      ∀ t, Relation.ReflTransGen Timer.Times { p with funcs := p.funcs.set i f' } t → ∃ g,
        t.func? entry = some g ∧ g.Reports u ∧
        List.Forall₂ (fun b c => c.id = b.id ∧ c.jump = b.jump ∧
          (b.Lacks u → c.body.getLast? = some (.call none .void u.reportFn
            [(.i64Ptr, .temp u.storage), (.i32, .int (Int32.ofNat slots))])))
          f.returns g.returns ∧
        ∀ n, (Report.insert t u n entry).val = (.noChange, t) := by
  obtain ⟨i, hi, hget⟩ := exists_funcIdx? hf
  let f' : Func := { f with blocks := f.blocks.map (Report.insertInto u slots) }
  let q : Program := { p with funcs := p.funcs.set i f' }
  have hval := Report.insert_eq hd hi hget slots
  have hw : p.Weaves u.Names q := by
    have hw := @Report.weaves_insert p u slots entry
    rwa [hval] at hw
  refine ⟨_, i, f', hval, hi, rfl, ?_, ?_, ?_⟩
  · rw [List.forall₂_map_right_iff]
    exact List.forall₂_same.2 fun b _ => Report.reports_insertInto u slots b
  · simp [PassResult.ofBool, ← Report.isMissing_iff]
  · intro t ht
    obtain ⟨hcloses, hnames, hdeclared⟩ := Timer.kept_of_times ht
    have hq : q.funcs[i]? = some f' := by
      obtain ⟨hlt, -⟩ := List.getElem?_eq_some_iff.1 hget
      simp [q, hlt]
    obtain ⟨g, hg, hfg⟩ := hcloses i f' hq
    have hgfunc : t.func? entry = some g := func?_of_names (hnames.trans hw.names) hi hg
    obtain ⟨hreports, hreported⟩ := hfg.reported
    refine ⟨g, hgfunc, hreports, hreported, ?_⟩
    have ht : t.isDeclared u.reportFn = true := by
      rw [hdeclared, isDeclared_of_names hw.decls hw.names, hd]
    exact Report.insert_of_reports ht hgfunc hreports

/-- `B5` reports and then gets the record of the loop of `B1`, whose five instructions stand in front. -/
theorem report_once_and_last_nested : ∃ (p t : Program) (f g : Func),
    p = { Source.nested with decls := [reportDecl {}] } ∧ p.isDeclared "__loopprof_report" = true ∧
      p.func? "main" = some f ∧
      Relation.ReflTransGen Timer.Times (Report.insert p (.ofConfig {} 1) 1 "main").val.2 t ∧
      t.func? "main" = some g ∧ (Report.insert t (.ofConfig {} 1) 2 "main").val = (.noChange, t) ∧
      (g.returns.map fun c => (c.id, c.body.length, c.body.getLast?)) =
        [(5, 6, some (.call none .void "__loopprof_report"
          [(.i64Ptr, .temp ⟨"__loopprof_elapsed", true, .i64Ptr⟩), (.i32, .int 1)]))] := by
  let p : Program := { Source.nested with decls := [reportDecl {}] }
  let u : Instrumentation := .ofConfig {} 1
  let l : Loop := ⟨0, ⟨0, 1⟩, [⟨0, 1⟩, ⟨0, 2⟩, ⟨0, 3⟩, ⟨0, 4⟩], none, [], 1⟩
  let t := (Timer.time l 0 ⟨(Report.insert p u 1 "main").val.2, u, 0⟩).val.2.program
  have hd : p.isDeclared u.reportFn = true := by decide +kernel
  have hmain : (p.func? "main").isSome = true := by decide +kernel
  obtain ⟨f, hf⟩ := Option.isSome_iff_exists.1 hmain
  have ht : Relation.ReflTransGen Timer.Times (Report.insert p u 1 "main").val.2 t :=
    .single ⟨l, 0, u, 0, rfl⟩
  obtain ⟨r, i, f', hval, -, -, -, -, hlater⟩ := report_once_and_last hd hf 1
  obtain ⟨g, hg, -, -, hagain⟩ := hlater t (by rwa [hval] at ht)
  have hreturns : (t.func? "main").map (fun g =>
      g.returns.map fun c => (c.id, c.body.length, c.body.getLast?)) =
        some [(5, 6, some (.call none .void "__loopprof_report"
          [(.i64Ptr, .temp ⟨"__loopprof_elapsed", true, .i64Ptr⟩), (.i32, .int 1)]))] := by
    decide +kernel
  rw [hg] at hreturns
  exact ⟨p, t, f, g, rfl, hd, hf, ht, hg, hagain 2, Option.some.inj hreturns⟩

end LoopClock
