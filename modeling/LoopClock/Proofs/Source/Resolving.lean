import LoopClock.Proofs.Program.Targets
import LoopClock.Proofs.Source.Outcomes
import LoopClock.Proofs.Source.Spelling
import LoopClock.Proofs.Source.Written

/-! Values and statements that are read from their own text. A value keeps its type, also where the
type of its operation is written in its place; an address that is computed is given the type of
the value it is computed from. -/
namespace LoopClock
open Source

namespace Numeral

theorem signed?_ofInt (i : Int) : signed? (ofInt i) = some i := by
  cases i with
  | ofNat n => exact signed?_ofNat n
  | negSucc n =>
    show (toNat? (ofNat (n + 1))).map (fun n => -Int.ofNat n) = _
    rw [toNat?_ofNat]
    rfl

theorem int64?_ofInt {i : Int} (h : fits64 i = true) : int64? (ofInt i) = some i := by
  simp [int64?, signed?_ofInt, h]

end Numeral

namespace Value

/-- Where `ty` is written in front of a value, the value is one of those that can stand there. -/
def Under (ty : Ty) : Value → Prop
  | int _ => ty ≠ .i64
  | long _ => ty = .i64
  | float _ => True
  | temp t => t.ty = ty

theorem under_ty (v : Value) : v.Under v.ty := by
  cases v with
  | int v => exact fun h => nomatch h
  | _ => trivial

/-- A value as it is read from its text. -/
def reread : Value → Value
  | float x => float ((Single.read? x.text.toList).getD x)
  | v => v

theorem temp?_reread (v : Value) : v.reread.temp? = v.temp? := by cases v <;> rfl

end Value

namespace Phi

def Typed (φ : Phi) : Prop := ∀ v ∈ φ.values, v.Under φ.target.ty

def reread (φ : Phi) : Phi := { φ with source := φ.source.map fun s => (s.1.reread, s.2) }

end Phi

namespace Instr

/-- The type of the result is the one that the operation and its operands give it, but for computed
addresses, and the operands can stand behind the type that is written in front of them. -/
def Typed : Instr → Prop
  | arith t _ ty lhs rhs => t.ty = ty ∧ lhs.Under ty ∧ rhs.Under ty
  | comp t _ ty lhs rhs => t.ty = .i32 ∧ lhs.Under ty ∧ rhs.Under ty
  | alloca t ty _ => t.ty = ty.toPtr
  | load t ty _ => t.ty = ty
  | call t ty _ args => (∀ u ∈ t, u.ty = ty) ∧ ∀ a ∈ args, a.2.Under a.1
  | store .. | gep .. => True

/-- An instruction as it is read from its text. -/
def reread : Instr → Instr
  | arith t op ty lhs rhs => arith t op ty lhs.reread rhs.reread
  | comp t op ty lhs rhs => comp t op ty lhs.reread rhs.reread
  | alloca t ty length => alloca t ty length.reread
  | store value addr => store value.reread addr.reread
  | load t ty addr => load t ty addr.reread
  | gep t ty addr offset => gep { t with ty := addr.ty } ty addr.reread offset.reread
  | call t ty callee args => call t ty callee (args.map fun a => (a.1, a.2.reread))

end Instr

namespace Terminator

def Typed : Terminator → Prop
  | branch ty cond _ _ => cond.Under ty
  | _ => True

def reread : Terminator → Terminator
  | jump l => jump l
  | branch ty cond l m => branch ty cond.reread l m
  | ret value => ret (value.map Value.reread)

end Terminator

namespace Source

/-! ## Values -/

theorem integer_int {i : Int} (h : Numeral.fits64 i = true) : integer (Numeral.int i) = .ok i := by
  simp [integer, Numeral.int, Numeral.int64?_ofInt h]

theorem integer_nat {n : Nat} {i : Int} :
    integer (Numeral.nat n) = .ok i ↔ n < 0x8000000000000000 ∧ i = n := by
  have hread : Numeral.int64? (Numeral.ofNat n) =
      if n < 0x8000000000000000 then some (n : Int) else none := by
    rw [Numeral.int64?, Numeral.signed?_ofNat, Option.filter_some]
    refine if_congr ?_ rfl rfl
    simp only [Numeral.fits64, Bool.and_eq_true, decide_eq_true_eq]
    omega
  rw [integer, Numeral.nat, String.toList_ofList, hread]
  split
  · next h =>
    split at h
    · next hn => simp [hn, ← Option.some.inj h, eq_comm]
    · cases h
  · next h =>
    split at h
    · cases h
    · next hn => simp [hn]

theorem under_of_value {ty : Ty} {o : Operand} {v : Value} (ho : o.IsNamed)
    (h : value ty o = .ok v) : v.IsNamed ∧ v.Under ty := by
  cases o with
  | localName n =>
    obtain rfl := Except.ok.inj h
    exact ⟨fun t ht => Option.some.inj ht ▸ ho, rfl⟩
  | globalName n =>
    obtain rfl := Except.ok.inj h
    exact ⟨fun t ht => Option.some.inj ht ▸ ho, rfl⟩
  | float text =>
    rw [value] at h
    split at h
    · obtain rfl := Except.ok.inj h
      exact ⟨fun t ht => (nomatch ht), trivial⟩
    · cases h
  | int text =>
    obtain ⟨i, _, h⟩ := bind_eq_ok.1 h
    split at h
    · next hty =>
      obtain rfl := pure_eq_ok.1 h
      exact ⟨fun t ht => (nomatch ht), hty⟩
    · next hty =>
      split at h
      · obtain rfl := pure_eq_ok.1 h
        exact ⟨fun t ht => (nomatch ht), hty⟩
      · cases h

theorem value_operand {ty : Ty} {v : Value} (hu : v.Under ty) (hp : v.IsPlain) :
    value ty v.operand = .ok v.reread := by
  cases v with
  | int v =>
    have hlo := v.le_toInt
    have hhi := v.toInt_lt
    have h64 : Numeral.fits64 v.toInt = true := by
      simp only [Numeral.fits64, Bool.and_eq_true, decide_eq_true_eq]
      omega
    have h32 : Numeral.fits32 v.toInt = true := by
      simp only [Numeral.fits32, Bool.and_eq_true, decide_eq_true_eq]
      omega
    show constantInt ty (Numeral.int v.toInt) = _
    rw [constantInt, integer_int h64]
    show (if ty = .i64 then _ else _) = _
    rw [if_neg hu, if_pos h32, Int32.ofInt_toInt]
    rfl
  | long v =>
    have hlo := v.le_toInt
    have hhi := v.toInt_lt
    have h64 : Numeral.fits64 v.toInt = true := by
      simp only [Numeral.fits64, Bool.and_eq_true, decide_eq_true_eq]
      omega
    show constantInt ty (Numeral.int v.toInt) = _
    rw [constantInt, integer_int h64]
    show (if ty = .i64 then _ else _) = _
    rw [if_pos (show ty = .i64 from hu), Int64.ofInt_toInt]
    rfl
  | float x =>
    obtain ⟨y, hy⟩ := Single.exists_read (x := x) hp
    rw [Value.operand, value, hy, Value.reread, hy]
    rfl
  | temp t =>
    obtain ⟨n, isGlobal, ty'⟩ := t
    obtain rfl : ty' = ty := hu
    cases isGlobal <;> rfl

theorem typedValue_operand {v : Value} (hp : v.IsPlain) :
    typedValue v.typedOperand = .ok v.reread :=
  value_operand v.under_ty hp

/-! ## Statements -/

theorem isLocal_localTemp {n : String} (h : IsName n) (ty : Ty) : (localTemp n ty).IsLocal := ⟨rfl, h⟩

theorem localTemp_eq {t : Temp} (h : t.IsLocal) : localTemp t.name t.ty = t := by
  obtain ⟨n, isGlobal, ty⟩ := t
  rw [localTemp, ← show isGlobal = false from h.notGlobal]

namespace Placed

def Typed : Placed → Prop
  | phi φ => φ.Typed
  | body i => i.Typed
  | last t => t.Typed

def reread : Placed → Placed
  | phi φ => phi φ.reread
  | body i => body i.reread
  | last t => last t.reread

end Placed

private theorem spelled_of_source {ty : Ty} {source : List (Operand × Label)}
    {values : List (Value × Label)} (hs : ∀ s ∈ source, s.1.IsNamed ∧ s.2.IsSpelled)
    (h : List.Forall₂ (fun s v => (do return (← value ty s.1, s.2) : Except Fault (Value × Label)) =
      .ok v) source values) :
    ∀ v ∈ values, v.1.IsNamed ∧ v.1.Under ty ∧ v.2.IsSpelled := by
  induction h with
  | nil => exact fun _ hv => nomatch hv
  | cons h _ ih =>
    obtain ⟨hs, hrest⟩ := List.forall_mem_cons.1 hs
    obtain ⟨v, hv, h⟩ := bind_eq_ok.1 h
    obtain rfl := pure_eq_ok.1 h
    obtain ⟨hn, hu⟩ := under_of_value hs.1 hv
    exact List.forall_mem_cons.2 ⟨⟨hn, hu, hs.2⟩, ih hrest⟩

private theorem spelled_of_args {args : List TypedOperand} {values : List (Ty × Value)}
    (hs : ∀ a ∈ args, a.2.IsNamed)
    (h : List.Forall₂ (fun a v => (do return (a.1, ← typedValue a) : Except Fault (Ty × Value)) =
      .ok v) args values) :
    ∀ v ∈ values, v.2.IsNamed ∧ v.2.Under v.1 := by
  induction h with
  | nil => exact fun _ hv => nomatch hv
  | cons h _ ih =>
    obtain ⟨hs, hrest⟩ := List.forall_mem_cons.1 hs
    obtain ⟨v, hv, h⟩ := bind_eq_ok.1 h
    obtain rfl := pure_eq_ok.1 h
    exact List.forall_mem_cons.2 ⟨under_of_value hs hv, ih hrest⟩

private theorem under_of_return {α : Type} {ty : Ty} {o : Operand} {f : Value → α} {x : α}
    (ho : o.IsNamed) (h : (do return f (← value ty o) : Except Fault α) = .ok x) :
    ∃ v : Value, v.IsNamed ∧ v.Under ty ∧ f v = x := by
  obtain ⟨v, hv, h⟩ := bind_eq_ok.1 h
  obtain ⟨hn, hu⟩ := under_of_value ho hv
  exact ⟨v, hn, hu, pure_eq_ok.1 h⟩

private theorem under_of_return₂ {α : Type} {ty ty' : Ty} {o o' : Operand} {f : Value → Value → α}
    {x : α} (ho : o.IsNamed) (ho' : o'.IsNamed)
    (h : (do return f (← value ty o) (← value ty' o') : Except Fault α) = .ok x) :
    ∃ v w : Value, (v.IsNamed ∧ v.Under ty) ∧ (w.IsNamed ∧ w.Under ty') ∧ f v w = x := by
  obtain ⟨v, hv, h⟩ := bind_eq_ok.1 h
  obtain ⟨w, hn, hu, h⟩ := under_of_return ho' h
  exact ⟨v, w, under_of_value ho hv, ⟨hn, hu⟩, h⟩

/-- An instruction is spelled that leaves its result in a named temporary of its function, and is not
a call. -/
private theorem isSpelled_of_target {i : Instr} {n : String} {ty : Ty} (hn : IsName n)
    (ht : i.target? = some (localTemp n ty)) (hc : i.callee? = none)
    (hv : ∀ v ∈ i.values, v.IsNamed) : i.IsSpelled where
  target _ hu := Option.some.inj (ht.symm.trans hu) ▸ isLocal_localTemp hn ty
  callee _ hf := nomatch hc.symm.trans hf
  named := hv

/-- What is read from spelled statements is spelled, and typed. -/
theorem spelled_of_placed {st : Statement} {x : Placed} (hs : st.IsSpelled)
    (h : placed st = .ok x) : x.IsSpelled ∧ x.Typed := by
  cases st with
  | arith t op ty lhs rhs =>
    obtain ⟨ht, hl, hr⟩ := hs
    obtain ⟨l, r, ⟨hln, hlu⟩, ⟨hrn, hru⟩, rfl⟩ := under_of_return₂ hl hr h
    refine ⟨isSpelled_of_target ht rfl rfl ?_, rfl, hlu, hru⟩
    simpa [Instr.values] using ⟨hln, hrn⟩
  | comp t op ty lhs rhs =>
    obtain ⟨ht, hl, hr⟩ := hs
    obtain ⟨l, r, ⟨hln, hlu⟩, ⟨hrn, hru⟩, rfl⟩ := under_of_return₂ hl hr h
    refine ⟨isSpelled_of_target ht rfl rfl ?_, rfl, hlu, hru⟩
    simpa [Instr.values] using ⟨hln, hrn⟩
  | phi t ty source =>
    obtain ⟨ht, hne, hsource⟩ := hs
    obtain ⟨values, hv, h⟩ := bind_eq_ok.1 h
    obtain rfl := pure_eq_ok.1 h
    have hf := mapM_ok hv
    have hall := spelled_of_source hsource hf
    have hvalues : ∀ v ∈ values.map (·.1), v.IsNamed ∧ v.Under ty := by
      intro v hv
      obtain ⟨s, hs, rfl⟩ := List.mem_map.1 hv
      exact ⟨(hall s hs).1, (hall s hs).2.1⟩
    refine ⟨⟨isLocal_localTemp ht ty, ?_, fun v hv => (hvalues v hv).1, fun s hs => (hall s hs).2.2⟩,
      fun v hv => (hvalues v hv).2⟩
    rintro rfl
    exact hne (List.forall₂_nil_right_iff.1 hf)
  | alloca t ty length =>
    obtain ⟨ht, hv⟩ := hs
    obtain ⟨v, hn, -, rfl⟩ := under_of_return hv h
    exact ⟨isSpelled_of_target ht rfl rfl (by simpa [Instr.values] using hn), rfl⟩
  | load t ty addr =>
    obtain ⟨ht, hv⟩ := hs
    obtain ⟨v, hn, -, rfl⟩ := under_of_return hv h
    exact ⟨isSpelled_of_target ht rfl rfl (by simpa [Instr.values] using hn), rfl⟩
  | gep t ty addr offset =>
    obtain ⟨ht, ha, ho⟩ := hs
    obtain ⟨a, o, ⟨han, -⟩, ⟨hon, -⟩, rfl⟩ := under_of_return₂ ha ho h
    exact ⟨isSpelled_of_target ht rfl rfl (by simpa [Instr.values] using ⟨han, hon⟩), trivial⟩
  | call t ty callee args =>
    obtain ⟨ht, hf, ha⟩ := hs
    obtain ⟨values, hv, h⟩ := bind_eq_ok.1 h
    obtain rfl := pure_eq_ok.1 h
    have hall := spelled_of_args ha (mapM_ok hv)
    refine ⟨⟨?_, fun f h => Option.some.inj h ▸ hf, ?_⟩, ?_, fun a ha => (hall a ha).2⟩
    · intro u hu
      obtain ⟨n, hn, rfl⟩ := Option.map_eq_some_iff.1 hu
      exact isLocal_localTemp (ht n hn) ty
    · intro v hv
      obtain ⟨a, ha, rfl⟩ := List.mem_map.1 hv
      exact (hall a ha).1
    · intro u hu
      obtain ⟨n, hn, rfl⟩ := Option.map_eq_some_iff.1 hu
      rfl
  | store value addr =>
    obtain ⟨hv, ha⟩ := hs
    obtain ⟨v, a, ⟨hvn, -⟩, ⟨han, -⟩, rfl⟩ := under_of_return₂ hv ha h
    exact ⟨⟨fun _ h => (nomatch h), fun _ h => (nomatch h), by simpa [Instr.values] using ⟨hvn, han⟩⟩,
      trivial⟩
  | jump l =>
    obtain rfl := Except.ok.inj h
    refine ⟨⟨fun k hk => ?_, fun _ h => (nomatch h), fun _ h => (nomatch h)⟩, trivial⟩
    obtain rfl := List.mem_singleton.1 hk
    exact hs
  | branch cond l m =>
    obtain ⟨hc, hl, hm⟩ := hs
    obtain ⟨v, hn, hu, rfl⟩ := under_of_return hc h
    refine ⟨⟨fun k hk => ?_, by simpa [Terminator.values] using hn, fun _ h => (nomatch h)⟩, hu⟩
    rcases Terminator.mem_targets_branch.1 hk with rfl | rfl
    · exact hl
    · exact hm
  | retVoid =>
    obtain rfl := Except.ok.inj h
    exact ⟨⟨fun _ h => (nomatch h), fun _ h => (nomatch h), fun _ h => (nomatch h)⟩, trivial⟩
  | ret value =>
    obtain ⟨hv, hty⟩ := hs
    obtain ⟨v, hn, hu, rfl⟩ := under_of_return hv h
    refine ⟨⟨fun _ h => (nomatch h), by simpa [Terminator.values] using hn, fun w hw => ?_⟩, trivial⟩
    obtain rfl : v = w := by simpa using hw
    cases v with
    | temp t => exact fun h => hty ((show t.ty = value.1 from hu) ▸ h)
    | _ => exact fun h => nomatch h

private theorem placed_phi {φ : Phi} (hs : φ.IsSpelled) (ht : φ.Typed)
    (hr : ∀ v ∈ φ.values, v.IsPlain) : placed φ.statement = .ok (.phi φ.reread) := by
  have hsource : (φ.source.map fun s => (s.1.operand, s.2)).mapM
      (fun s => (do return (← value φ.target.ty s.1, s.2) : Except Fault (Value × Label))) =
        .ok (φ.source.map fun s => (s.1.reread, s.2)) := by
    refine mapM_map_ok fun s hs => ?_
    have hv := List.mem_map_of_mem (f := (·.1)) hs
    rw [value_operand (ht s.1 hv) (hr s.1 hv)]
    rfl
  rw [Phi.statement, placed, hsource]
  show Except.ok (Placed.phi ⟨localTemp φ.target.name φ.target.ty, _⟩) = _
  rw [localTemp_eq hs.target]
  rfl

private theorem placed_instr {i : Instr} (hs : i.IsSpelled) (ht : i.Typed)
    (hr : ∀ v ∈ i.values, v.IsPlain) : placed i.statement = .ok (.body i.reread) := by
  have htarget := hs.target
  cases i with
  | arith t op ty lhs rhs =>
    obtain ⟨rfl, hl, hu⟩ := ht
    rw [Instr.statement, placed, value_operand hl (hr lhs (by simp [Instr.values])),
      value_operand hu (hr rhs (by simp [Instr.values])), localTemp_eq (htarget t rfl)]
    rfl
  | comp t op ty lhs rhs =>
    obtain ⟨hty, hl, hu⟩ := ht
    rw [Instr.statement, placed, value_operand hl (hr lhs (by simp [Instr.values])),
      value_operand hu (hr rhs (by simp [Instr.values])), ← hty, localTemp_eq (htarget t rfl)]
    rfl
  | alloca t ty length =>
    have hty : t.ty = ty.toPtr := ht
    rw [Instr.statement, placed, typedValue_operand (hr length (by simp [Instr.values])), ← hty,
      localTemp_eq (htarget t rfl)]
    rfl
  | store value addr =>
    rw [Instr.statement, placed, typedValue_operand (hr value (by simp [Instr.values])),
      typedValue_operand (hr addr (by simp [Instr.values]))]
    rfl
  | load t ty addr =>
    obtain rfl : t.ty = ty := ht
    rw [Instr.statement, placed, typedValue_operand (hr addr (by simp [Instr.values])),
      localTemp_eq (htarget t rfl)]
    rfl
  | gep t ty addr offset =>
    have hlocal : localTemp t.name addr.ty = { t with ty := addr.ty } :=
      localTemp_eq (t := { t with ty := addr.ty }) ⟨(htarget t rfl).notGlobal, (htarget t rfl).named⟩
    rw [Instr.statement, placed, typedValue_operand (hr addr (by simp [Instr.values])),
      typedValue_operand (hr offset (by simp [Instr.values]))]
    show Except.ok (Placed.body (.gep (localTemp t.name addr.ty) ty addr.reread offset.reread)) = _
    rw [hlocal]
    rfl
  | call t ty callee args =>
    obtain ⟨hty, hu⟩ := ht
    have hargs : (args.map fun a => (a.1, a.2.operand)).mapM
        (fun a => (do return (a.1, ← typedValue a) : Except Fault (Ty × Value))) =
          .ok (args.map fun a => (a.1, a.2.reread)) := by
      refine mapM_map_ok fun a ha => ?_
      have hv : typedValue (a.1, a.2.operand) = .ok a.2.reread :=
        value_operand (hu a ha) (hr a.2 (List.mem_map_of_mem ha))
      rw [hv]
      rfl
    have hlocal : (t.map (·.name)).map (localTemp · ty) = t := by
      cases t with
      | none => rfl
      | some t =>
        obtain rfl : t.ty = ty := hty t rfl
        exact congrArg some (localTemp_eq (htarget t rfl))
    rw [Instr.statement, placed, hargs, hlocal]
    rfl

private theorem placed_terminator {t : Terminator} (ht : t.Typed)
    (hr : ∀ v ∈ t.values, v.IsPlain) : placed t.statement = .ok (.last t.reread) := by
  match t with
  | .jump l => rfl
  | .branch ty cond l m =>
    have hc : typedValue (ty, cond.operand) = .ok cond.reread :=
      value_operand ht (hr cond (by simp [Terminator.values]))
    rw [Terminator.statement, placed, hc]
    rfl
  | .ret none => rfl
  | .ret (some v) =>
    rw [Terminator.statement, placed, typedValue_operand (hr v (by simp [Terminator.values]))]
    rfl

theorem placed_statement {x : Placed} (hs : x.IsSpelled) (ht : x.Typed)
    (hr : ∀ v ∈ x.values, v.IsPlain) : placed x.statement = .ok x.reread := by
  cases x with
  | phi φ => exact placed_phi hs ht hr
  | body i => exact placed_instr hs ht hr
  | last t => exact placed_terminator ht hr

end Source
end LoopClock
