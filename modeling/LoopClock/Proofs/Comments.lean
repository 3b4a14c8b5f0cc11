import LoopClock.Proofs.Source.Blind
import LoopClock.Proofs.Source.Outcomes
import LoopClock.Proofs.Source.Trees

/-! Comments and the spelling of newlines do not change what a text means: the grammar and with it the
program are blind to them. -/
namespace LoopClock.Source

namespace Grammar
open Matcher

/-! ## Names, numbers and types -/

theorem blind_name : Blind 1 Exact Exact name := (Blind.run (solid_iff.2 (by decide))).map

theorem blind_localName : Blind 1 Exact Exact localName :=
  ((Blind.word (by decide)).bind fun _ => blind_name.free).rule

theorem blind_globalName : Blind 1 Exact Exact globalName :=
  ((Blind.word (by decide)).bind fun _ => blind_name.free).rule

theorem blind_digits : Blind 1 Exact Exact digits := .run (solid_iff.2 (by decide))

theorem blind_sign : Blind 0 Exact Exact sign :=
  ((Blind.word (by decide)).optional id).bind fun _ => .pure _

theorem blind_intText : Blind 1 Exact Exact intText :=
  (blind_sign.after fun _ => blind_digits.bind fun _ => .pure _).rule

theorem blind_floatText : Blind 1 Exact Exact floatText :=
  (blind_sign.after fun _ => blind_digits.bind fun _ => (Blind.word (by decide)).free.bind fun _ =>
    blind_digits.free.bind fun _ => .pure _).rule

theorem blind_blockLabel : Blind 1 Exact Exact blockLabel := by
  apply Blind.rule
  apply Blind.choice
  simp only [List.mem_cons, List.not_mem_nil, or_false]
  rintro m (rfl | rfl)
  · exact (Blind.word (by decide)).bind fun _ => .pure _
  · exact (Blind.word (by decide)).bind fun _ => blind_digits.free.bind fun _ => .pure _

theorem blind_labelRef : Blind 1 Exact Exact labelRef :=
  ((Blind.word (by decide)).bind fun _ => blind_blockLabel.free).rule

theorem blind_scalarType {w : String} (hw : Plain w) (t : Ty) : Blind 1 Exact Exact (scalarType w t) :=
  (Blind.word hw).bind fun _ => ((Blind.word (by decide)).optional id).bind fun _ => .pure _

theorem blind_type : Blind 1 Exact Exact type := by
  apply Blind.rule
  apply Blind.choice
  simp only [List.mem_cons, List.not_mem_nil, or_false]
  rintro m (rfl | rfl | rfl | rfl)
  · exact blind_scalarType (by decide) _
  · exact blind_scalarType (by decide) _
  · exact blind_scalarType (by decide) _
  · exact (Blind.word (by decide)).bind fun _ => .pure _

theorem blind_operand : Blind 1 Exact Exact operand := by
  apply Blind.choice
  simp only [List.mem_cons, List.not_mem_nil, or_false]
  rintro m (rfl | rfl | rfl | rfl)
  · exact blind_localName.map
  · exact blind_globalName.map
  · exact blind_floatText.map
  · exact blind_intText.map

theorem blind_oneOf {α : Type} {text : α → String} {as : List α} (h : ∀ a ∈ as, Plain (text a)) :
    Blind 1 Exact Exact (oneOf text as) := by
  apply Blind.rule
  apply Blind.choice
  intro m hm
  obtain ⟨a, ha, rfl⟩ := List.mem_map.1 hm
  exact (Blind.word (h a ha)).bind fun _ => .pure a

theorem blind_arithOp : Blind 1 Exact Exact arithOp := blind_oneOf (by decide)

theorem blind_compOp : Blind 1 Exact Exact compOp := blind_oneOf (by decide)

/-! ## Parts of statements -/

/-- A word behind a gap. -/
theorem blind_mark {w : String} (hw : Plain w) : Blind 0 Loose Loose (gap (Matcher.word w)) :=
  (Blind.word hw).part.gap

theorem blind_typedOperand : Blind 1 Start Loose typedOperand :=
  blind_type.part.bind fun _ => blind_operand.part.gap.bind fun _ => .pure _

theorem blind_target : Blind 1 Start Loose target :=
  blind_localName.part.bind fun _ => (blind_mark (by decide)).bind fun _ => .pure _

theorem blind_comma : Blind 0 Loose Loose comma := blind_mark (by decide)

/-! ## Statements -/

theorem blind_arith : Blind 1 Start Loose arith :=
  .rule <| blind_target.bind fun _ => blind_arithOp.part.gap.bind fun _ =>
    blind_typedOperand.gap.bind fun _ => blind_comma.bind fun _ => blind_operand.part.gap.bind fun _ =>
      .pure _

theorem blind_comp : Blind 1 Start Loose comp :=
  .rule <| blind_target.bind fun _ => (blind_mark (by decide)).bind fun _ =>
    blind_compOp.part.gap.bind fun _ => blind_typedOperand.gap.bind fun _ => blind_comma.bind fun _ =>
      blind_operand.part.gap.bind fun _ => .pure _

theorem blind_phiSource : Blind 1 Start Loose phiSource :=
  .rule <| (Blind.word (by decide)).part.bind fun _ => blind_operand.part.gap.bind fun _ =>
    blind_comma.bind fun _ => blind_labelRef.part.gap.bind fun _ =>
      (blind_mark (by decide)).bind fun _ => .pure _

theorem blind_phi : Blind 1 Start Loose phi :=
  .rule <| blind_target.bind fun _ => (blind_mark (by decide)).bind fun _ =>
    blind_type.part.gap.bind fun _ => blind_phiSource.listed₁.gap.bind fun _ => .pure _

theorem blind_alloca : Blind 1 Start Loose alloca :=
  .rule <| blind_target.bind fun _ => (blind_mark (by decide)).bind fun _ =>
    blind_type.part.gap.bind fun _ => blind_comma.bind fun _ => blind_typedOperand.gap.bind fun _ => .pure _

theorem blind_load : Blind 1 Start Loose load :=
  .rule <| blind_target.bind fun _ => (blind_mark (by decide)).bind fun _ =>
    blind_type.part.gap.bind fun _ => blind_comma.bind fun _ => blind_typedOperand.gap.bind fun _ => .pure _

theorem blind_gep : Blind 1 Start Loose gep :=
  .rule <| blind_target.bind fun _ => (blind_mark (by decide)).bind fun _ =>
    blind_type.part.gap.bind fun _ => blind_comma.bind fun _ => blind_typedOperand.gap.bind fun _ =>
      blind_comma.bind fun _ => blind_typedOperand.gap.bind fun _ => .pure _

theorem blind_call : Blind 1 Start Loose call :=
  .rule <| (blind_target.optional Start.loose).after fun _ =>
    (Blind.word (by decide)).part.behind.bind fun _ => blind_type.part.gap.bind fun _ =>
      blind_globalName.part.gap.bind fun _ => blind_typedOperand.rule.parenthesized.gap.bind fun _ => .pure _

theorem blind_store : Blind 1 Start Loose store :=
  .rule <| (Blind.word (by decide)).part.bind fun _ => blind_typedOperand.gap.bind fun _ =>
    blind_comma.bind fun _ => blind_typedOperand.gap.bind fun _ => .pure _

theorem blind_jump : Blind 1 Start Loose jump :=
  .rule <| (Blind.word (by decide)).part.bind fun _ => (blind_mark (by decide)).bind fun _ =>
    blind_labelRef.part.gap.bind fun _ => .pure _

theorem blind_branch : Blind 1 Start Loose branch :=
  .rule <| (Blind.word (by decide)).part.bind fun _ => blind_typedOperand.gap.bind fun _ =>
    blind_comma.bind fun _ => (blind_mark (by decide)).bind fun _ => blind_labelRef.part.gap.bind fun _ =>
      blind_comma.bind fun _ => (blind_mark (by decide)).bind fun _ => blind_labelRef.part.gap.bind fun _ =>
        .pure _

theorem blind_ret : Blind 1 Start Loose ret := by
  apply Blind.rule
  apply (Blind.word (by decide)).part.bind
  intro _
  apply Blind.gap
  apply Blind.choice
  simp only [List.mem_cons, List.not_mem_nil, or_false]
  rintro m (rfl | rfl)
  · exact .rule <| (Blind.word (by decide)).part.bind fun _ => .pure _
  · exact blind_typedOperand.map

theorem blind_statement : Blind 1 Start Loose statement := by
  apply Blind.choice
  simp only [List.mem_cons, List.not_mem_nil, or_false]
  rintro m (rfl | rfl | rfl | rfl | rfl | rfl | rfl | rfl | rfl | rfl | rfl)
  · exact blind_arith
  · exact blind_comp
  · exact blind_phi
  · exact blind_alloca
  · exact blind_load
  · exact blind_gep
  · exact blind_call
  · exact blind_store
  · exact blind_jump
  · exact blind_branch
  · exact blind_ret

/-! ## Items -/

theorem blind_block : Blind 1 Start Loose block :=
  .rule <| blind_blockLabel.part.bind fun _ => (blind_mark (by decide)).bind fun _ =>
    Blind.newlines.gap.bind fun _ =>
      (blind_statement.bind fun _ => Blind.newlines.gap.bind fun _ => .pure _).spaced.gap.bind
        fun _ => .pure _

theorem blind_parameter : Blind 1 Start Loose parameter :=
  .rule <| blind_type.part.bind fun _ => blind_localName.part.gap.bind fun _ => .pure _

theorem blind_define : Blind 1 Start Loose define :=
  .rule <| (Blind.word (by decide)).part.bind fun _ => blind_type.part.gap.bind fun _ =>
    blind_globalName.part.gap.bind fun _ => blind_parameter.parenthesized.gap.bind fun _ =>
      (blind_mark (by decide)).bind fun _ => Blind.newlines.gap.bind fun _ =>
        blind_block.spaced₁.gap.bind fun _ => (blind_mark (by decide)).bind fun _ => .pure _

theorem blind_declParameter : Blind 1 Start Loose declParameter := by
  apply Blind.choice
  simp only [List.mem_cons, List.not_mem_nil, or_false]
  rintro m (rfl | rfl)
  · exact .rule <| (Blind.word (by decide)).part.bind fun _ => .pure _
  · exact blind_type.part.map

theorem blind_declare : Blind 1 Start Loose declare :=
  .rule <| (Blind.word (by decide)).part.bind fun _ => blind_type.part.gap.bind fun _ =>
    blind_globalName.part.gap.bind fun _ => blind_declParameter.parenthesized.gap.bind fun _ => .pure _

theorem blind_constant : Blind 1 Start Loose constant :=
  .rule <| blind_type.part.bind fun _ => blind_intText.part.gap.bind fun _ => .pure _

theorem blind_arrayInit : Blind 1 Start Loose arrayInit := by
  apply Blind.rule
  apply (Blind.word (by decide)).part.bind
  intro _
  apply blind_intText.part.gap.bind
  intro _
  apply (blind_mark (by decide)).bind
  intro _
  apply blind_type.part.gap.bind
  intro _
  apply (blind_mark (by decide)).bind
  intro _
  apply Blind.gap
  apply Blind.choice
  simp only [List.mem_cons, List.not_mem_nil, or_false]
  rintro m (rfl | rfl)
  · exact .rule <| (Blind.word (by decide)).part.bind fun _ => .pure _
  · exact (Blind.word (by decide)).part.bind fun _ => blind_constant.listed₁.gap.bind fun _ =>
      (blind_mark (by decide)).bind fun _ => .pure _

theorem blind_scalarInit : Blind 1 Start Loose scalarInit :=
  .rule <| blind_type.part.bind fun _ => blind_intText.part.gap.bind fun _ => .pure _

theorem blind_globalVariable : Blind 1 Start Loose globalVariable := by
  apply Blind.rule
  apply blind_globalName.part.bind
  intro _
  apply (blind_mark (by decide)).bind
  intro _
  apply (blind_mark (by decide)).bind
  intro _
  have hinit : Blind 1 Start Loose (choice [arrayInit, scalarInit]) := by
    apply Blind.choice
    simp only [List.mem_cons, List.not_mem_nil, or_false]
    rintro m (rfl | rfl)
    · exact blind_arrayInit
    · exact blind_scalarInit
  exact hinit.gap.bind fun _ => .pure _

theorem blind_item : Blind 1 Start Loose item := by
  apply Blind.choice
  simp only [List.mem_cons, List.not_mem_nil, or_false]
  rintro m (rfl | rfl | rfl)
  · exact blind_declare
  · exact blind_globalVariable
  · exact blind_define

/-- Newlines that need not be there. -/
theorem blind_lineEnds : Blind 0 Loose Loose (discard (gap (optional newlines))) :=
  (Blind.newlines.optional Start.loose).gap.map

theorem blind_program : Blind 0 Loose Loose program :=
  .rule <| blind_lineEnds.bind fun _ =>
    (blind_item.bind fun _ => blind_lineEnds.bind fun _ => .pure _).spaced.gap.bind fun _ =>
      Blind.endOfText.gap.bind fun _ => .pure _

end Grammar

/-! ## Programs -/

theorem tree_bare (s : List Char) (items : List Item) : tree (bare s) = .ok items ↔ tree s = .ok items := by
  have hloose : Matcher.Loose s (bare s) := Matcher.Exact.loose rfl
  rw [tree_eq_ok, tree_eq_ok]
  constructor
  · rintro ⟨u, hu⟩
    rcases Matcher.refuses_or_reads Grammar.program s with hno | ⟨items', r, hr⟩
    · exact absurd hu (Grammar.blind_program.refuses hloose hno).not_reads
    · obtain ⟨u', hu', -⟩ := Grammar.blind_program.reads hloose hr
      obtain ⟨rfl, -⟩ := hu.unique hu'
      exact ⟨r, hr⟩
  · rintro ⟨r, hr⟩
    obtain ⟨u, hu, -⟩ := Grammar.blind_program.reads hloose hr
    exact ⟨u, hu⟩

theorem parse_eq_ok_iff {text : String} {p : Program} :
    parse text = .ok p ↔ ∃ items, tree text.toList = .ok items ∧ program items = .ok p := by
  unfold parse
  simp only [bind_eq_ok, mapError_eq_ok]

theorem parse_fault_iff {text : String} {f : Fault} :
    parse text = .error (.fault f) ↔
      ∃ items, tree text.toList = .ok items ∧ program items = .error f := by
  unfold parse
  cases htree : tree text.toList with
  | error e =>
    have he : e ≠ .fault f := by
      rintro rfl
      unfold tree at htree
      split at htree <;> cases htree
    simpa [bind, Except.bind] using he
  | ok items => cases hitems : program items <;> simp [Except.mapError, hitems, bind, Except.bind]

/-- Two outcomes of reading are the same, except for where the grammar is blamed. -/
def Agree (x y : Except ParseError Program) : Prop :=
  (∀ p, x = .ok p ↔ y = .ok p) ∧ ∀ f, x = .error (.fault f) ↔ y = .error (.fault f)

theorem agree_of_bare {text other : String} (h : bare text.toList = bare other.toList) :
    Agree (parse text) (parse other) := by
  have htree : ∀ items, tree text.toList = .ok items ↔ tree other.toList = .ok items := by
    intro items
    rw [← tree_bare text.toList, ← tree_bare other.toList, h]
  constructor
  · intro p
    simp only [parse_eq_ok_iff, htree]
  · intro f
    simp only [parse_fault_iff, htree]

/-- A text means what it means without its comments, and what it means with line feeds for all newlines. -/
theorem parse_uncommented (text : String) :
    let plain := String.ofList (uncommented text.toList)
    let fed := String.ofList (lineFed plain.toList)
    Agree (parse text) (parse plain) ∧ Agree (parse plain) (parse fed) := by
  intro plain fed
  constructor
  · apply agree_of_bare
    simp [plain, bare_uncommented]
  · apply agree_of_bare
    simp [fed, bare_lineFed]

end LoopClock.Source
