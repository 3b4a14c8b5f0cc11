import LoopClock.Proofs.Source.Tokens

/-! What the grammar gives is spelled: names and labels are, no phi is without a value, and what a
function returns is not of type `void`. -/
namespace LoopClock.Source

def Operand.IsNamed : Operand → Prop
  | .localName n | .globalName n => IsName n
  | .float _ | .int _ => True

namespace Statement

def IsSpelled : Statement → Prop
  | arith t _ _ lhs rhs => IsName t ∧ lhs.IsNamed ∧ rhs.IsNamed
  | comp t _ _ lhs rhs => IsName t ∧ lhs.IsNamed ∧ rhs.IsNamed
  | phi t _ source => IsName t ∧ source ≠ [] ∧ ∀ s ∈ source, s.1.IsNamed ∧ s.2.IsSpelled
  | alloca t _ length => IsName t ∧ length.2.IsNamed
  | load t _ addr => IsName t ∧ addr.2.IsNamed
  | gep t _ addr offset => IsName t ∧ addr.2.IsNamed ∧ offset.2.IsNamed
  | call t _ callee args => (∀ n ∈ t, IsName n) ∧ IsName callee ∧ ∀ a ∈ args, a.2.IsNamed
  | store value addr => value.2.IsNamed ∧ addr.2.IsNamed
  | jump l => l.IsSpelled
  | branch cond l m => cond.2.IsNamed ∧ l.IsSpelled ∧ m.IsSpelled
  | retVoid => True
  | ret value => value.2.IsNamed ∧ value.1 ≠ .void

end Statement

def Init.IsSpelled : Init → Prop
  | .words _ _ values => values ≠ []
  | _ => True

def Item.IsSpelled : Item → Prop
  | .declare _ name _ => IsName name
  | .globalVar name init => IsName name ∧ init.IsSpelled
  | .define _ name params sections =>
    IsName name ∧ (∀ q ∈ params, IsName q.2) ∧ ∀ s ∈ sections, ∀ t ∈ s.statements, t.IsSpelled

namespace Grammar
open Matcher

variable {s r : List Char}

theorem gives_operand : Gives operand Operand.IsNamed := by
  refine .choice fun m hm => ?_
  simp only [List.mem_cons, List.not_mem_nil, or_false] at hm
  rcases hm with rfl | rfl | rfl | rfl
  · exact gives_localName.map fun _ h => h
  · exact gives_globalName.map fun _ h => h
  · exact (gives_true _).map fun _ _ => trivial
  · exact (gives_true _).map fun _ _ => trivial

theorem gives_typedOperand : Gives typedOperand fun v => v.2.IsNamed :=
  (gives_true _).bind fun _ _ => gives_operand.gap.bind fun _ h => .pure h

theorem gives_target : Gives target IsName :=
  gives_localName.bind fun _ h => (gives_true _).bind fun _ _ => .pure h

/-! ## Statements -/

theorem gives_arith : Gives arith Statement.IsSpelled :=
  .rule <| gives_target.bind fun _ ht => (gives_true _).bind fun _ _ =>
    gives_typedOperand.gap.bind fun _ hl => (gives_true _).bind fun _ _ =>
      gives_operand.gap.bind fun _ hr => .pure ⟨ht, hl, hr⟩

theorem gives_comp : Gives comp Statement.IsSpelled :=
  .rule <| gives_target.bind fun _ ht => (gives_true _).bind fun _ _ => (gives_true _).bind fun _ _ =>
    gives_typedOperand.gap.bind fun _ hl => (gives_true _).bind fun _ _ =>
      gives_operand.gap.bind fun _ hr => .pure ⟨ht, hl, hr⟩

theorem gives_phiSource : Gives phiSource fun s => s.1.IsNamed ∧ s.2.IsSpelled :=
  .rule <| (gives_true _).bind fun _ _ => gives_operand.gap.bind fun _ hv =>
    (gives_true _).bind fun _ _ => gives_labelRef.gap.bind fun _ hl =>
      (gives_true _).bind fun _ _ => .pure ⟨hv, hl⟩

theorem gives_phi : Gives phi Statement.IsSpelled :=
  .rule <| gives_target.bind fun _ ht => (gives_true _).bind fun _ _ => (gives_true _).bind fun _ _ =>
    gives_phiSource.listed₁.gap.bind fun _ hs => .pure ⟨ht, hs.1, hs.2⟩

theorem gives_alloca : Gives alloca Statement.IsSpelled :=
  .rule <| gives_target.bind fun _ ht => (gives_true _).bind fun _ _ => (gives_true _).bind fun _ _ =>
    (gives_true _).bind fun _ _ => gives_typedOperand.gap.bind fun _ hv => .pure ⟨ht, hv⟩

theorem gives_load : Gives load Statement.IsSpelled :=
  .rule <| gives_target.bind fun _ ht => (gives_true _).bind fun _ _ => (gives_true _).bind fun _ _ =>
    (gives_true _).bind fun _ _ => gives_typedOperand.gap.bind fun _ hv => .pure ⟨ht, hv⟩

theorem gives_gep : Gives gep Statement.IsSpelled :=
  .rule <| gives_target.bind fun _ ht => (gives_true _).bind fun _ _ => (gives_true _).bind fun _ _ =>
    (gives_true _).bind fun _ _ => gives_typedOperand.gap.bind fun _ ha =>
      (gives_true _).bind fun _ _ => gives_typedOperand.gap.bind fun _ ho => .pure ⟨ht, ha, ho⟩

theorem gives_call : Gives call Statement.IsSpelled :=
  .rule <| gives_target.optional.bind fun _ ht => (gives_true _).bind fun _ _ =>
    (gives_true _).bind fun _ _ => gives_globalName.gap.bind fun _ hf =>
      gives_typedOperand.rule.parenthesized.gap.bind fun _ ha => .pure ⟨ht, hf, ha⟩

theorem gives_store : Gives store Statement.IsSpelled :=
  .rule <| (gives_true _).bind fun _ _ => gives_typedOperand.gap.bind fun _ hv =>
    (gives_true _).bind fun _ _ => gives_typedOperand.gap.bind fun _ ha => .pure ⟨hv, ha⟩

theorem gives_jump : Gives jump Statement.IsSpelled :=
  .rule <| (gives_true _).bind fun _ _ => (gives_true _).bind fun _ _ =>
    gives_labelRef.gap.bind fun _ hl => .pure hl

theorem gives_branch : Gives branch Statement.IsSpelled :=
  .rule <| (gives_true _).bind fun _ _ => gives_typedOperand.gap.bind fun _ hc =>
    (gives_true _).bind fun _ _ => (gives_true _).bind fun _ _ =>
      gives_labelRef.gap.bind fun _ hl => (gives_true _).bind fun _ _ => (gives_true _).bind fun _ _ =>
        gives_labelRef.gap.bind fun _ hm => .pure ⟨hc, hl, hm⟩

/-- Only the word itself is read as the type `void`. -/
theorem reads_void (h : Reads type s .void r) : Reads (word "void") s () r := by
  have scalar : ∀ (w : String) (t : Ty), t ≠ .void → t.toPtr ≠ .void →
      Gives (scalarType w t) (· ≠ .void) := fun w t ht hp =>
    (gives_true _).bind fun _ _ => (gives_true _).bind fun o _ => .pure <| by
      split
      · exact hp
      · exact ht
  have h := (result_rule _ s).symm.trans h
  rcases reads_or_iff.1 h with h | ⟨-, h⟩
  · exact absurd rfl (scalar _ _ (by decide) (by decide) _ _ _ h)
  rcases reads_or_iff.1 h with h | ⟨-, h⟩
  · exact absurd rfl (scalar _ _ (by decide) (by decide) _ _ _ h)
  rcases reads_or_iff.1 h with h | ⟨-, h⟩
  · exact absurd rfl (scalar _ _ (by decide) (by decide) _ _ _ h)
  rcases reads_or_iff.1 h with h | ⟨-, h⟩
  · obtain ⟨⟨⟩, r', hw, hp⟩ := reads_bind_iff.1 h
    exact (reads_pure_iff.1 hp).2 ▸ hw
  · cases h

theorem gives_ret : Gives ret Statement.IsSpelled := by
  refine .rule <| (gives_true _).bind fun _ _ => Gives.gap fun s st r h => ?_
  rcases reads_or_iff.1 h with h | ⟨hvoid, h⟩
  · have hgives : Gives (rule do word "void"; return Statement.retVoid) Statement.IsSpelled :=
      .rule ((gives_true _).bind fun _ _ => .pure trivial)
    exact hgives s st r h
  rcases reads_or_iff.1 h with h | ⟨-, h⟩
  · obtain ⟨⟨ty, o⟩, r', hv, hp⟩ := reads_bind_iff.1 h
    obtain ⟨rfl, -⟩ := reads_pure_iff.1 hp
    refine ⟨gives_typedOperand s _ _ hv, ?_⟩
    rintro (rfl : ty = .void)
    obtain ⟨ty', r₁, hty, hv⟩ := reads_bind_iff.1 hv
    obtain ⟨o', r₂, ho, hv⟩ := reads_bind_iff.1 hv
    obtain ⟨heq, -⟩ := reads_pure_iff.1 hv
    obtain ⟨rfl, rfl⟩ := Prod.mk.inj heq
    exact hvoid.not_reads (.rule (.bind (reads_void hty) (.pure _ _)))
  · cases h

theorem gives_statement : Gives statement Statement.IsSpelled := by
  refine .choice fun m hm => ?_
  simp only [List.mem_cons, List.not_mem_nil, or_false] at hm
  rcases hm with rfl | rfl | rfl | rfl | rfl | rfl | rfl | rfl | rfl | rfl | rfl
  · exact gives_arith
  · exact gives_comp
  · exact gives_phi
  · exact gives_alloca
  · exact gives_load
  · exact gives_gep
  · exact gives_call
  · exact gives_store
  · exact gives_jump
  · exact gives_branch
  · exact gives_ret

/-! ## Items -/

theorem gives_block : Gives block fun s => ∀ t ∈ s.statements, t.IsSpelled :=
  .rule <| (gives_true _).bind fun _ _ => (gives_true _).bind fun _ _ => (gives_true _).bind fun _ _ =>
    (gives_statement.bind fun _ h => (gives_true _).bind fun _ _ => .pure h).spaced.gap.bind
      fun _ h => .pure h

theorem gives_parameter : Gives parameter fun q => IsName q.2 :=
  .rule <| (gives_true _).bind fun _ _ => gives_localName.gap.bind fun _ h => .pure h

theorem gives_init : Gives (choice [arrayInit, scalarInit]) Init.IsSpelled := by
  have hzeros (len : String) (ty : Ty) :
      Gives (rule do word "zeroinitializer"; return Init.zeros len ty) Init.IsSpelled :=
    .rule <| (gives_true _).bind fun _ _ => .pure trivial
  have hwords (len : String) (ty : Ty) : Gives (do
      word "["
      let words ← gap (listed₁ constant)
      gap (word "]")
      return Init.words len ty (words.map (·.2))) Init.IsSpelled :=
    (gives_true _).bind fun _ _ => (gives_true constant).listed₁.gap.bind fun _ h =>
      (gives_true _).bind fun _ _ => .pure (List.map_eq_nil_iff.not.2 h.1)
  refine .choice fun m hm => ?_
  simp only [List.mem_cons, List.not_mem_nil, or_false] at hm
  rcases hm with rfl | rfl
  · refine .rule <| (gives_true _).bind fun _ _ => (gives_true _).bind fun len _ =>
      (gives_true _).bind fun _ _ => (gives_true _).bind fun ty _ => (gives_true _).bind fun _ _ =>
        Gives.gap (.choice fun m hm => ?_)
    simp only [List.mem_cons, List.not_mem_nil, or_false] at hm
    rcases hm with rfl | rfl
    · exact hzeros len ty
    · exact hwords len ty
  · exact .rule <| (gives_true _).bind fun _ _ => (gives_true _).bind fun _ _ => .pure trivial

theorem gives_item : Gives item Item.IsSpelled := by
  refine .choice fun m hm => ?_
  simp only [List.mem_cons, List.not_mem_nil, or_false] at hm
  rcases hm with rfl | rfl | rfl
  · exact .rule <| (gives_true _).bind fun _ _ => (gives_true _).bind fun _ _ =>
      gives_globalName.gap.bind fun _ hn => (gives_true _).bind fun _ _ => .pure hn
  · exact .rule <| gives_globalName.bind fun _ hn => (gives_true _).bind fun _ _ =>
      (gives_true _).bind fun _ _ => gives_init.gap.bind fun _ hi => .pure ⟨hn, hi⟩
  · exact .rule <| (gives_true _).bind fun _ _ => (gives_true _).bind fun _ _ =>
      gives_globalName.gap.bind fun _ hn => gives_parameter.parenthesized.gap.bind fun _ hp =>
        (gives_true _).bind fun _ _ => (gives_true _).bind fun _ _ =>
          gives_block.spaced₁.gap.bind fun _ hs => (gives_true _).bind fun _ _ => .pure ⟨hn, hp, hs.2⟩

theorem gives_program : Gives program fun is => ∀ i ∈ is, i.IsSpelled :=
  .rule <| (gives_true _).bind fun _ _ =>
    (gives_item.bind fun _ h => (gives_true _).bind fun _ _ => .pure h).spaced.gap.bind
      fun _ h => (gives_true _).bind fun _ _ => .pure h

end Grammar
end LoopClock.Source
