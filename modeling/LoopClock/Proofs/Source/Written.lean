import LoopClock.Proofs.Source.Tokens
import LoopClock.Source.Resolve

/-! The statements and items that a program is written as, and what their spelling takes: names and
labels as the grammar has them, and no list that has to have members without any. -/
namespace LoopClock
open Source

/-- The left side of a statement: a local name. -/
structure Temp.IsLocal (t : Temp) : Prop where
  notGlobal : t.isGlobal = false
  named : IsName t.name

namespace Phi

def values (φ : Phi) : List Value := φ.source.map (·.1)

def statement (φ : Phi) : Statement :=
  .phi φ.target.name φ.target.ty (φ.source.map fun s => (s.1.operand, s.2))

structure IsSpelled (φ : Phi) : Prop where
  target : φ.target.IsLocal
  source : φ.source ≠ []
  named : ∀ v ∈ φ.values, v.IsNamed
  labels : ∀ s ∈ φ.source, s.2.IsSpelled

end Phi

namespace Instr

def values : Instr → List Value
  | arith _ _ _ lhs rhs => [lhs, rhs]
  | comp _ _ _ lhs rhs => [lhs, rhs]
  | alloca _ _ length => [length]
  | store value addr => [value, addr]
  | load _ _ addr => [addr]
  | gep _ _ addr offset => [addr, offset]
  | call _ _ _ args => args.map (·.2)

def statement : Instr → Statement
  | arith t op ty lhs rhs => .arith t.name op ty lhs.operand rhs.operand
  | comp t op ty lhs rhs => .comp t.name op ty lhs.operand rhs.operand
  | alloca t ty length => .alloca t.name ty length.typedOperand
  | store value addr => .store value.typedOperand addr.typedOperand
  | load t ty addr => .load t.name ty addr.typedOperand
  | gep t ty addr offset => .gep t.name ty addr.typedOperand offset.typedOperand
  | call t ty callee args => .call (t.map (·.name)) ty callee (args.map fun a => (a.1, a.2.operand))

structure IsSpelled (i : Instr) : Prop where
  target : ∀ t ∈ i.target?, t.IsLocal
  callee : ∀ f ∈ i.callee?, IsName f
  named : ∀ v ∈ i.values, v.IsNamed

end Instr

namespace Terminator

def values : Terminator → List Value
  | jump _ => []
  | branch _ cond _ _ => [cond]
  | ret value => value.toList

def statement : Terminator → Statement
  | jump l => .jump l
  | branch ty cond l m => .branch (ty, cond.operand) l m
  | ret (some v) => .ret v.typedOperand
  | ret none => .retVoid

/-- A value that is returned is not of type `void`, which stands for no value. -/
structure IsSpelled (t : Terminator) : Prop where
  labels : ∀ l ∈ t.targets, l.IsSpelled
  named : ∀ v ∈ t.values, v.IsNamed
  returns : ∀ v, t = ret (some v) → v.ty ≠ .void

end Terminator

namespace Source.Placed

def text : Placed → String
  | phi φ => φ.text
  | body i => i.text
  | last t => t.text

def values : Placed → List Value
  | phi φ => φ.values
  | body i => i.values
  | last t => t.values

def statement : Placed → Statement
  | phi φ => φ.statement
  | body i => i.statement
  | last t => t.statement

def IsSpelled : Placed → Prop
  | phi φ => φ.IsSpelled
  | body i => i.IsSpelled
  | last t => t.IsSpelled

end Source.Placed

namespace Block

def placed (b : Block) : List Placed :=
  b.phis.map .phi ++ b.body.map .body ++ b.jump.toList.map .last

def values (b : Block) : List Value := b.placed.flatMap Placed.values

def written (b : Block) : Section := ⟨b.label, b.placed.map Placed.statement⟩

structure IsSpelled (b : Block) : Prop where
  nonneg : 0 ≤ b.id
  ends : b.jump.isSome
  placed : ∀ x ∈ b.placed, x.IsSpelled

end Block

namespace Func

def values (f : Func) : List Value := f.blocks.flatMap Block.values

def item (f : Func) : Item :=
  .define f.ret f.name (f.params.map fun p => (p.ty, p.name)) (f.blocks.map Block.written)

structure IsSpelled (f : Func) : Prop where
  named : IsName f.name
  params : ∀ p ∈ f.params, p.IsLocal
  nonempty : f.blocks ≠ []
  blocks : ∀ b ∈ f.blocks, b.IsSpelled

theorem IsSpelled.isLocal {f : Func} (h : f.IsSpelled) : ∀ t ∈ f.writes, t.IsLocal := by
  refine List.forall_mem_append.2 ⟨h.params, fun t ht => ?_⟩
  obtain ⟨b, hb, ht⟩ := List.mem_flatMap.1 ht
  have hplaced := (h.blocks b hb).placed
  simp only [Block.placed, List.mem_append, List.mem_map] at hplaced
  rcases List.mem_append.1 ht with ht | ht
  · obtain ⟨φ, hφ, rfl⟩ := List.mem_map.1 ht
    have hspelled : φ.IsSpelled := hplaced (.phi φ) (.inl (.inl ⟨φ, hφ, rfl⟩))
    exact hspelled.target
  · obtain ⟨x, hx, hxt⟩ := List.mem_filterMap.1 ht
    have hspelled : x.IsSpelled := hplaced (.body x) (.inl (.inr ⟨x, hx, rfl⟩))
    exact hspelled.target t hxt

end Func

namespace Global

/-- The type of the words of a global. -/
def width (g : Global) : Ty := if g.bits = 64 then .i64 else .i32

def init (g : Global) : Init :=
  if !g.isArray then .scalar g.width (Numeral.nat g.scalarWord.toNat)
  else if g.isZeroed then .zeros (Numeral.nat g.len) g.width
  else .words (Numeral.nat g.len) g.width (g.words.map fun w => Numeral.nat w.toNat)

def item (g : Global) : Source.Item := .globalVar g.name g.init

structure IsSpelled (g : Global) : Prop where
  named : IsName g.name
  bits : g.bits = 32 ∨ g.bits = 64

theorem words_ne_nil {g : Global} (h : g.isZeroed = false) : g.words ≠ [] := by
  obtain ⟨i, hi, hz⟩ := List.all_eq_false.1 h
  cases i with
  | zeros n => exact absurd rfl hz
  | word w => exact List.ne_nil_of_mem (List.mem_flatMap.2 ⟨_, hi, List.mem_singleton.2 rfl⟩)

end Global

namespace Decl

/-- The parameters as they are written: that there may be more of them comes last. -/
def parameters (d : Decl) : List (Option Ty) :=
  d.params.map some ++ if d.isVariadic then [none] else []

def item (d : Decl) : Item := .declare d.ret d.name d.parameters

end Decl

/-- What a program consists of, in the order in which it is printed. -/
inductive Part where
  | decl (d : Decl)
  | global (g : Global)
  | func (f : Func)

namespace Part

def text : Part → String
  | decl d => d.text
  | global g => g.text
  | func f => f.text

def values : Part → List Value
  | func f => f.values
  | _ => []

def item : Part → Item
  | decl d => d.item
  | global g => g.item
  | func f => f.item

def IsSpelled : Part → Prop
  | decl d => IsName d.name
  | global g => g.IsSpelled
  | func f => f.IsSpelled

end Part

namespace Program

def parts (p : Program) : List Part :=
  p.decls.map .decl ++ p.globals.map .global ++ p.funcs.map .func

def items (p : Program) : List Item := p.parts.map Part.item

def IsSpelled (p : Program) : Prop := ∀ x ∈ p.parts, x.IsSpelled

/-- No float needs an exponent. -/
def IsPlain (p : Program) : Prop := ∀ x ∈ p.parts, ∀ v ∈ x.values, v.IsPlain

instance (p : Program) : Decidable p.IsPlain :=
  inferInstanceAs (Decidable (∀ x ∈ p.parts, ∀ v ∈ x.values, v.IsPlain))

end Program
end LoopClock
