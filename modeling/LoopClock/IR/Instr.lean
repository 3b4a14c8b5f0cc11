import LoopClock.IR.Label
import LoopClock.IR.Value

/-! Instructions. Phis, ordinary instructions and terminators are kept apart, since a block has
one list of each of the first two and at most one of the last. -/
namespace LoopClock

def joined (separator : String) : List String → String
  | [] => ""
  | s :: r => r.foldl (fun text t => text ++ separator ++ t) s

inductive ArithOp where
  | add
  | sub
  | mul
  | sdiv
  | srem
  | fadd
  | fsub
  | fmul
  | fdiv
  deriving DecidableEq, Repr

inductive CompOp where
  | eq
  | ne
  | sgt
  | sge
  | slt
  | sle
  deriving DecidableEq, Repr

def ArithOp.text : ArithOp → String
  | add => "add"
  | sub => "sub"
  | mul => "mul"
  | sdiv => "sdiv"
  | srem => "srem"
  | fadd => "fadd"
  | fsub => "fsub"
  | fmul => "fmul"
  | fdiv => "fdiv"

def CompOp.text : CompOp → String
  | eq => "eq"
  | ne => "ne"
  | sgt => "sgt"
  | sge => "sge"
  | slt => "slt"
  | sle => "sle"

def typed (v : Value) : String := v.ty.text ++ " " ++ v.text

def temps (vs : List Value) : List Temp := vs.filterMap Value.temp?

/-- A value for each predecessor, chosen on the edge by which the block is entered. -/
structure Phi where
  target : Temp
  source : List (Value × Label)
  deriving DecidableEq

namespace Phi

def reads (p : Phi) : List Temp := temps (p.source.map (·.1))

def text (p : Phi) : String :=
  p.target.text ++ " = phi " ++ p.target.ty.text ++ " "
    ++ joined ", " (p.source.map fun s => "[" ++ s.1.text ++ ", %" ++ s.2 ++ "]")

end Phi

inductive Instr where
  | arith (target : Temp) (op : ArithOp) (ty : Ty) (lhs rhs : Value)
  | comp (target : Temp) (op : CompOp) (ty : Ty) (lhs rhs : Value)
  | alloca (target : Temp) (ty : Ty) (length : Value)
  | store (value addr : Value)
  | load (target : Temp) (ty : Ty) (addr : Value)
  | gep (target : Temp) (ty : Ty) (addr offset : Value)
  | call (target : Option Temp) (ty : Ty) (callee : String) (args : List (Ty × Value))
  deriving DecidableEq

namespace Instr

def reads : Instr → List Temp
  | arith _ _ _ lhs rhs => temps [lhs, rhs]
  | comp _ _ _ lhs rhs => temps [lhs, rhs]
  | alloca _ _ length => temps [length]
  | store value addr => temps [value, addr]
  | load _ _ addr => temps [addr]
  | gep _ _ addr offset => temps [addr, offset]
  | call _ _ _ args => temps (args.map (·.2))

def target? : Instr → Option Temp
  | arith t .. | comp t .. | alloca t .. | load t .. | gep t .. => some t
  | store .. => none
  | call t .. => t

def callee? : Instr → Option String
  | call _ _ callee _ => some callee
  | _ => none

def isAlloca : Instr → Bool
  | alloca .. => true
  | _ => false

def text : Instr → String
  | arith t op ty lhs rhs =>
    t.text ++ " = " ++ op.text ++ " " ++ ty.text ++ " " ++ lhs.text ++ ", " ++ rhs.text
  | comp t op ty lhs rhs =>
    t.text ++ " = icmp " ++ op.text ++ " " ++ ty.text ++ " " ++ lhs.text ++ ", " ++ rhs.text
  | alloca t ty length => t.text ++ " = alloca " ++ ty.text ++ ", " ++ typed length
  | store value addr => "store " ++ typed value ++ ", " ++ typed addr
  | load t ty addr => t.text ++ " = load " ++ ty.text ++ ", " ++ typed addr
  | gep t ty addr offset =>
    t.text ++ " = getelementptr " ++ ty.text ++ ", " ++ typed addr ++ ", " ++ typed offset
  | call t ty callee args =>
    (match t with
      | some t => t.text ++ " = "
      | none => "")
      ++ "call " ++ ty.text ++ " @" ++ callee ++ "("
      ++ joined ", " (args.map fun a => a.1.text ++ " " ++ a.2.text) ++ ")"

end Instr

inductive Terminator where
  | jump (target : Label)
  | branch (ty : Ty) (cond : Value) (ifTrue ifFalse : Label)
  | ret (value : Option Value)
  deriving DecidableEq

namespace Terminator

def reads : Terminator → List Temp
  | jump _ => []
  | branch _ cond _ _ => temps [cond]
  | ret value => temps value.toList

/-- The labels control may go to, each once. -/
def targets : Terminator → List Label
  | jump l => [l]
  | branch _ _ l m => if l = m then [l] else [l, m]
  | ret _ => []

def retarget (old new : Label) : Terminator → Terminator
  | jump l => jump (if l = old then new else l)
  | branch ty cond l m => branch ty cond (if l = old then new else l) (if m = old then new else m)
  | ret value => ret value

def isRet : Terminator → Bool
  | ret _ => true
  | _ => false

def text : Terminator → String
  | jump l => "br label %" ++ l
  | branch ty cond l m =>
    "br " ++ ty.text ++ " " ++ cond.text ++ ", label %" ++ l ++ ", label %" ++ m
  | ret (some v) => "ret " ++ typed v
  | ret none => "ret void"

end Terminator
end LoopClock
