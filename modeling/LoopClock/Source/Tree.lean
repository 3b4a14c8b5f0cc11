import LoopClock.IR.Instr

/-! Programs as they are written: numbers and labels keep their spelling, nothing is checked
beyond the grammar. -/
namespace LoopClock.Source

inductive Operand where
  | localName (name : String)
  | globalName (name : String)
  | float (text : String)
  | int (text : String)
  deriving DecidableEq, Repr

abbrev TypedOperand := Ty × Operand

inductive Statement where
  | arith (target : String) (op : ArithOp) (ty : Ty) (lhs rhs : Operand)
  | comp (target : String) (op : CompOp) (ty : Ty) (lhs rhs : Operand)
  | phi (target : String) (ty : Ty) (source : List (Operand × Label))
  | alloca (target : String) (ty : Ty) (length : TypedOperand)
  | load (target : String) (ty : Ty) (addr : TypedOperand)
  | gep (target : String) (ty : Ty) (addr offset : TypedOperand)
  | call (target : Option String) (ty : Ty) (callee : String) (args : List TypedOperand)
  | store (value addr : TypedOperand)
  | jump (target : Label)
  | branch (cond : TypedOperand) (ifTrue ifFalse : Label)
  | retVoid
  | ret (value : TypedOperand)
  deriving DecidableEq, Repr

structure Section where
  label : Label
  statements : List Statement
  deriving DecidableEq, Repr

inductive Init where
  | scalar (ty : Ty) (value : String)
  | zeros (len : String) (ty : Ty)
  | words (len : String) (ty : Ty) (values : List String)
  deriving DecidableEq, Repr

/-- A parameter of a declaration that is `none` stands for any number of further arguments. -/
inductive Item where
  | declare (ret : Ty) (name : String) (params : List (Option Ty))
  | globalVar (name : String) (init : Init)
  | define (ret : Ty) (name : String) (params : List (Ty × String)) (sections : List Section)
  deriving DecidableEq, Repr

end LoopClock.Source
