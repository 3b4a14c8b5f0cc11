import LoopClock.Source.Match
import LoopClock.Source.Tree

/-! The grammar of program text. Gaps may stand between the parts of a construct, but not inside
names, numbers, types and labels; no gap has to stand anywhere. -/
namespace LoopClock.Source.Grammar
open Matcher

def isNameChar (c : Char) : Bool := c.isAlphanum || c == '_' || c == '.'

def name : Matcher String := String.ofList <$> run isNameChar

def localName : Matcher String := rule do word "%"; name

def globalName : Matcher String := rule do word "@"; name

def digits : Matcher (List Char) := run Char.isDigit

def sign : Matcher (List Char) := return if (← optional (word "-")).isSome then ['-'] else []

def intText : Matcher String := rule do return String.ofList ((← sign) ++ (← digits))

def floatText : Matcher String := rule do
  let whole := (← sign) ++ (← digits)
  word "."
  return String.ofList (whole ++ '.' :: (← digits))

def blockLabel : Matcher Label := rule (choice
  [do word "entry"; return "entry",
   do word "B"; return String.ofList ('B' :: (← digits))])

def labelRef : Matcher Label := rule do word "%"; blockLabel

def scalarType (w : String) (t : Ty) : Matcher Ty := do
  word w
  return if (← optional (word "*")).isSome then t.toPtr else t

def type : Matcher Ty := rule (choice
  [scalarType "i32" .i32, scalarType "i64" .i64, scalarType "f32" .f32,
   do word "void"; return .void])

def operand : Matcher Operand := choice
  [.localName <$> localName, .globalName <$> globalName, .float <$> floatText, .int <$> intText]

def typedOperand : Matcher TypedOperand := return (← type, ← gap operand)

def oneOf {α : Type} (text : α → String) (as : List α) : Matcher α :=
  rule (choice (as.map fun a => do word (text a); return a))

def arithOp : Matcher ArithOp :=
  oneOf ArithOp.text [.add, .sub, .mul, .sdiv, .srem, .fadd, .fsub, .fmul, .fdiv]

def compOp : Matcher CompOp := oneOf CompOp.text [.eq, .ne, .sgt, .sge, .slt, .sle]

/-- The left side of a statement that defines a value, with its equals sign. -/
def target : Matcher String := do
  let t ← localName
  gap (word "=")
  return t

def comma : Matcher Unit := gap (word ",")

def arith : Matcher Statement := rule do
  let t ← target
  let op ← gap arithOp
  let (ty, lhs) ← gap typedOperand
  comma
  return .arith t op ty lhs (← gap operand)

def comp : Matcher Statement := rule do
  let t ← target
  gap (word "icmp")
  let op ← gap compOp
  let (ty, lhs) ← gap typedOperand
  comma
  return .comp t op ty lhs (← gap operand)

def phiSource : Matcher (Operand × Label) := rule do
  word "["
  let v ← gap operand
  comma
  let l ← gap labelRef
  gap (word "]")
  return (v, l)

def phi : Matcher Statement := rule do
  let t ← target
  gap (word "phi")
  let ty ← gap type
  return .phi t ty (← gap (listed₁ phiSource))

def alloca : Matcher Statement := rule do
  let t ← target
  gap (word "alloca")
  let ty ← gap type
  comma
  return .alloca t ty (← gap typedOperand)

def load : Matcher Statement := rule do
  let t ← target
  gap (word "load")
  let ty ← gap type
  comma
  return .load t ty (← gap typedOperand)

def gep : Matcher Statement := rule do
  let t ← target
  gap (word "getelementptr")
  let ty ← gap type
  comma
  let addr ← gap typedOperand
  comma
  return .gep t ty addr (← gap typedOperand)

def call : Matcher Statement := rule do
  let t ← optional target
  gap (word "call")
  let ty ← gap type
  let callee ← gap globalName
  return .call t ty callee (← gap (parenthesized (rule typedOperand)))

def store : Matcher Statement := rule do
  word "store"
  let value ← gap typedOperand
  comma
  return .store value (← gap typedOperand)

def jump : Matcher Statement := rule do
  word "br"
  gap (word "label")
  return .jump (← gap labelRef)

def branch : Matcher Statement := rule do
  word "br"
  let cond ← gap typedOperand
  comma
  gap (word "label")
  let l ← gap labelRef
  comma
  gap (word "label")
  return .branch cond l (← gap labelRef)

def ret : Matcher Statement := rule do
  word "ret"
  gap (choice [rule do word "void"; return .retVoid, .ret <$> typedOperand])

def statement : Matcher Statement :=
  choice [arith, comp, phi, alloca, load, gep, call, store, jump, branch, ret]

def block : Matcher Section := rule do
  let l ← blockLabel
  gap (word ":")
  gap newlines
  return ⟨l, ← gap (spaced do
    let s ← statement
    gap newlines
    return s)⟩

def parameter : Matcher (Ty × String) := rule do return (← type, ← gap localName)

def define : Matcher Item := rule do
  word "define"
  let ret ← gap type
  let f ← gap globalName
  let params ← gap (parenthesized parameter)
  gap (word "\x7b")
  gap newlines
  let blocks ← gap (spaced₁ block)
  gap (word "\x7d")
  return .define ret f params blocks

def declParameter : Matcher (Option Ty) :=
  choice [rule do word "..."; return none, some <$> type]

def declare : Matcher Item := rule do
  word "declare"
  let ret ← gap type
  let f ← gap globalName
  return .declare ret f (← gap (parenthesized declParameter))

def constant : Matcher (Ty × String) := rule do return (← type, ← gap intText)

def arrayInit : Matcher Init := rule do
  word "["
  let len ← gap intText
  gap (word "x")
  let ty ← gap type
  gap (word "]")
  gap (choice
    [rule do word "zeroinitializer"; return .zeros len ty,
     do
      word "["
      let words ← gap (listed₁ constant)
      gap (word "]")
      return .words len ty (words.map (·.2))])

def scalarInit : Matcher Init := rule do
  let ty ← type
  return .scalar ty (← gap intText)

def globalVariable : Matcher Item := rule do
  let g ← globalName
  gap (word "=")
  gap (word "global")
  return .globalVar g (← gap (choice [arrayInit, scalarInit]))

def item : Matcher Item := choice [declare, globalVariable, define]

def program : Matcher (List Item) := rule do
  discard (gap (optional newlines))
  let items ← gap (spaced do
    let i ← item
    discard (gap (optional newlines))
    return i)
  gap endOfText
  return items

end LoopClock.Source.Grammar
