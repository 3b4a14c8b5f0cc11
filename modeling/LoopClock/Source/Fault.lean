import LoopClock.Error
import LoopClock.IR.Value

/-! What can be wrong with a text that matches the grammar, and where it stops matching. -/
namespace LoopClock.Source

/-- A fault names what it is about as it is spelled in the text. -/
inductive Fault where
  | badInteger (text : String)
  | badFloat (text : String)
  | tooWide (text : String) (ty : Ty)
  | negativeLength (name : String) (len : Int)
  | lengthMismatch (name : String) (declared initialized : Nat)
  | badLabel (label func : String)
  | afterTerminator (label func : String)
  | unterminated (label func : String)
  | duplicateBlock (label func : String)
  | noEntry (func : String)
  | undefinedValue (temp : Temp) (func : String)
  | unknownBlock (label func : String)
  | duplicateFunction (func : String)
  deriving DecidableEq, Repr

def Fault.message : Fault → String
  | badInteger text => "invalid integer '" ++ text ++ "'"
  | badFloat text => "invalid float '" ++ text ++ "'"
  | tooWide text ty => "integer '" ++ text ++ "' does not fit in " ++ ty.text
  | negativeLength name len => "global @" ++ name ++ " has negative length " ++ Numeral.int len
  | lengthMismatch name declared initialized =>
    "global @" ++ name ++ " declares " ++ Numeral.nat declared ++ " elements but initializes "
      ++ Numeral.nat initialized
  | badLabel label func => "invalid block label '" ++ label ++ "' in @" ++ func
  | afterTerminator label func => "instruction after terminator in " ++ label ++ " of @" ++ func
  | unterminated label func => "block " ++ label ++ " of @" ++ func ++ " has no terminator"
  | duplicateBlock label func => "block " ++ label ++ " defined twice in @" ++ func
  | noEntry func => "@" ++ func ++ " must start with the entry block"
  | undefinedValue temp func => "use of undefined value " ++ temp.text ++ " in @" ++ func
  | unknownBlock label func => "unknown block %" ++ label ++ " in @" ++ func
  | duplicateFunction func => "function @" ++ func ++ " defined twice"

/-- Lines and columns count from 1. -/
structure Position where
  line : Nat
  col : Nat
  deriving DecidableEq, Repr

inductive ParseError where
  | grammar (position : Position)
  | fault (f : Fault)
  deriving DecidableEq, Repr

def Position.text (p : Position) : String := Numeral.nat p.line ++ ":" ++ Numeral.nat p.col

def ParseError.toError : ParseError → Error
  | grammar p => .irSyntax p.text
  | fault f => .irSyntax f.message

end LoopClock.Source
