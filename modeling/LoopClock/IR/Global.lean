import LoopClock.IR.Instr

/-! Global variables. Their data is a list of words in which a run of zeros is one item. -/
namespace LoopClock

namespace Global

inductive Item where
  | word (w : UInt64)
  | zeros (n : Nat)
  deriving DecidableEq, Repr

def Item.len : Item → Nat
  | word _ => 1
  | zeros n => n

def Item.words : Item → List UInt64
  | word w => [w]
  | zeros n => List.replicate n 0

def Item.isZeros : Item → Bool
  | word _ => false
  | zeros _ => true

end Global

structure Global where
  name : String
  data : List Global.Item
  bits : Nat
  isArray : Bool
  deriving DecidableEq, Repr

namespace Global

def zeroed (name : String) (len bits : Nat) : Global := ⟨name, [.zeros len], bits, true⟩

def lenOf : List Item → Nat
  | [] => 0
  | i :: is => i.len + lenOf is

def len (g : Global) : Nat := lenOf g.data

def isEmpty (g : Global) : Bool := g.len == 0

/-- No item is a word. This holds of a global without data too. -/
def isZeroed (g : Global) : Bool := g.data.all Item.isZeros

def words (g : Global) : List UInt64 := g.data.flatMap Item.words

/-- Adds zeros at the end, into the last run of zeros if there is one. -/
def pad (n : Nat) : List Item → List Item
  | [] => [.zeros n]
  | [.zeros m] => [.zeros (m + n)]
  | i :: is => i :: pad n is

/-- Pads a global until it holds `n` elements, and tells whether it grew. -/
def growTo (g : Global) (n : Nat) : Bool × Global :=
  if n ≤ g.len then (false, g) else (true, { g with data := pad (n - g.len) g.data })

def scalarWord (g : Global) : UInt64 :=
  match g.data with
  | .word w :: _ => w
  | _ => 0

def text (g : Global) : String :=
  let width := "i" ++ Numeral.nat g.bits
  let head := "@" ++ g.name ++ " = global "
  if !g.isArray then head ++ width ++ " " ++ Numeral.nat g.scalarWord.toNat
  else
    let type := "[" ++ Numeral.nat g.len ++ " x " ++ width ++ "]"
    if g.isZeroed then head ++ type ++ " zeroinitializer"
    else head ++ type ++ " ["
      ++ joined ", " (g.words.map fun w => width ++ " " ++ Numeral.nat w.toNat) ++ "]"

end Global
end LoopClock
