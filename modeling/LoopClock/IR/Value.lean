import LoopClock.Numeral
import LoopClock.Single.Basic
import LoopClock.Single.Shortest

/-! Types, temporaries and constants, with the text they are written as. -/
namespace LoopClock

inductive Ty where
  | i32
  | i64
  | f32
  | i32Ptr
  | i64Ptr
  | f32Ptr
  | void
  deriving DecidableEq, Repr

namespace Ty

def all : List Ty := [i32, i64, f32, i32Ptr, i64Ptr, f32Ptr, void]

def text : Ty → String
  | i32 => "i32"
  | i64 => "i64"
  | f32 => "f32"
  | i32Ptr => "i32*"
  | i64Ptr => "i64*"
  | f32Ptr => "f32*"
  | void => "void"

/-- Any other text names no value and reads as `void`. -/
def ofText (s : String) : Ty := (all.find? (·.text == s)).getD void

/-- There are no pointers to pointers: a pointer type is its own pointer type. -/
def toPtr : Ty → Ty
  | i32 => i32Ptr
  | i64 => i64Ptr
  | f32 => f32Ptr
  | t => t

def bits : Ty → Nat
  | i64 => 64
  | _ => 32

end Ty

structure Temp where
  name : String
  isGlobal : Bool
  ty : Ty
  deriving DecidableEq, Repr

namespace Temp

def text (t : Temp) : String := (if t.isGlobal then "@" else "%") ++ t.name

/-- The temporary that comes after `total` numbered ones. -/
def fresh (total : Nat) (ty : Ty) : Temp := ⟨Numeral.nat (total + 1), false, ty⟩

/-- The number a name denotes, 0 for a name that is no number. -/
def number (t : Temp) : Nat := (Numeral.word32? t.name.toList).getD 0

end Temp

inductive Value where
  | int (v : Int32)
  | long (v : Int64)
  | float (v : Single)
  | temp (t : Temp)
  deriving DecidableEq

namespace Value

def ty : Value → Ty
  | int _ => .i32
  | long _ => .i64
  | float _ => .f32
  | temp t => t.ty

def temp? : Value → Option Temp
  | temp t => some t
  | _ => none

def text : Value → String
  | int v => Numeral.int v.toInt
  | long v => Numeral.int v.toInt
  | float v => v.text
  | temp t => t.text

/-- Equality of values, where constants compare as the numbers they are. -/
def same : Value → Value → Bool
  | float a, float b => a.equal b
  | a, b => a == b

end Value
end LoopClock
