/-! Decimal numerals. Numbers are written without leading zeros and read with any number of
them. A reader of bounded integers refuses what does not fit its range. -/
namespace LoopClock.Numeral

def digit (n : Nat) : Char := Char.ofNat (48 + n % 10)

def ofNat (n : Nat) : List Char :=
  if n < 10 then [digit n] else ofNat (n / 10) ++ [digit n]
termination_by n

def ofInt : Int → List Char
  | .ofNat n => ofNat n
  | .negSucc n => '-' :: ofNat (n + 1)

def nat (n : Nat) : String := String.ofList (ofNat n)
def int (i : Int) : String := String.ofList (ofInt i)

def digitValue (c : Char) : Nat := c.toNat - 48

def value (cs : List Char) : Nat := cs.foldl (fun n c => 10 * n + digitValue c) 0

def toNat? (cs : List Char) : Option Nat :=
  if cs ≠ [] ∧ cs.all Char.isDigit then some (value cs) else none

/-- An unsigned numeral may carry a plus sign, never a minus sign. -/
def unsigned? : List Char → Option Nat
  | '+' :: cs => toNat? cs
  | cs => toNat? cs

def signed? : List Char → Option Int
  | '+' :: cs => (toNat? cs).map Int.ofNat
  | '-' :: cs => (toNat? cs).map fun n => -Int.ofNat n
  | cs => (toNat? cs).map Int.ofNat

def word32? (cs : List Char) : Option Nat := (unsigned? cs).filter (· < 0x100000000)

def fits32 (i : Int) : Bool := -0x80000000 ≤ i && i < 0x80000000
def fits64 (i : Int) : Bool := -0x8000000000000000 ≤ i && i < 0x8000000000000000

def int32? (cs : List Char) : Option Int := (signed? cs).filter fits32
def int64? (cs : List Char) : Option Int := (signed? cs).filter fits64

end LoopClock.Numeral
