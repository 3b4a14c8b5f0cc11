/-! Single precision numbers by their bit fields. `code` is exponent and fraction read as one
number, so it grows with the magnitude; codes above `infinityCode` are not numbers. -/
namespace LoopClock

structure Single where
  negative : Bool
  code : Nat
  deriving DecidableEq, Repr

namespace Single

def infinityCode : Nat := 0x7f800000

/-- The number of codes that share an exponent. -/
def binade : Nat := 0x800000

/-- Equality of numbers: both zeros are equal, and what is not a number equals nothing. -/
def equal (a b : Single) : Bool :=
  a.code ≤ infinityCode && a.code == b.code && (a.negative == b.negative || a.code == 0)

/-- A finite code stands for `significand c` times two to the power `scale c`. -/
def significand (c : Nat) : Nat := if c < binade then c else binade + c % binade
def scale (c : Nat) : Int := if c < binade then -149 else (c / binade : Nat) - 150

end Single
end LoopClock
