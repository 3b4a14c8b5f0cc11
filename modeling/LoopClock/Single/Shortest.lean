import LoopClock.Numeral
import LoopClock.Single.Basic

/-! The text of a single precision number: the fewest digits that read back to it, and of those
the nearest. A grid of multiples of `10 ^ k` is tried from coarse to fine; the first grid with a
point that rounds to the number gives the digits. -/
namespace LoopClock.Single

/-- The reals that round to a code, as `low`, `mid`, `high` over one denominator. The ends belong
to the interval when the significand is even. -/
structure Interval where
  low : Nat
  mid : Nat
  high : Nat
  den : Nat
  closed : Bool

/-- The gap below a power of two is half the gap above it. -/
def interval (c : Nat) : Interval :=
  let m := significand c
  let e := scale c - 2
  let unit := Nat.pow 2 e.toNat
  let gap := if m = binade then 1 else 2
  ⟨(4 * m - gap) * unit, 4 * m * unit, (4 * m + 2) * unit, Nat.pow 2 (-e).toNat, m % 2 = 0⟩

def Interval.atGrid (i : Interval) (k : Int) : Interval :=
  let up := Nat.pow 10 (-k).toNat
  ⟨i.low * up, i.mid * up, i.high * up, i.den * Nat.pow 10 k.toNat, i.closed⟩

/-- Whether the whole number `n` lies in the interval. -/
def Interval.holds (i : Interval) (n : Nat) : Bool :=
  if i.closed then i.low ≤ n * i.den && n * i.den ≤ i.high
  else i.low < n * i.den && n * i.den < i.high

/-- The grid point to print, if one of the two neighbours of the number rounds to it. When both
do, the nearer one is taken and the upper one on a tie. -/
def Interval.gridPoint? (i : Interval) : Option Nat :=
  let down := i.mid / i.den
  let up := down + 1
  match i.holds down, i.holds up with
  | true, true => some (if 2 * (i.mid % i.den) < i.den then down else up)
  | true, false => some down
  | false, true => some up
  | false, false => none

/-- Digits `d` and exponent `k`, so that `d * 10 ^ k` is the decimal to print. -/
def shortest? (c : Nat) : Option (Nat × Int) :=
  (List.range 120).findSome? fun (n : Nat) =>
    let k : Int := 40 - n
    ((interval c).atGrid k).gridPoint?.map fun d => (d, k)

/-- Numbers from one ten-thousandth up to, but not including, `10 ^ 16` have no exponent. The
bounds are the codes of these two numbers. -/
def isPositional (c : Nat) : Bool := 0x38d1b717 ≤ c && c < 0x5a0e1bca

def positional (digits : List Char) (k : Int) : List Char :=
  let point : Int := digits.length + k
  if 0 ≤ k then digits ++ List.replicate k.toNat '0' ++ ['.', '0']
  else if 0 < point then digits.take point.toNat ++ '.' :: digits.drop point.toNat
  else '0' :: '.' :: List.replicate (-point).toNat '0' ++ digits

def scientific (digits : List Char) (k : Int) : List Char :=
  let exponent := 'e' :: Numeral.ofInt (digits.length + k - 1)
  match digits with
  | d :: d' :: ds => d :: '.' :: d' :: ds ++ exponent
  | ds => ds ++ exponent

def magnitudeText (c : Nat) : List Char :=
  if c = 0 then ['0', '.', '0']
  else match shortest? c with
    | some (d, k) =>
      if isPositional c then positional (Numeral.ofNat d) k else scientific (Numeral.ofNat d) k
    | none => []

def text (x : Single) : String :=
  if infinityCode < x.code then "NaN"
  else
    let m := if x.code = infinityCode then "inf".toList else magnitudeText x.code
    String.ofList (if x.negative then '-' :: m else m)

end LoopClock.Single
