import LoopClock.Numeral
import LoopClock.Single.Basic

/-! From decimal text to the nearest single precision number. Half way between two neighbours
the even code wins, and what lies beyond the last finite code rounds to infinity. -/
namespace LoopClock.Single

def roundHalfEven (num den : Nat) : Nat :=
  let q := num / den
  let r := num % den
  if 2 * r < den then q else if den < 2 * r then q + 1 else q + q % 2

/-- The quotient `num / (den * 2 ^ e)`, as numerator and denominator. -/
def dividePow (num den : Nat) (e : Int) : Nat × Nat :=
  (num * Nat.pow 2 (-e).toNat, den * Nat.pow 2 e.toNat)

/-- The greatest `e` with `den * 2 ^ e ≤ num`. -/
def binaryExponent (num den : Nat) : Int :=
  let e : Int := (Nat.log2 num : Int) - Nat.log2 den
  let (n, d) := dividePow num den e
  if d ≤ n then e else e - 1

def nearestCode (num den : Nat) : Nat :=
  if num = 0 then 0
  else
    let q := max (binaryExponent num den - 23) (-149)
    let (n, d) := dividePow num den q
    min infinityCode ((q + 149).toNat * binade + roundHalfEven n d)

/-- The code nearest to `digits * 10 ^ exponent`. -/
def decimalCode (digits : Nat) (exponent : Int) : Nat :=
  nearestCode (digits * Nat.pow 10 exponent.toNat) (Nat.pow 10 (-exponent).toNat)

/-- An exponent further out than this only says "infinity" or "zero" of a text with `n` digits. -/
def clampExponent (n : Nat) (e : Int) : Int := max (-(n + 100 : Nat)) (min (n + 100 : Nat) e)

def exponent? : List Char → Option Int
  | [] => some 0
  | c :: cs => if c = 'e' ∨ c = 'E' then Numeral.signed? cs else none

def magnitude? (cs : List Char) : Option Nat :=
  let whole := cs.takeWhile Char.isDigit
  let rest := cs.dropWhile Char.isDigit
  let (fraction, tail) :=
    match rest with
    | '.' :: r => (r.takeWhile Char.isDigit, r.dropWhile Char.isDigit)
    | r => ([], r)
  let digits := whole ++ fraction
  if digits = [] then none
  else (exponent? tail).map fun e =>
    decimalCode (Numeral.value digits) (clampExponent digits.length e - fraction.length)

def unsignedCode? (cs : List Char) : Option Nat :=
  let word := cs.map Char.toLower
  if word = "inf".toList ∨ word = "infinity".toList then some infinityCode
  else if word = "nan".toList then some 0x7fc00000
  else magnitude? cs

def read? : List Char → Option Single
  | '-' :: cs => (unsignedCode? cs).map fun c => ⟨true, c⟩
  | '+' :: cs => (unsignedCode? cs).map fun c => ⟨false, c⟩
  | cs => (unsignedCode? cs).map fun c => ⟨false, c⟩

end LoopClock.Single
