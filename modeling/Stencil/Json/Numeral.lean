import Stencil.Value

/-! Numerals of JSON. An integer of 64 bits is exact. Any other numeral is read through a
significand of 64 bits and a power of ten, and every arithmetic step on the way to binary64 is
rounded by itself, so the result need not be the number nearest to the numeral. -/
namespace Stencil.Json

/-- The digits on both sides of the point, and the power of ten when one is written. -/
structure Numeral where
  negative : Bool
  whole : Text
  fraction : Text
  power? : Option Int
deriving DecidableEq

/-- A nonnegative number `significand * 10 ^ power`. -/
structure Scaled where
  significand : Nat
  power : Int
deriving DecidableEq

namespace Scaled

/-- Appends digits for as long as the significand has 64 bits, and answers with the digits left
out as well. -/
def appendDigits (significand : Nat) : Text → Nat × Text
  | [] => (significand, [])
  | c :: s =>
    let longer := 10 * significand + Decimal.digitValue c
    if longer < 1 <<< 64 then appendDigits longer s else (significand, c :: s)

/-- The largest power of ten that scales a number in one step. -/
def largestStep : Nat := 308

/-- The rank of the magnitude that the number is read as. A division by more than the largest
step is made in two steps, and a second whole step leaves zero of any 64 bits. -/
def rank (x : Scaled) : Nat :=
  let exact := Binary64.wholeRank x.significand
  let tens (n : Nat) : Nat := Binary64.wholeRank (Nat.pow 10 n)
  match x.power with
  | .ofNat n =>
    if n ≤ largestStep then Binary64.productRank exact (tens n)
    else if x.significand = 0 then 0 else Binary64.infinityRank
  | .negSucc n =>
    if n < largestStep then Binary64.quotientRank exact (tens (n + 1))
    else
      let once := Binary64.quotientRank exact (tens largestStep)
      Binary64.quotientRank once (tens (min largestStep (n + 1 - largestStep)))

end Scaled

namespace Numeral

/-- No leading zeros, and digits on both sides of a point. -/
def read? (s : Text) : Option Numeral := do
  let (negative, s) := match s with
    | '-' :: s => (true, s)
    | s => (false, s)
  let (whole, s) := s.span Char.isDigit
  let (fraction, exponent) := Decimal.splitFraction s
  if whole.isEmpty || (1 < whole.length && whole.head? == some '0')
      || (s.head? == some '.' && fraction.isEmpty) then none
  let power ← Decimal.readExponent? exponent
  return ⟨negative, whole, fraction, if exponent.isEmpty then none else some power⟩

/-- A digit left out before the point still counts as a power of ten, and one left out behind
it does not count. -/
def scaled (n : Numeral) : Scaled :=
  let (significand, wholeRest) := Scaled.appendDigits 0 n.whole
  let (significand, fractionRest) := Scaled.appendDigits significand n.fraction
  ⟨significand, n.power?.getD 0 + wholeRest.length + fractionRest.length - n.fraction.length⟩

/-- The integer that digits alone stand for, when it fits in 64 bits, signed or unsigned.
A negative zero is no integer. -/
def integer? (n : Numeral) : Option Int :=
  let (significand, rest) := Scaled.appendDigits 0 n.whole
  if !(rest.isEmpty && n.fraction.isEmpty && n.power?.isNone) then none
  else if !n.negative then some significand
  else if 0 < significand && significand ≤ 1 <<< 63 then some (-significand)
  else none

/-- Numbers too large for binary64 are refused. -/
def number? (n : Numeral) : Option Number :=
  match n.integer? with
  | some k => some (.int k)
  | none =>
    let x := Binary64.signed n.negative n.scaled.rank
    if x.isFinite then some (.float x) else none

end Numeral

def readNumber? (s : Text) : Option Number := (Numeral.read? s).bind Numeral.number?

end Stencil.Json
