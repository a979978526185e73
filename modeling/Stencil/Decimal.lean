import Stencil.Text
import Stencil.Binary64

/-! Decimal numerals: reading them, the shortest digits that name a binary64 number, and the
positional way to write them down. -/
namespace Stencil

/-- The number `digits * 10 ^ exponent`. -/
structure Decimal where
  digits : Nat
  exponent : Int
deriving DecidableEq

namespace Decimal

def digitValue (c : Char) : Nat := c.toNat - '0'.toNat

def valueOfDigits (s : Text) : Nat := s.foldl (fun n c => 10 * n + digitValue c) 0

def digitsOf (n : Nat) : Text := Nat.toDigits 10 n

def ofInt (n : Int) : Text := if n < 0 then '-' :: digitsOf n.natAbs else digitsOf n.natAbs

/-- Splits off a leading sign; the first component says whether it was a minus. -/
def splitSign : Text → Bool × Text
  | '-' :: s => (true, s)
  | '+' :: s => (false, s)
  | s => (false, s)

/-- The power of ten that an exponent part stands for; the empty part stands for `0`. -/
def readExponent? : Text → Option Int
  | [] => some 0
  | c :: s =>
    if c == 'e' || c == 'E' then
      let (negative, ds) := splitSign s
      if Text.isWordOf Char.isDigit ds then
        some (if negative then -(valueOfDigits ds : Int) else valueOfDigits ds)
      else none
    else none

/-- The digits after a point, when there is one, and what follows them. -/
def splitFraction : Text → Text × Text
  | '.' :: s => s.span Char.isDigit
  | s => ([], s)

/-- A numeral is an optional sign, digits with at most one point among or around them, and an
optional exponent. At least one digit stands before the exponent. -/
def readNumeral? (s : Text) : Option Binary64 := do
  let (negative, s) := splitSign s
  let (whole, s) := s.span Char.isDigit
  let (fraction, s) := splitFraction s
  if (whole ++ fraction).isEmpty then none
  let exponent ← readExponent? s
  return .ofDecimal negative (valueOfDigits (whole ++ fraction)) (exponent - fraction.length)

/-- Which neighbour an exact half goes to. -/
inductive Tie
  | toEven
  | up

/-- The multiple of `step` nearest to `value` among its two neighbours that lie between `lo`
and `hi`, as a multiplier; the ends count when `closed` holds. -/
def nearestMultiple? (tie : Tie) (closed : Bool) (lo value hi step : Nat) : Option Nat :=
  let below := value / step
  let inside (m : Nat) : Bool :=
    if closed then lo ≤ m * step && m * step ≤ hi else lo < m * step && m * step < hi
  let twice := 2 * (value % step)
  let preferAbove := step < twice ||
    (twice == step && (match tie with | .toEven => below % 2 == 1 | .up => true))
  match inside below, inside (below + 1) with
  | true, true => some (if preferAbove then below + 1 else below)
  | true, false => some below
  | false, true => some (below + 1)
  | false, false => none

/-- Tries the grids `10 ^ top`, `10 ^ (top - 1)`, … and answers on the first one that has a
point among the reals that round to the magnitude of this rank. -/
def shortestFrom (tie : Tie) (rank : Nat) : (tries : Nat) → (top : Int) → Decimal
  | 0, top => ⟨0, top⟩
  | tries + 1, top =>
    let up := Nat.pow 10 top.toNat
    let down := Nat.pow 10 (-top).toNat
    let lo := (Binary64.units (rank - 1) + Binary64.units rank) * down
    let value := 2 * Binary64.units rank * down
    let hi := (Binary64.units rank + Binary64.units (rank + 1)) * down
    let step := 2 * Binary64.unitsPerOne * up
    match nearestMultiple? tie (Binary64.significand rank % 2 == 0) lo value hi step with
    | some m => if m = 0 then shortestFrom tie rank tries (top - 1) else ⟨m, top⟩
    | none => shortestFrom tie rank tries (top - 1)

/-- The decimal with the fewest digits that rounds to the magnitude of a positive finite rank,
and of those the nearest to it. Seventeen digits always suffice, and a magnitude below `2 ^ b`
is below `10 ^ (b * 0.30103 + 1)`, which is where the search starts. -/
def shortest (tie : Tie) (rank : Nat) : Decimal :=
  let bound : Int := (Nat.log2 (Binary64.units rank) : Int) + 1 - 1074
  shortestFrom tie rank 24 (bound * 30103 / 100000 + 1)

/-- The decimal without an exponent, with as many zeros as it takes. -/
def positional (d : Decimal) : Text :=
  let ds := digitsOf d.digits
  match d.exponent with
  | .ofNat e => ds ++ List.replicate e '0'
  | .negSucc e =>
    if e + 1 < ds.length then ds.take (ds.length - (e + 1)) ++ '.' :: ds.drop (ds.length - (e + 1))
    else '0' :: '.' :: List.replicate (e + 1 - ds.length) '0' ++ ds

end Decimal
end Stencil
