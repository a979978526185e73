/-! Numbers of the binary64 format. The magnitudes of the format, from zero through the
subnormal and normal numbers to infinity, are named by their rank in that order, so that
comparing, rounding and reading bits are arithmetic on natural numbers. -/
namespace Stencil

inductive Binary64
  | nan
  | signed (negative : Bool) (rank : Nat)
deriving DecidableEq

namespace Binary64

/-- How many magnitudes lie between two neighbouring powers of two. -/
def binade : Nat := 1 <<< 52

/-- The rank of infinity; every smaller rank is a finite magnitude. -/
def infinityRank : Nat := 2047 * binade

def significand (rank : Nat) : Nat :=
  if rank < binade then rank else binade + rank % binade

def scale (rank : Nat) : Nat := rank / binade - 1

/-- The magnitude at a rank, counted in units of the smallest positive number `2 ^ -1074`. -/
def units (rank : Nat) : Nat := significand rank <<< scale rank

/-- The number one in the same units. -/
def unitsPerOne : Nat := 1 <<< 1074

/-- The whole number nearest to a quotient; a half goes to the even neighbour. -/
def roundHalfEven (num den : Nat) : Nat :=
  let whole := num / den
  let twice := 2 * (num % den)
  if den < twice || (twice == den && whole % 2 == 1) then whole + 1 else whole

/-- The rank of the magnitude nearest to `num / den` units. A quotient at or beyond the middle
between the largest finite magnitude and the next power of two is infinite. -/
def nearestRank (num den : Nat) : Nat :=
  let shift := Nat.log2 (num / den) - 52
  min infinityRank (shift * binade + roundHalfEven num (den <<< shift))

/-- The rank of the magnitude nearest to a whole number. -/
def wholeRank (n : Nat) : Nat := nearestRank (n * unitsPerOne) 1

/-- The rank of the magnitude nearest to a product of two finite ones. -/
def productRank (a b : Nat) : Nat := nearestRank (units a * units b) unitsPerOne

/-- The rank of the magnitude nearest to a quotient of two finite ones, the second not zero. -/
def quotientRank (a b : Nat) : Nat := nearestRank (units a * unitsPerOne) (units b)

def zero : Binary64 := .signed false 0
def one : Binary64 := .signed false (wholeRank 1)

def ofInt (n : Int) : Binary64 := .signed (n < 0) (wholeRank n.natAbs)

/-- The number nearest to `digits * 10 ^ exponent`, with the given sign. Far outside the range
of the format the answer is infinity or zero without computing the power. -/
def ofDecimal (negative : Bool) (digits : Nat) (exponent : Int) : Binary64 :=
  if digits = 0 then .signed negative 0
  else if exponent > 400 then .signed negative infinityRank
  else if exponent < -(401 + Nat.log2 digits : Int) then .signed negative 0
  else match exponent with
    | .ofNat e => .signed negative (wholeRank (digits * Nat.pow 10 e))
    | .negSucc e => .signed negative (nearestRank (digits * unitsPerOne) (Nat.pow 10 (e + 1)))

def isNaN : Binary64 → Bool
  | .nan => true
  | .signed .. => false

def isFinite : Binary64 → Bool
  | .nan => false
  | .signed _ rank => rank < infinityRank

/-- The place of a number in the order of the line: both zeros stand at `0`, and the number
of rank `r` at `r` or `-r`. -/
def place? : Binary64 → Option Int
  | .nan => none
  | .signed negative rank => some (if negative then -(rank : Int) else rank)

/-- The numeric order, in which a NaN has no place. -/
def order? (a b : Binary64) : Option Ordering :=
  match a.place?, b.place? with
  | some x, some y => some (compare x y)
  | _, _ => none

/-- Numeric equality: the two zeros are equal, and a NaN equals nothing. -/
def numEq (a b : Binary64) : Bool := a.order? b == some .eq
def numLt (a b : Binary64) : Bool := a.order? b == some .lt
def numLe (a b : Binary64) : Bool := a.numLt b || a.numEq b

/-- The number as an integer, when it is one. -/
def toInt? : Binary64 → Option Int
  | .nan => none
  | .signed negative rank =>
    if rank < infinityRank && units rank % unitsPerOne == 0 then
      let whole : Int := (units rank / unitsPerOne : Nat)
      some (if negative then -whole else whole)
    else none

/-- The highest of the 64 bits, which is the sign; the others are the rank. -/
def signBit : Nat := 1 <<< 63

def ofBits (bits : Nat) : Binary64 :=
  let rank := bits % signBit
  if infinityRank < rank then .nan else .signed (bits / signBit % 2 == 1) rank

/-- A NaN has only the first bit behind its exponent. -/
def toBits : Binary64 → Nat
  | .nan => infinityRank + binade / 2
  | .signed negative rank => (if negative then signBit else 0) + rank

end Binary64
end Stencil
