import Stencil.Value

/-! The compact JSON form of a value: no white space, fields in their order, and the shortest
digits for a fractional number. -/
namespace Stencil.Json

def hexDigit (n : Nat) : Char := (Nat.toDigits 16 n).headD '0'

/-- A character as it stands inside a JSON string. -/
def escape (c : Char) : Text :=
  if c == '"' then ['\\', '"']
  else if c == '\\' then ['\\', '\\']
  else if c == '\x08' then ['\\', 'b']
  else if c == '\x0c' then ['\\', 'f']
  else if c == '\n' then ['\\', 'n']
  else if c == '\r' then ['\\', 'r']
  else if c == '\t' then ['\\', 't']
  else if c.toNat < 0x20 then
    ['\\', 'u', '0', '0', hexDigit (c.toNat / 16), hexDigit (c.toNat % 16)]
  else [c]

def writeString (s : Text) : Text := '"' :: s.flatMap escape ++ ['"']

/-- An exponent always has a sign and no padding. -/
def writeExponent (e : Int) : Text :=
  'e' :: (if e < 0 then '-' else '+') :: Decimal.digitsOf e.natAbs

/-- Digits with a point somewhere among them while the number is at least `10 ^ -5` and below
`10 ^ 16`, and one digit before the point with an exponent beyond that. -/
def writeMagnitude (rank : Nat) : Text :=
  if rank = 0 then "0.0".toList
  else
    let d := Decimal.shortest .toEven rank
    let ds := Decimal.digitsOf d.digits
    let point : Int := ds.length + d.exponent
    if -5 < point && point ≤ 16 then
      if d.exponent < 0 then d.positional else d.positional ++ ".0".toList
    else match ds with
      | [c] => c :: writeExponent (point - 1)
      | c :: cs => c :: '.' :: cs ++ writeExponent (point - 1)
      | [] => []

def writeNumber : Number → Text
  | .int n => Decimal.ofInt n
  | .float (.signed negative rank) =>
    if rank < Binary64.infinityRank then
      if negative then '-' :: writeMagnitude rank else writeMagnitude rank
    else "null".toList
  | .float .nan => "null".toList

mutual

def write : Value → Text
  | .null => "null".toList
  | .bool true => "true".toList
  | .bool false => "false".toList
  | .number n => writeNumber n
  | .string s => writeString s
  | .array items => '[' :: writeItems items ++ [']']
  | .object fields => '{' :: writeEntries fields ++ ['}']

def writeItems : List Value → Text
  | [] => []
  | [v] => write v
  | v :: w :: rest => write v ++ ',' :: writeItems (w :: rest)

def writeEntries : List (Text × Value) → Text
  | [] => []
  | [(k, v)] => writeString k ++ ':' :: write v
  | (k, v) :: w :: rest => writeString k ++ ':' :: write v ++ ',' :: writeEntries (w :: rest)

end

end Stencil.Json
