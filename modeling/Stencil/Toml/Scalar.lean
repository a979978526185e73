import Stencil.Toml.Moment
import Stencil.Value

/-! Numbers, dates and the constants of TOML, each written without quotes. A number that JSON
does not have is null, and a date or time is an object around its normal form. -/
namespace Stencil.Toml

/-- The characters that a scalar without quotes is made of. -/
def isScalarChar (c : Char) : Bool := c.isAlphanum || c ∈ ['_', '+', '-', '.', ':']

mutual

/-- The digits of a group in which single underscores may stand between digits. -/
def ungroup? (p : Char → Bool) : Text → Option Text
  | [] => none
  | c :: s => if p c then (ungroupRest? p s).map (c :: ·) else none

def ungroupRest? (p : Char → Bool) : Text → Option Text
  | [] => some []
  | '_' :: s => ungroup? p s
  | c :: s => if p c then (ungroupRest? p s).map (c :: ·) else none

end

/-- The digits of a decimal whole number, which has no leading zeros. -/
def wholeDigits? (s : Text) : Option Text :=
  (ungroup? Char.isDigit s).bind fun ds =>
    if 1 < s.length && s.head? == some '0' then none else some ds

def signed (negative : Bool) (n : Nat) : Int := if negative then -(n : Int) else n

def fits (n : Int) : Bool := -9223372036854775808 ≤ n && n ≤ 9223372036854775807

def isHexDigit (c : Char) : Bool :=
  c.isDigit || ('a' ≤ c && c ≤ 'f') || ('A' ≤ c && c ≤ 'F')

def hexValue (c : Char) : Nat :=
  if c.isDigit then c.toNat - '0'.toNat
  else if 'a' ≤ c then c.toNat - 'a'.toNat + 10
  else c.toNat - 'A'.toNat + 10

def radix? (p : Char → Bool) (base : Nat) (s : Text) : Option Int :=
  (ungroup? p s).map fun ds => (ds.foldl (fun n c => base * n + hexValue c) 0 : Nat)

/-- A whole number of 64 bits: decimal with an optional sign, or after `0x`, `0o` or `0b`. -/
def integer? (s : Text) : Option Int :=
  let n := match s with
    | '0' :: 'x' :: ds => radix? isHexDigit 16 ds
    | '0' :: 'o' :: ds => radix? (fun c => '0' ≤ c && c ≤ '7') 8 ds
    | '0' :: 'b' :: ds => radix? (fun c => c == '0' || c == '1') 2 ds
    | s =>
      let (negative, ds) := Decimal.splitSign s
      (wholeDigits? ds).map fun ds => signed negative (Decimal.valueOfDigits ds)
  n.bind fun n => if fits n then some n else none

def isGroupChar (c : Char) : Bool := c.isDigit || c == '_'

/-- The digits of an exponent with their sign; the empty text has none. -/
def exponent? : Text → Option Text
  | [] => some []
  | c :: s =>
    if c == 'e' || c == 'E' then
      let (negative, ds) := Decimal.splitSign s
      (ungroup? Char.isDigit ds).map fun ds => 'e' :: (if negative then '-' else '+') :: ds
    else none

/-- The digits of a fraction with their point, and what follows them. -/
def fraction? : Text → Option (Text × Text)
  | '.' :: s =>
    let (ds, rest) := s.span isGroupChar
    (ungroup? Char.isDigit ds).map fun ds => ('.' :: ds, rest)
  | s => some ([], s)

/-- A number with a fraction, an exponent or both. One too large for the format is refused if it
is positive. -/
def fractional? (s : Text) : Option Binary64 := do
  let (negative, s) := Decimal.splitSign s
  let (whole, s) := s.span isGroupChar
  let whole ← wholeDigits? whole
  if s.isEmpty then none
  let (fraction, s) ← fraction? s
  let exponent ← exponent? s
  let x ← Decimal.readNumeral? ((if negative then ['-'] else []) ++ whole ++ fraction ++ exponent)
  if x == .signed false Binary64.infinityRank then none else some x

def isSpecial (s : Text) : Bool :=
  let word := (Decimal.splitSign s).2
  word = "inf".toList || word = "nan".toList

def number? (s : Text) : Option Value :=
  match integer? s with
  | some n => some (.number (.int n))
  | none =>
    match fractional? s with
    | some x => some (if x.isFinite then .number (.float x) else .null)
    | none => if isSpecial s then some .null else none

/-- The key that marks an object as a date or time. -/
def momentKey : Text := "$__toml_private_datetime".toList

def momentValue (s : Text) : Value := .object [(momentKey, .string s)]

def scalar? (s : Text) : Option Value :=
  if s = "true".toList then some (.bool true)
  else if s = "false".toList then some (.bool false)
  else match number? s with
    | some v => some v
    | none => (moment? s).map momentValue

/-- A scalar at the start of the text and what follows it. A space between a date and a time
joins them. -/
def readScalar? (s : Text) : Option (Value × Text) :=
  let (word, rest) := s.span isScalarChar
  let joined := match rest with
    | ' ' :: more =>
      let (time, rest) := more.span isScalarChar
      if isDate word then
        (moment? (word ++ ' ' :: time)).map fun moment => (momentValue moment, rest)
      else none
    | _ => none
  match joined with
  | some answer => some answer
  | none => (scalar? word).map fun v => (v, rest)

end Stencil.Toml
