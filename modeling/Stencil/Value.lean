import Stencil.Decimal
import Stencil.Entries

/-! The values a template works on, and the rules that read a value as a truth, a number or the
equal of another value. Every part of the library that has to coerce a value does it here. -/
namespace Stencil

/-- Integers stay exact; every other number is a binary64 number. -/
inductive Number
  | int (n : Int)
  | float (x : Binary64)
deriving DecidableEq

namespace Number

def toBinary64 : Number → Binary64
  | .int n => .ofInt n
  | .float x => x

/-- Equality inside containers: an integer never equals a fractional number. -/
def same : Number → Number → Bool
  | .int a, .int b => a == b
  | .float a, .float b => a.numEq b
  | _, _ => false

/-- The number as a value keeps an integer below `2 ^ 53` as an integer. -/
def ofBinary64? (x : Binary64) : Option Number :=
  match x.toInt? with
  | some n => if n.natAbs < 1 <<< 53 then some (.int n) else some (.float x)
  | none => if x.isFinite then some (.float x) else none

end Number

inductive Value
  | null
  | bool (b : Bool)
  | number (n : Number)
  | string (s : Text)
  | array (items : List Value)
  | object (fields : List (Text × Value))

instance : Inhabited Value := ⟨.null⟩

/-- Named values: the variables of a template and the fields of an object. -/
abbrev Fields := Entries Value

namespace Value

def ofBinary64 (x : Binary64) : Value :=
  match Number.ofBinary64? x with
  | some n => .number n
  | none => .null

/-- What a condition makes of a value: absent, null, `false`, zero, NaN and the empty string
are false, containers are true. -/
def truthy : Option Value → Bool
  | none | some .null => false
  | some (.bool b) => b
  | some (.number n) => !n.toBinary64.isNaN && !n.toBinary64.numEq .zero
  | some (.string s) => !s.isEmpty
  | some (.array _) | some (.object _) => true

def isEmpty : Option Value → Bool
  | none | some .null => true
  | some (.string s) => s.isEmpty
  | some (.array items) => items.isEmpty
  | some (.object fields) => fields.isEmpty
  | some (.bool _) | some (.number _) => false

/-- A numeral written with digits, a point, signs and an exponent only. -/
def readNumeric? (s : Text) : Option Binary64 :=
  if s.all fun c => c.isDigit || c ∈ ['.', '-', '+', 'e', 'E'] then Decimal.readNumeral? s else none

/-- The number that an ordering comparison sees. -/
def toNumber : Option Value → Binary64
  | none => .nan
  | some .null => .zero
  | some (.bool b) => if b then .one else .zero
  | some (.number n) => n.toBinary64
  | some (.string s) =>
    if s.trim.isEmpty then .zero else (readNumeric? s.trim).getD .nan
  | some (.array _) | some (.object _) => .nan

mutual

/-- Equality inside containers: numbers must be of the same kind, and objects are equal when
they have the same entries in any order. -/
def same : Value → Value → Bool
  | .null, .null => true
  | .bool a, .bool b => a == b
  | .number a, .number b => a.same b
  | .string a, .string b => a == b
  | .array a, .array b => sameItems a b
  | .object a, .object b => a.length == b.length && sameEntries a b
  | _, _ => false

def sameItems : List Value → List Value → Bool
  | [], [] => true
  | a :: as, b :: bs => same a b && sameItems as bs
  | _, _ => false

/-- Every entry of the first list has an equal value in the second. -/
def sameEntries : List (Text × Value) → List (Text × Value) → Bool
  | [], _ => true
  | (k, a) :: rest, other =>
    (match Entries.get? other k with
      | some b => same a b
      | none => false) && sameEntries rest other

end

/-- The `==` of conditions: an absent value equals only an absent value, and two numbers are
compared as binary64 numbers. -/
def strictEq : Option Value → Option Value → Bool
  | none, none => true
  | some (.number a), some (.number b) => a.toBinary64.numEq b.toBinary64
  | some a, some b => same a b
  | _, _ => false

def typeName : Value → Text
  | .null => "null".toList
  | .bool _ => "boolean".toList
  | .number _ => "number".toList
  | .string _ => "string".toList
  | .array _ => "array".toList
  | .object _ => "object".toList

end Value
end Stencil
