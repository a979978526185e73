import Stencil.Decimal

/-! Dates and times, written alike with and without quotes, and their normal form: `T` between
date and time, no zeros at the end of a second's fraction, and no minus on a distance of zero. -/
namespace Stencil.Toml

/-- The value of two digits. -/
def twoDigits? (a b : Char) : Option Nat :=
  if a.isDigit && b.isDigit then some (10 * Decimal.digitValue a + Decimal.digitValue b) else none

def daysInMonth (year month : Nat) : Nat :=
  if month = 2 then
    if year % 4 = 0 && (year % 100 != 0 || year % 400 = 0) then 29 else 28
  else if month ∈ [4, 6, 9, 11] then 30
  else 31

/-- Whether the text is a day of the calendar, written `YYYY-MM-DD`. -/
def isDate (s : Text) : Bool :=
  match s with
  | [y1, y2, y3, y4, '-', m1, m2, '-', d1, d2] =>
    match twoDigits? y1 y2, twoDigits? y3 y4, twoDigits? m1 m2, twoDigits? d1 d2 with
    | some century, some year, some month, some day =>
      1 ≤ month && month ≤ 12 && 1 ≤ day && day ≤ daysInMonth (100 * century + year) month
    | _, _, _, _ => false
  | _ => false

/-- The part of a second that counts: nine digits, without zeros at the end. -/
def secondFraction (ds : Text) : Text :=
  match ((ds.take 9).reverse.dropWhile (· == '0')).reverse with
  | [] => []
  | ds => '.' :: ds

/-- A time `hh:mm:ss` with an optional fraction in normal form, and what follows it. A leap second
has the number 60. -/
def time? (s : Text) : Option (Text × Text) :=
  match s with
  | h1 :: h2 :: ':' :: m1 :: m2 :: ':' :: s1 :: s2 :: rest => do
    let hour ← twoDigits? h1 h2
    let minute ← twoDigits? m1 m2
    let second ← twoDigits? s1 s2
    if 23 < hour || 59 < minute || 60 < second then none
    let hms := [h1, h2, ':', m1, m2, ':', s1, s2]
    match rest with
    | '.' :: rest =>
      let (ds, rest) := rest.span Char.isDigit
      if ds.isEmpty then none else some (hms ++ secondFraction ds, rest)
    | rest => some (hms, rest)
  | _ => none

/-- A distance from universal time in normal form; the empty text has none. -/
def distance? (s : Text) : Option Text :=
  match s with
  | [] => some []
  | ['Z'] | ['z'] => some ['Z']
  | [sign, h1, h2, ':', m1, m2] => do
    if sign != '+' && sign != '-' then none
    let hours ← twoDigits? h1 h2
    let minutes ← twoDigits? m1 m2
    if 23 < hours || 59 < minutes then none
    let sign := if hours = 0 && minutes = 0 then '+' else sign
    some [sign, h1, h2, ':', m1, m2]
  | _ => none

/-- A time that stands alone. -/
def localTime? (s : Text) : Option Text := do
  let (time, rest) ← time? s
  if rest.isEmpty then some time else none

/-- A time with an optional distance from universal time. -/
def timeWithDistance? (s : Text) : Option Text := do
  let (time, rest) ← time? s
  let distance ← distance? rest
  return time ++ distance

/-- A date, a time, or a date and a time with `T`, `t` or a space between them, in normal form.
The third character tells a time from a date. -/
def moment? (s : Text) : Option Text :=
  if s[2]? = some ':' then localTime? s
  else if isDate (s.take 10) then
    match s.drop 10 with
    | [] => some (s.take 10)
    | c :: time =>
      if c ∈ ['T', 't', ' '] then
        (timeWithDistance? time).map fun time => s.take 10 ++ 'T' :: time
      else none
  else none

end Stencil.Toml
