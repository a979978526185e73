import Stencil.Json.Numeral

/-! Reading strict JSON. A character machine cuts the text into lexemes and a stack machine
builds the value, so both read their input once, from left to right. -/
namespace Stencil.Json

inductive Lexeme
  | openArray | closeArray | openObject | closeObject | comma | colon
  | string (s : Text)
  | scalar (v : Value)

/-- How far the escape sequence in progress has been read. A `high` surrogate waits for the low
one that must follow it. -/
inductive Escape
  | none
  | slash (high : Option Nat)
  | expectSlash (high : Nat)
  | hex (high : Option Nat) (left : Nat) (value : Nat)

/-- The lexeme in progress; the characters seen are in reverse. -/
inductive Mode
  | between
  | word (seen : Text)
  | numeral (seen : Text)
  | string (seen : Text) (escape : Escape)

def isBlank (c : Char) : Bool := c == ' ' || c == '\t' || c == '\n' || c == '\r'

def isNumeralChar (c : Char) : Bool := c.isDigit || c ∈ ['-', '+', '.', 'e', 'E']

def hexValue? (c : Char) : Option Nat :=
  if c.isDigit then some (c.toNat - '0'.toNat)
  else if 'a' ≤ c && c ≤ 'f' then some (c.toNat - 'a'.toNat + 10)
  else if 'A' ≤ c && c ≤ 'F' then some (c.toNat - 'A'.toNat + 10)
  else none

def wordLexeme? (w : Text) : Option Lexeme :=
  if w = "null".toList then some (.scalar .null)
  else if w = "true".toList then some (.scalar (.bool true))
  else if w = "false".toList then some (.scalar (.bool false))
  else none

def start (c : Char) : Option (List Lexeme × Mode) :=
  if isBlank c then some ([], .between)
  else if c == '[' then some ([.openArray], .between)
  else if c == ']' then some ([.closeArray], .between)
  else if c == '{' then some ([.openObject], .between)
  else if c == '}' then some ([.closeObject], .between)
  else if c == ',' then some ([.comma], .between)
  else if c == ':' then some ([.colon], .between)
  else if c == '"' then some ([], .string [] .none)
  else if c.isDigit || c == '-' then some ([], .numeral [c])
  else if c.isAlpha then some ([], .word [c])
  else none

def unescape? (c : Char) : Option Char :=
  if c == '"' || c == '\\' || c == '/' then some c
  else if c == 'b' then some '\x08'
  else if c == 'f' then some '\x0c'
  else if c == 'n' then some '\n'
  else if c == 'r' then some '\r'
  else if c == 't' then some '\t'
  else none

/-- Joins a finished four-digit escape to the string: a high surrogate waits, and a low one is
valid only after a high one. -/
def finishUnicode (seen : Text) (high : Option Nat) (unit : Nat) : Option Mode :=
  match high with
  | none =>
    if 0xD800 ≤ unit && unit < 0xDC00 then some (.string seen (.expectSlash unit))
    else if 0xDC00 ≤ unit && unit < 0xE000 then none
    else some (.string (Char.ofNat unit :: seen) .none)
  | some h =>
    if 0xDC00 ≤ unit && unit < 0xE000 then
      let c := Char.ofNat (0x10000 + (h - 0xD800) * 0x400 + (unit - 0xDC00))
      some (.string (c :: seen) .none)
    else none

def stepString (seen : Text) (escape : Escape) (c : Char) : Option (List Lexeme × Mode) :=
  match escape with
  | .none =>
    if c == '"' then some ([.string seen.reverse], .between)
    else if c == '\\' then some ([], .string seen (.slash none))
    else if c.toNat < 0x20 then none
    else some ([], .string (c :: seen) .none)
  | .slash high =>
    if c == 'u' then some ([], .string seen (.hex high 4 0))
    else match high with
      | some _ => none
      | none => (unescape? c).map fun d => ([], .string (d :: seen) .none)
  | .expectSlash high => if c == '\\' then some ([], .string seen (.slash (some high))) else none
  | .hex high left value =>
    (hexValue? c).bind fun d =>
      let value := 16 * value + d
      if left ≤ 1 then (finishUnicode seen high value).map fun m => ([], m)
      else some ([], .string seen (.hex high (left - 1) value))

def finish (m : Mode) : Option (List Lexeme) :=
  match m with
  | .between => some []
  | .word seen => (wordLexeme? seen.reverse).map ([·])
  | .numeral seen => (readNumber? seen.reverse).map fun n => [.scalar (.number n)]
  | .string .. => none

def step (m : Mode) (c : Char) : Option (List Lexeme × Mode) :=
  match m with
  | .between => start c
  | .word seen =>
    if c.isAlpha then some ([], .word (c :: seen))
    else (finish m).bind fun done => (start c).map fun (next, m) => (done ++ next, m)
  | .numeral seen =>
    if isNumeralChar c then some ([], .numeral (c :: seen))
    else (finish m).bind fun done => (start c).map fun (next, m) => (done ++ next, m)
  | .string seen escape => stepString seen escape c

def lexemesFrom : Mode → Text → Option (List Lexeme)
  | m, [] => finish m
  | m, c :: s => (step m c).bind fun (done, m) => (lexemesFrom m s).map (done ++ ·)

def lexemes (s : Text) : Option (List Lexeme) := lexemesFrom .between s

/-- A container in progress: items in reverse, or fields with the key whose value comes next. -/
inductive Frame
  | array (items : List Value)
  | object (fields : Fields) (key : Text)

/-- What must come next, with the open containers, innermost first. -/
inductive State
  | value (stack : List Frame)
  | firstItem (stack : List Frame)
  | firstKey (stack : List Frame)
  | key (fields : Fields) (stack : List Frame)
  | colon (fields : Fields) (key : Text) (stack : List Frame)
  | arrayEnd (items : List Value) (stack : List Frame)
  | objectEnd (fields : Fields) (stack : List Frame)
  | finished (v : Value)

/-- Hands a complete value to the innermost open container. -/
def complete (v : Value) : List Frame → State
  | [] => .finished v
  | .array items :: stack => .arrayEnd (v :: items) stack
  | .object fields key :: stack => .objectEnd (fields.insert key v) stack

/-- A value begins; at most `limit` containers may be open at once. -/
def beginValue (limit : Nat) (stack : List Frame) : Lexeme → Option State
  | .scalar v => some (complete v stack)
  | .string s => some (complete (.string s) stack)
  | .openArray => if stack.length < limit then some (.firstItem stack) else none
  | .openObject => if stack.length < limit then some (.firstKey stack) else none
  | _ => none

def next (limit : Nat) : State → Lexeme → Option State
  | .value stack, l => beginValue limit stack l
  | .firstItem stack, .closeArray => some (complete (.array []) stack)
  | .firstItem stack, l => beginValue limit (.array [] :: stack) l
  | .firstKey stack, .closeObject => some (complete (.object []) stack)
  | .firstKey stack, .string k => some (.colon [] k stack)
  | .key fields stack, .string k => some (.colon fields k stack)
  | .colon fields k stack, .colon => some (.value (.object fields k :: stack))
  | .arrayEnd items stack, .comma => some (.value (.array items :: stack))
  | .arrayEnd items stack, .closeArray => some (complete (.array items.reverse) stack)
  | .objectEnd fields stack, .comma => some (.key fields stack)
  | .objectEnd fields stack, .closeObject => some (complete (.object fields) stack)
  | _, _ => none

def build (limit : Nat) : State → List Lexeme → Option Value
  | .finished v, [] => some v
  | _, [] => none
  | state, l :: rest => (next limit state l).bind fun state => build limit state rest

/-- The value of a JSON text in which at most `limit` containers nest. A repeated key keeps its
first place and takes its last value. -/
def read? (limit : Nat) (s : Text) : Option Value :=
  (lexemes s).bind (build limit (.value []))

/-- The nesting that texts inside templates and variable files may have. -/
def depthLimit : Nat := 127

end Stencil.Json
