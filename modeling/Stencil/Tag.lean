import Stencil.Value.Lookup
import Stencil.QuotedList

/-! What a tag asks for, read from the text between its delimiters. A tag with a known keyword
but malformed arguments is of no known kind. -/
namespace Stencil

/-- The three delimiter pairs: `{{ }}`, `{% %}` and `{# #}`. -/
inductive Delimiter
  | value
  | control
  | comment
deriving DecidableEq

namespace Delimiter

/-- The second character of the opening delimiter; the first is always `{`. -/
def openChar : Delimiter → Char
  | .value => '{'
  | .control => '%'
  | .comment => '#'

/-- The first character of the closing delimiter; the second is always `}`. -/
def closeChar : Delimiter → Char
  | .value => '}'
  | .control => '%'
  | .comment => '#'

def ofOpenChar? (c : Char) : Option Delimiter :=
  if c == '{' then some .value
  else if c == '%' then some .control
  else if c == '#' then some .comment
  else none

theorem ofOpenChar?_eq_some_iff {c : Char} {d : Delimiter} :
    ofOpenChar? c = some d ↔ c = d.openChar := by
  constructor
  · intro h
    simp only [ofOpenChar?] at h
    split at h
    · cases h; simp_all [openChar]
    · split at h
      · cases h; simp_all [openChar]
      · split at h
        · cases h; simp_all [openChar]
        · cases h
  · rintro rfl
    cases d <;> rfl

end Delimiter

inductive Tag
  | placeholder (path : Text) (fallback : Option Text)
  | superCall
  | openIf (condition : Text)
  | elseIf (condition : Text)
  | orElse
  | closeIf
  | openFor (item source : Text)
  | closeFor
  | openBlock (name : Text)
  | closeBlock
  | insert (reference : Text) (locals : Option Text)
  | inherit (reference : Text)
  | mixin (references : List Text)
  | comment
  | other
deriving DecidableEq

namespace Tag

/-- `super()`, with nothing but white space between the parentheses. -/
def isSuperCall (s : Text) : Bool :=
  match (Text.after? "super(".toList s).bind (Text.before? [')']) with
  | some inner => inner.isBlank
  | none => false

/-- The text of `default("text")`; it may hold the quote that does not enclose it. -/
def readFallback? (s : Text) : Option Text :=
  match (Text.after? "default(".toList s).bind (Text.before? [')']) with
  | some (q :: args) =>
    if q == '"' || q == '\'' then
      (Text.before? [q] args).bind fun inner => if q ∈ inner then none else some inner
    else none
  | _ => none

def ofVariable (s : Text) : Tag :=
  if isSuperCall s then .superCall
  else match s.splitFirst? (· == '|') with
    | none => if s.isSimplePath then .placeholder s none else .other
    | some (path, filter) =>
      if path.trimEnd.isSimplePath then
        match readFallback? filter.trimStart with
        | some fallback => .placeholder path.trimEnd (some fallback)
        | none => .other
      else .other

/-- A condition or a loop source is any text without `%`. -/
def isExpression (s : Text) : Bool := !s.isEmpty && !s.contains '%'

def isBlockName (s : Text) : Bool := s.isWordOf fun c => Text.isWordChar c || c == ':' || c == '-'

/-- The arguments of `for item in source`. -/
def readLoopHeader? (s : Text) : Option Tag := do
  let (item, tail) ← s.splitFirst? Text.isWhite
  let source ← Text.after? "in".toList tail.trimStart
  if item.isWordOf Text.isWordChar && Text.startsWhite source
      && isExpression (Text.trim source) then
    some (.openFor item (Text.trim source))
  else none

/-- The arguments of `include "reference"` or `include "reference" with {…}`. -/
def readInsert? (s : Text) : Option Tag := do
  let (reference, tail) ← QuotedList.splitQuoted? s
  if tail.isEmpty then some (.insert reference none)
  else
    let object ← Text.after? "with".toList tail
    let trimmed := Text.trim object
    if Text.startsWhite object && trimmed.head? == some '{' && trimmed.getLast? == some '}'
    then some (.insert reference (some trimmed))
    else none

/-- The arguments of `extends "reference"`. -/
def readInherit? (s : Text) : Option Tag :=
  match QuotedList.splitQuoted? s with
  | some (reference, []) => some (.inherit reference)
  | _ => none

/-- The first word of a control tag and the trimmed rest. -/
def splitKeyword (s : Text) : Text × Text :=
  match s.splitFirst? Text.isWhite with
  | some (keyword, rest) => (keyword, rest.trim)
  | none => (s, [])

def ofControl (s : Text) : Tag :=
  let (keyword, rest) := splitKeyword s
  if keyword = "if".toList then
    if isExpression rest then .openIf rest else .other
  else if keyword = "elseif".toList then
    if isExpression rest then .elseIf rest else .other
  else if keyword = "else".toList then
    if rest.isEmpty then .orElse else .other
  else if keyword = "endif".toList then
    if rest.isEmpty then .closeIf else .other
  else if keyword = "for".toList then
    (readLoopHeader? rest).getD .other
  else if keyword = "endfor".toList then
    if rest.isEmpty then .closeFor else .other
  else if keyword = "block".toList then
    if isBlockName rest then .openBlock rest else .other
  else if keyword = "endblock".toList then
    if rest.isEmpty || isBlockName rest then .closeBlock else .other
  else if keyword = "include".toList then
    (readInsert? rest).getD .other
  else if keyword = "extends".toList then
    (readInherit? rest).getD .other
  else if keyword = "mixin".toList then
    if QuotedList.isList rest then .mixin (QuotedList.items rest) else .other
  else .other

/-- The tag that a delimiter pair makes of the text between its delimiters. -/
def ofContent (d : Delimiter) (content : Text) : Tag :=
  match d with
  | .value => ofVariable content.trim
  | .control => ofControl content.trim
  | .comment => .comment

end Tag
end Stencil
