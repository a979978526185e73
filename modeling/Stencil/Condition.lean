import Stencil.Literal

/-! Conditions of `if` tags: a text is read into a condition once, and reading never fails,
because a text of no known form is the condition that never holds. -/
namespace Stencil

inductive Comparison
  | ge | le | eq | ne | gt | lt
deriving DecidableEq

namespace Comparison

def symbol : Comparison → Text
  | .ge => ['>', '=']
  | .le => ['<', '=']
  | .eq => ['=', '=']
  | .ne => ['!', '=']
  | .gt => ['>']
  | .lt => ['<']

/-- Longer symbols first, so that `>=` is not taken for `>`. -/
def all : List Comparison := [.ge, .le, .eq, .ne, .gt, .lt]

def holds (op : Comparison) (left right : Option Value) : Bool :=
  match op with
  | .eq => Value.strictEq left right
  | .ne => !Value.strictEq left right
  | .ge => (Value.toNumber right).numLe (Value.toNumber left)
  | .le => (Value.toNumber left).numLe (Value.toNumber right)
  | .gt => (Value.toNumber right).numLt (Value.toNumber left)
  | .lt => (Value.toNumber left).numLt (Value.toNumber right)

end Comparison

inductive Condition
  | both (left right : Condition)
  | either (left right : Condition)
  | defined (path : Text) (negated : Bool)
  | empty (path : Text) (negated : Bool)
  | compare (left : Text) (op : Comparison) (right : Text)
  | constant (b : Bool)
  | truthy (path : Text)

namespace Condition

def isDefined : Option Value → Bool
  | none | some .null => false
  | some _ => true

def holds (vars : Fields) : Condition → Bool
  | .both left right => left.holds vars && right.holds vars
  | .either left right => left.holds vars || right.holds vars
  | .defined path negated => isDefined (vars.valueAt? path) != negated
  | .empty path negated => Value.isEmpty (vars.valueAt? path) != negated
  | .compare left op right => op.holds (Literal.operand? left vars) (Literal.operand? right vars)
  | .constant b => b
  | .truthy path => Value.truthy (vars.valueAt? path)

/-- What follows a keyword at the start of the text, when white space stands on both sides of
the keyword and something comes after it. -/
def afterKeyword? (keyword s : Text) : Option Text :=
  if s.startsWhite then
    (Text.after? keyword s.trimStart).bind fun rest =>
      if Text.startsWhite rest && !(Text.trimStart rest).isEmpty then some (Text.trimStart rest)
      else none
  else none

/-- Splits at the first place, after the first character, where the keyword stands between
white space. -/
def splitKeyword? (keyword : Text) : Text → Option (Text × Text)
  | [] => none
  | c :: s =>
    match afterKeyword? keyword s with
    | some right => some ([c], right)
    | none => (splitKeyword? keyword s).map fun (left, right) => (c :: left, right)

/-- Drops the white space at the end, of which there must be some. -/
def dropGap? (s : Text) : Option Text :=
  if s.trimEnd.length < s.length then some s.trimEnd else none

/-- The path of `path is test` or `path is not test`, and whether the `not` is there. -/
def splitTest? (test s : Text) : Option (Text × Bool) := do
  let rest ← (Text.before? test s).bind dropGap?
  let (rest, negated) := match (Text.before? "not".toList rest).bind dropGap? with
    | some before => (before, true)
    | none => (rest, false)
  let path ← (Text.before? "is".toList rest).bind dropGap?
  if path.isEmpty then none else some (path, negated)

/-- The operator at the start of the text, after white space, and what follows it. -/
def operatorAt? (s : Text) : Option (Comparison × Text) :=
  let s := s.trimStart
  Comparison.all.findSome? fun op =>
    (Text.after? op.symbol s).bind fun rest =>
      if Text.isBlank rest then none else some (op, Text.trim rest)

/-- Splits at the first place, after the first character, where an operator fits. -/
def splitComparison? : Text → Option (Text × Comparison × Text)
  | [] => none
  | c :: s =>
    match operatorAt? s with
    | some (op, right) => some ([c], op, right)
    | none => (splitComparison? s).map fun (left, op, right) => (c :: left, op, right)

/-- A text without `and` and `or`. -/
def parseAtom (s : Text) : Condition :=
  match splitTest? "defined".toList s with
  | some (path, negated) => .defined path negated
  | none => match splitTest? "empty".toList s with
    | some (path, negated) => .empty path negated
    | none => match splitComparison? s with
      | some (left, op, right) => .compare left.trim op right
      | none =>
        if s = "true".toList then .constant true
        else if s = "false".toList then .constant false
        else if s.isSimplePath then .truthy s
        else .constant false

theorem length_of_afterKeyword? {keyword s right : Text}
    (h : afterKeyword? keyword s = some right) : right.length ≤ s.length ∧ 0 < s.length := by
  unfold afterKeyword? at h
  split at h
  · rename_i hs
    obtain ⟨rest, hrest, h⟩ := Option.bind_eq_some_iff.1 h
    split at h
    · cases h
      have h1 := (List.dropWhile_suffix Text.isWhite (l := rest)).length_le
      have h2 := (List.dropWhile_suffix Text.isWhite (l := s)).length_le
      have h3 := congrArg List.length (Text.after?_eq_some_iff.1 hrest)
      have h4 : 0 < s.length := by
        cases s with
        | nil => simp [Text.startsWhite] at hs
        | cons => simp
      simp only [Text.trimStart, List.length_append] at *
      omega
    · cases h
  · cases h

theorem length_of_splitKeyword? {keyword s left right : Text}
    (h : splitKeyword? keyword s = some (left, right)) :
    left.length < s.length ∧ right.length < s.length := by
  induction s generalizing left with
  | nil => simp [splitKeyword?] at h
  | cons c s ih =>
    unfold splitKeyword? at h
    split at h
    · rename_i r hr
      have := length_of_afterKeyword? hr
      simp only [Option.some.injEq, Prod.mk.injEq] at h
      obtain ⟨rfl, rfl⟩ := h
      simp only [List.length_cons, List.length_nil]
      omega
    · obtain ⟨⟨l, r⟩, hs, hlr⟩ := Option.map_eq_some_iff.1 h
      simp only [Prod.mk.injEq] at hlr
      obtain ⟨rfl, rfl⟩ := hlr
      have := ih hs
      simp only [List.length_cons]
      omega

theorem length_of_splitKeyword?_trim {keyword s left right : Text}
    (h : splitKeyword? keyword s.trim = some (left, right)) :
    left.length < s.length ∧ right.length < s.length := by
  have := length_of_splitKeyword? h
  have := Text.length_trim_le s
  omega

/-- Reads a condition. The first `and` splits the text, then the first `or`, so that `and` binds
less tightly; what is left is an atom. -/
def parse (s : Text) : Condition :=
  match _hand : splitKeyword? "and".toList s.trim with
  | some (left, right) => .both (parse left) (parse right)
  | none => match _hor : splitKeyword? "or".toList s.trim with
    | some (left, right) => .either (parse left) (parse right)
    | none => parseAtom s.trim
termination_by s.length
decreasing_by
  · exact (length_of_splitKeyword?_trim _hand).1
  · exact (length_of_splitKeyword?_trim _hand).2
  · exact (length_of_splitKeyword?_trim _hor).1
  · exact (length_of_splitKeyword?_trim _hor).2

end Condition

/-- Whether the text of a condition holds among the given variables. -/
def conditionHolds (s : Text) (vars : Fields) : Bool := (Condition.parse s).holds vars

end Stencil
