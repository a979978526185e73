import Stencil.Condition
import Stencil.LoopSource
import Stencil.Proofs.WrittenTag
import Stencil.Value.Text

/-! Templates as trees of text, placeholders, conditionals and loops. A tree has a written form
and, among given variables, a meaning that is composed of the meanings of its parts. -/
namespace Stencil
namespace Tree

/-- Neither a brace nor one of the characters that stand beside a brace in a delimiter. -/
def IsLiteral (s : Text) : Prop := ∀ c ∈ s, c ∉ ['{', '}', '%', '#']

structure Chunk where
  text : Text
  literal : IsLiteral text

/-- A dotted path. -/
structure Path where
  text : Text
  simple : text.isSimplePath = true

/-- The name of a loop's variable. -/
structure Name where
  text : Text
  word : text.isWordOf Text.isWordChar = true

/-- The text of a condition or of a loop's source. -/
structure Expression where
  text : Text
  literal : IsLiteral text
  trimmed : text.trim = text
  nonempty : text ≠ []

mutual

inductive Node
  | text (s : Chunk)
  | placeholder (path : Path)
  | choice (condition : Expression) (body : List Node) (rest : Branches)
  | loop (item : Name) (source : Expression) (body : List Node)

/-- What follows the first branch of a conditional. -/
inductive Branches
  | done
  | orElse (body : List Node)
  | elseIf (condition : Expression) (body : List Node) (rest : Branches)

end

end Tree

abbrev Tree := List Tree.Node

namespace Tree

def ifTag (condition : Text) : Text := writeTag .control ("if ".toList ++ condition)
def elseIfTag (condition : Text) : Text := writeTag .control ("elseif ".toList ++ condition)
def elseTag : Text := writeTag .control "else".toList
def endIfTag : Text := writeTag .control "endif".toList
def forTag (item source : Text) : Text :=
  writeTag .control ("for ".toList ++ item ++ " in ".toList ++ source)
def endForTag : Text := writeTag .control "endfor".toList

mutual

def Node.print : Node → Text
  | .text s => s.text
  | .placeholder path => writeTag .value path.text
  | .choice condition body rest =>
    ifTag condition.text ++ print body ++ rest.print ++ endIfTag
  | .loop item source body => forTag item.text source.text ++ print body ++ endForTag

def Branches.print : Branches → Text
  | .done => []
  | .orElse body => elseTag ++ print body
  | .elseIf condition body rest => elseIfTag condition.text ++ print body ++ rest.print

def print : List Node → Text
  | [] => []
  | node :: rest => node.print ++ print rest

end

mutual

/-- How deep conditionals and loops are nested. -/
def Node.height : Node → Nat
  | .text _ | .placeholder _ => 0
  | .choice _ body rest => max (height body) rest.height + 1
  | .loop _ _ body => height body + 1

def Branches.height : Branches → Nat
  | .done => 0
  | .orElse body => height body
  | .elseIf _ body rest => max (height body) rest.height

def height : List Node → Nat
  | [] => 0
  | node :: rest => max node.height (height rest)

end

/-- The text of the value that a path leads to; nothing leaves nothing, as null does. -/
def valueText (vars : Fields) (path : Text) : Text :=
  match vars.valueAt? path with
  | some v => v.text
  | none => []

/-- The items of a loop's source; a source that is no list has none. -/
def itemsOf (source : Text) (vars : Fields) : List Value :=
  match LoopSource.items source vars with
  | .ok items => items
  | .error _ => []

mutual

/-- A conditional means its first branch whose condition holds, a loop its body for every item
in turn. -/
def Node.meaning : Node → Fields → Text
  | .text s, _ => s.text
  | .placeholder path, vars => valueText vars path.text
  | .choice condition body rest, vars =>
    if conditionHolds condition.text vars then meaning body vars else rest.meaning vars
  | .loop item source body, vars =>
    (itemsOf source.text vars).flatMap fun v => meaning body (vars.insert item.text v)

def Branches.meaning : Branches → Fields → Text
  | .done, _ => []
  | .orElse body, vars => meaning body vars
  | .elseIf condition body rest, vars =>
    if conditionHolds condition.text vars then meaning body vars else rest.meaning vars

def meaning : List Node → Fields → Text
  | [], _ => []
  | node :: rest, vars => node.meaning vars ++ meaning rest vars

end

mutual

/-- The texts of the values that are put in the place of placeholders. -/
def Node.substituted : Node → Fields → List Text
  | .text _, _ => []
  | .placeholder path, vars => [valueText vars path.text]
  | .choice condition body rest, vars =>
    if conditionHolds condition.text vars then substituted body vars else rest.substituted vars
  | .loop item source body, vars =>
    (itemsOf source.text vars).flatMap fun v => substituted body (vars.insert item.text v)

def Branches.substituted : Branches → Fields → List Text
  | .done, _ => []
  | .orElse body, vars => substituted body vars
  | .elseIf condition body rest, vars =>
    if conditionHolds condition.text vars then substituted body vars else rest.substituted vars

def substituted : List Node → Fields → List Text
  | [], _ => []
  | node :: rest, vars => node.substituted vars ++ substituted rest vars

end

/-- The error of a loop's source that is no list. -/
def sourceFaults (source : Text) (vars : Fields) : List TemplateError :=
  match LoopSource.items source vars with
  | .ok _ => []
  | .error e => [e]

mutual

/-- The errors of the loops that are reached. -/
def Node.faults : Node → Fields → List TemplateError
  | .text _, _ | .placeholder _, _ => []
  | .choice condition body rest, vars =>
    if conditionHolds condition.text vars then faults body vars else rest.faults vars
  | .loop item source body, vars =>
    sourceFaults source.text vars ++
      (itemsOf source.text vars).flatMap fun v => faults body (vars.insert item.text v)

def Branches.faults : Branches → Fields → List TemplateError
  | .done, _ => []
  | .orElse body, vars => faults body vars
  | .elseIf condition body rest, vars =>
    if conditionHolds condition.text vars then faults body vars else rest.faults vars

def faults : List Node → Fields → List TemplateError
  | [], _ => []
  | node :: rest, vars => node.faults vars ++ faults rest vars

end

end Tree
end Stencil
