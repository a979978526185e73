import Stencil.Nesting
import Stencil.Entries
import Stencil.Whitespace.Dedent

/-! The blocks of a template by name, and how the blocks of an heir lie over those of its
parent. -/
namespace Stencil

/-- A block's body, and the directory from which references in it are resolved. -/
structure Block where
  body : Text
  directory : Text
deriving DecidableEq

abbrev BlockTable := Entries Block

/-- Puts a text in the place of every `super()`. -/
def replaceSuper (s replacement : Text) : Text :=
  Symbol.replace
    (fun
      | .superCall => some replacement
      | _ => none)
    (Scan.symbols s)

/-- The block with `super()` standing for the body that it inherits. -/
def Block.inheriting (block : Block) (inherited : Text) : Block :=
  { block with body := replaceSuper block.body inherited }

def dedentIf (dedents : Bool) (s : Text) : Text := if dedents then Whitespace.dedent s else s

namespace BlockTable

def blockOf (dedents : Bool) (directory : Text) (c : Construct) : Block :=
  ⟨dedentIf dedents (Symbol.textOf c.body), directory⟩

/-- All blocks of a template, nested ones included; a nested block also stays in the body of the
outer one. A repeated name keeps its first place and takes its last body. -/
def extract (dedents : Bool) (directory : Text) (symbols : List Symbol) : BlockTable :=
  (allConstructs .block symbols).foldl
    (fun table c =>
      match c.opener with
      | .tag (.openBlock name) _ => table.insert name (blockOf dedents directory c)
      | _ => table)
    []

/-- Lays the heir's blocks over the base. The base's names come first, in their order, and then
the names that only the heir has; `super()` in a block of the heir stands for the base's body of
the same name, or for nothing. -/
def mergeOver (heir base : BlockTable) : BlockTable :=
  base.map (fun (name, block) =>
      match heir.get? name with
      | some own => (name, own.inheriting block.body)
      | none => (name, block))
    ++ (heir.filter fun (name, _) => !base.contains name).map fun (name, own) =>
      (name, own.inheriting [])

end BlockTable
end Stencil
