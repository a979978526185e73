import Stencil.Options
import Stencil.Error
import Stencil.Toml.Reader

/-! Options as a TOML document. What is not mentioned keeps its default, and unknown keys say
nothing; a known key with a value of another type spoils the document. -/
namespace Stencil.Options

def readBool? (fallback : Bool) : Option Value → Option Bool
  | none => some fallback
  | some (.bool b) => some b
  | some _ => none

/-- The white space options by name, or in order of their declaration. -/
def readWhitespace? : Option Value → Option WhitespaceOptions
  | none => some {}
  | some (.object fields) => do
    let trimBlocks ← readBool? true (Entries.get? fields "trim_blocks".toList)
    let lstripBlocks ← readBool? true (Entries.get? fields "lstrip_blocks".toList)
    let dedentBlocks ← readBool? true (Entries.get? fields "dedent_blocks".toList)
    some { trimBlocks, lstripBlocks, dedentBlocks }
  | some (.array items) => do
    let trimBlocks ← readBool? true items[0]?
    let lstripBlocks ← readBool? true items[1]?
    let dedentBlocks ← readBool? true items[2]?
    some { trimBlocks, lstripBlocks, dedentBlocks }
  | some _ => none

def readDepth? (fallback : Nat) : Option Value → Option Nat
  | none => some fallback
  | some (.number (.int n)) => if 0 ≤ n then some n.toNat else none
  | some _ => none

def readText? (fallback : Text) : Option Value → Option Text
  | none => some fallback
  | some (.string s) => some s
  | some _ => none

def ofFields? (fields : Fields) : Option Options := do
  let defaults : Options := {}
  let maxDepth ← readDepth? defaults.maxDepth (fields.get? "max_depth".toList)
  let extension ← readText? defaults.extension (fields.get? "extension".toList)
  let whitespace ← readWhitespace? (fields.get? "whitespace".toList)
  some { maxDepth, extension, whitespace }

def read (document : Text) : Except TemplateError Options :=
  match (Toml.read? document).bind ofFields? with
  | some options => .ok options
  | none => .error (.configInvalid .malformed)

/-- The options in a file, given what reading the file at `path` brought. -/
def ofFile (path : Text) : Except Text Text → Except TemplateError Options
  | .ok document => read document
  | .error reason => .error (.configInvalid (.unreadable path reason))

end Stencil.Options
