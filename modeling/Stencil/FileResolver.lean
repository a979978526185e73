import Stencil.FilePath
import Stencil.Error

/-! References to template files, resolved below a base directory without looking at the disk. -/
namespace Stencil

/-- `base` is in normal form. A strict resolver refuses what lies outside of it. -/
structure FileResolver where
  base : FilePath
  strict : Bool := true

namespace FileResolver

/-- The resolver for a base directory as seen from the working directory. -/
def ofBase (workingDirectory base : FilePath) (strict : Bool) : FileResolver :=
  ⟨(workingDirectory.join base).normalize, strict⟩

/-- Where a reference leads from a directory; the empty directory is the base itself. -/
def target (r : FileResolver) (reference directory : Text) : FilePath :=
  ((r.base.join (.ofText directory)).join (.ofText reference)).normalize

/-- The identifier of the template that a reference means. -/
def resolve (r : FileResolver) (reference directory : Text) : Except TemplateError Text :=
  let path := r.target reference directory
  if r.strict && !path.startsWith r.base then .error (.pathEscape reference r.base.display)
  else match path.text? with
    | some identifier => .ok identifier
    | none => .error (.resolveFailed reference directory "path is not valid UTF-8".toList)

end FileResolver
end Stencil
