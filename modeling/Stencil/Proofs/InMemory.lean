import Stencil.Renderer
import Stencil.Store

/-! Rendering of templates that are held in memory. -/
namespace Stencil

deriving instance DecidableEq for ConfigFault
deriving instance DecidableEq for TemplateError
deriving instance DecidableEq for Rendered

/-- What a renderer is asked for: a text, whose references start from a directory or else from the
base directory, or the template that a reference means there. -/
inductive Call
  | text (source : Text) (directory : Option Text)
  | file (reference : Text)

def Renderer.perform (r : Renderer) (vars : Fields) : Call → Rendering Text
  | .text source directory => r.renderText source vars directory
  | .file reference => r.renderFile reference vars

/-- A renderer whose references mean the templates of a store. -/
def Renderer.inMemory (options : Options := {}) : Renderer where
  options := options
  resolver := some fun reference directory => .ok (Store.resolve reference directory)
  hasLoader := true

namespace Rendered
variable {o : Rendering.Outcome Text}

theorem ofOutcome_eq_ok {content : Text} {files : List Text} :
    ofOutcome o = .ok ⟨content, files⟩ ↔ o.result = .ok content ∧ sorted o.used = files := by
  obtain ⟨used, e | s⟩ := o <;> simp [ofOutcome, Except.map]

theorem ofOutcome_eq_error {e : TemplateError} :
    ofOutcome o = .error e ↔ o.result = .error e := by
  obtain ⟨used, e' | s⟩ := o <;> simp [ofOutcome, Except.map]

end Rendered

namespace Store

/-- The rendering of a text among the templates of a store. -/
def render (store : Store) (template : Text) (vars : Fields := [])
    (options : Options := {}) : Except TemplateError Rendered :=
  Rendered.ofOutcome (((Renderer.inMemory options).renderText template vars none).run store.read)

/-- The rendering of a template of the store. -/
def renderFile (store : Store) (reference : Text) (vars : Fields := [])
    (options : Options := {}) : Except TemplateError Rendered :=
  Rendered.ofOutcome (((Renderer.inMemory options).renderFile reference vars).run store.read)

/-- Any call on the templates of a store, by a renderer with the given base directory. -/
def perform (store : Store) (call : Call) (vars : Fields := []) (options : Options := {})
    (baseDirectory : Text := []) : Except TemplateError Rendered :=
  let r : Renderer := { Renderer.inMemory options with baseDirectory }
  Rendered.ofOutcome ((r.perform vars call).run store.read)

end Store
end Stencil
