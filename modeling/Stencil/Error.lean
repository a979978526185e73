import Stencil.Decimal

/-! Why a rendering or its set-up fails. Every message starts with the code of its cause. -/
namespace Stencil

inductive ConfigFault
  | unreadable (path reason : Text)
  | malformed

inductive TemplateError
  | depthExceeded (depth ceiling : Nat)
  | resolveFailed (reference directory reason : Text)
  | pathEscape (reference base : Text)
  | loadFailed (identifier reason : Text)
  | noResolver
  | noLoader
  | typeMismatch (expression found : Text)
  | configInvalid (fault : ConfigFault)

def ConfigFault.message : ConfigFault → Text
  | .unreadable path reason => "cannot read ".toList ++ path ++ ": ".toList ++ reason
  | .malformed => "TOML error: not a valid configuration".toList

namespace TemplateError

def code : TemplateError → Text
  | .depthExceeded .. => "DEPTH_EXCEEDED".toList
  | .resolveFailed .. => "RESOLVE_FAILED".toList
  | .pathEscape .. => "PATH_ESCAPE".toList
  | .loadFailed .. => "LOAD_FAILED".toList
  | .noResolver => "NO_RESOLVER".toList
  | .noLoader => "NO_LOADER".toList
  | .typeMismatch .. => "TYPE_MISMATCH".toList
  | .configInvalid _ => "CONFIG_INVALID".toList

def detail : TemplateError → Text
  | .depthExceeded depth ceiling =>
    "max template depth exceeded (depth ".toList ++ Decimal.digitsOf depth ++ " > ".toList
      ++ Decimal.digitsOf ceiling ++ ", possible recursion)".toList
  | .resolveFailed reference directory reason =>
    "cannot resolve '".toList ++ reference ++ "' from '".toList ++ directory ++ "': ".toList
      ++ reason
  | .pathEscape reference base =>
    "path '".toList ++ reference ++ "' escapes base directory '".toList ++ base ++ ['\'']
  | .loadFailed identifier reason =>
    "failed to load '".toList ++ identifier ++ "': ".toList ++ reason
  | .noResolver =>
    "no resolver configured, file-based directives are not available".toList
  | .noLoader => "no loader configured, file-based directives are not available".toList
  | .typeMismatch expression found =>
    "for loop iterable '".toList ++ expression ++ "' must be an array, got: ".toList ++ found
  | .configInvalid fault => fault.message

def message (e : TemplateError) : Text := e.code ++ ": ".toList ++ e.detail

end TemplateError
end Stencil
