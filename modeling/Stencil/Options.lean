import Stencil.Whitespace.Control

/-! What can be configured about a renderer. -/
namespace Stencil

structure Options where
  /-- How many levels of expansion may nest below a template. -/
  maxDepth : Nat := 20
  /-- Appended to references that do not end with it. -/
  extension : Text := ".yapl".toList
  whitespace : WhitespaceOptions := {}
deriving DecidableEq

end Stencil
