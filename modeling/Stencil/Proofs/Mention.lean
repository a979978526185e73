import Stencil.Condition
import Stencil.Locals
import Stencil.LoopSource
import Stencil.Tag
import Mathlib

/-! Where a variable is mentioned. Main statement: what a text without the variable's name at the
head of a path makes of the variables does not depend on that variable. -/
namespace Stencil

/-- The same but for the variable `x`. -/
def AgreeOff (x : Text) (a b : Fields) : Prop := ∀ key, key ≠ x → a.get? key = b.get? key

/-- Makes no use of the variable `x`. -/
def Ignores {α : Type} (x : Text) (f : Fields → α) : Prop := ∀ a b, AgreeOff x a b → f a = f b

/-- Whether a path leads neither to the variable `x` nor into it. -/
def Text.avoids (path x : Text) : Bool := decide ((path.splitOn '.').head? ≠ some x)

lemma ignores_valueAt? {path x : Text} (h : path.avoids x = true) :
    Ignores x fun vars => vars.valueAt? path := by
  intro a b hab
  rw [Text.avoids, decide_eq_true_iff] at h
  dsimp only
  rw [Fields.valueAt?, Fields.valueAt?]
  cases hpath : path.splitOn '.' with
  | nil => rfl
  | cons first segments =>
    rw [hpath] at h
    dsimp only
    rw [hab first fun hfirst => h (by rw [hfirst]; rfl)]

lemma ignores_operand? {s x : Text} (h : s.avoids x = true) : Ignores x (Literal.operand? s) := by
  intro a b hab
  rw [Literal.operand?, Literal.operand?]
  cases Literal.scalar? s with
  | some v => rfl
  | none => exact ignores_valueAt? h a b hab

namespace Condition

/-- Whether the condition tests other variables than `x` only. -/
def avoids (x : Text) : Condition → Bool
  | .both left right | .either left right => left.avoids x && right.avoids x
  | .defined path _ | .empty path _ | .truthy path => path.avoids x
  | .compare left _ right => left.avoids x && right.avoids x
  | .constant _ => true

lemma avoids_of_joined {x : Text} {c left right : Condition}
    (hc : c = .both left right ∨ c = .either left right) (hleft : left.avoids x = true)
    (hright : right.avoids x = true) : c.avoids x = true := by
  rcases hc with rfl | rfl <;> rw [avoids, hleft, hright] <;> rfl

lemma ignores_holds {x : Text} {c : Condition} (h : c.avoids x = true) :
    Ignores x fun vars => c.holds vars := by
  intro a b hab
  dsimp only
  induction c with
  | both left right ihl ihr =>
    rw [avoids, Bool.and_eq_true] at h
    rw [holds, holds, ihl h.1, ihr h.2]
  | either left right ihl ihr =>
    rw [avoids, Bool.and_eq_true] at h
    rw [holds, holds, ihl h.1, ihr h.2]
  | defined path negated =>
    have := ignores_valueAt? h a b hab
    dsimp only at this
    rw [holds, holds, this]
  | empty path negated =>
    have := ignores_valueAt? h a b hab
    dsimp only at this
    rw [holds, holds, this]
  | compare left op right =>
    rw [avoids, Bool.and_eq_true] at h
    rw [holds, holds, ignores_operand? h.1 a b hab, ignores_operand? h.2 a b hab]
  | constant b => rfl
  | truthy path =>
    have := ignores_valueAt? h a b hab
    dsimp only at this
    rw [holds, holds, this]

end Condition

lemma ignores_conditionHolds {s x : Text} (h : (Condition.parse s).avoids x = true) :
    Ignores x (conditionHolds s) := Condition.ignores_holds h

lemma ignores_items {source x : Text} (h : source.trim.avoids x = true) :
    Ignores x (LoopSource.items source) := by
  intro a b hab
  have hvalue : a.valueAt? source.trim = b.valueAt? source.trim := ignores_valueAt? h a b hab
  unfold LoopSource.items LoopSource.itemsBy
  dsimp only
  rw [hvalue]

namespace Locals

/-- The texts of the bound values, with their keys. -/
def bound (literal : Text) : List (Text × Text) :=
  (splitBindings none false [] (stripBraces literal.trim)).filterMap splitBinding?

lemma ignores_read {literal x : Text}
    (h : (bound literal).all (fun entry => entry.2.avoids x) = true) :
    Ignores x (read literal) := by
  intro a b hab
  rw [List.all_eq_true] at h
  unfold read
  dsimp only
  split
  · rfl
  · refine List.foldl_ext _ _ _ fun acc entry hentry => ?_
    rw [ignores_operand? (h entry hentry) a b hab]

end Locals

/-- Whether the tag uses the variable `x` as a whole placeholder at most. -/
def Tag.spares (x : Text) : Tag → Bool
  | .placeholder path _ => decide (path = x) || path.avoids x
  | .openIf s | .elseIf s => (Condition.parse s).avoids x
  | .openFor _ source => source.trim.avoids x
  | .insert _ (some literal) => (Locals.bound literal).all fun entry => entry.2.avoids x
  | _ => true

end Stencil
