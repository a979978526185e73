import Stencil.Proofs.Hole.Uniform
import Stencil.Proofs.Table

/-! Values without braces. Main statement: among such values the tags that spare a variable and
bring in no brace of their own insulate the variable. -/
namespace Stencil

/-- A value whose text holds no brace. An object is never calm. -/
def Value.Calm (v : Value) : Prop := '{' ∉ v.text ∧ '}' ∉ v.text

namespace Value.Calm

lemma of_mem_array {items : List Value} (h : Calm (.array items)) {v : Value} (hv : v ∈ items) :
    v.Calm := by
  change '{' ∉ textItems items ∧ '}' ∉ textItems items at h
  induction items with
  | nil => cases hv
  | cons u items ih =>
    cases items with
    | nil =>
      obtain rfl := List.mem_singleton.mp hv
      exact h
    | cons u' items =>
      simp only [textItems, List.mem_append, List.mem_cons, not_or] at h
      rcases List.mem_cons.mp hv with rfl | hv
      · exact ⟨h.1.1, h.2.1⟩
      · exact ih hv ⟨h.1.2.2, h.2.2.2⟩

lemma int (n : ℤ) : Calm (.number (.int n)) := by
  have hdigits (c : Char) (hc : c.isDigit = false) (m : ℕ) : c ∉ Decimal.digitsOf m := by
    intro hmem
    rw [Nat.isDigit_of_mem_toDigits (by decide) (by decide) hmem] at hc
    cases hc
  change '{' ∉ Decimal.ofInt n ∧ '}' ∉ Decimal.ofInt n
  rw [Decimal.ofInt]
  split <;> simp [hdigits]

lemma step? {v u : Value} {segment : Text} (hv : v.Calm) (h : v.step? segment = some u) :
    u.Calm := by
  cases v with
  | object fields =>
    have : '{' ∈ (Value.object fields).text := by simp [text, Json.write]
    exact absurd this hv.1
  | array items =>
    rw [Value.step?] at h
    split at h
    · obtain rfl := Option.some.inj h
      exact int _
    · obtain ⟨i, -, hi⟩ := Option.bind_eq_some_iff.mp h
      exact hv.of_mem_array (List.mem_of_getElem? hi)
  | _ => cases h

end Value.Calm

/-- Variables with calm values only. -/
def Quiet (vars : Fields) : Prop := ∀ key v, vars.get? key = some v → v.Calm

namespace Quiet
variable {vars : Fields} (h : Quiet vars)
include h

lemma valueAt? {path : Text} {v : Value} (hv : vars.valueAt? path = some v) : v.Calm := by
  rw [Fields.valueAt?] at hv
  split at hv
  · cases hv
  · rename_i first segments _
    refine List.foldlRecOn (motive := fun v => ∀ u, v = some u → u.Calm) segments _
      (fun u hu => h first u hu) (fun v hcalm segment _ u hu => ?_) v hv
    obtain ⟨u', hu', hstep⟩ := Option.bind_eq_some_iff.mp hu
    exact (hcalm u' hu').step? hstep

lemma insert (key : Text) {v : Value} (hv : v.Calm) : Quiet (vars.insert key v) := by
  intro k u hu
  rw [Entries.get?_insert] at hu
  split at hu
  · obtain rfl := Option.some.inj hu
    exact hv
  · exact h k u hu

lemma overlay {upper : Fields} (hupper : ∀ entry ∈ upper, entry.2.Calm) :
    Quiet (vars.overlay upper) := by
  induction upper generalizing vars with
  | nil => exact h
  | cons entry upper ih =>
    refine ih (h.insert entry.1 (hupper entry List.mem_cons_self)) fun other hother => ?_
    exact hupper other (List.mem_cons_of_mem entry hother)

end Quiet

instance (v : Value) : Decidable v.Calm := inferInstanceAs (Decidable (_ ∧ _))

/-- A tag that brings in no brace of its own: loops are over paths, and fallbacks and passed
literals are calm. -/
def Tag.quiet : Tag → Bool
  | .placeholder _ (some fallback) => decide ('{' ∉ fallback ∧ '}' ∉ fallback)
  | .openFor _ source => (LoopSource.unbracket? source.trim).isNone
  | .insert _ (some literal) => (Locals.bound literal).all fun entry =>
    (Literal.scalar? entry.2).all fun v => decide v.Calm
  | _ => true

lemma Locals.calm_of_mem_read {literal : Text} {vars : Fields} (hvars : Quiet vars)
    (h : (bound literal).all (fun entry => (Literal.scalar? entry.2).all fun v => decide v.Calm)) :
    ∀ entry ∈ read literal vars, entry.2.Calm := by
  have hoperand (raw : Text) (hraw : (Literal.scalar? raw).all fun v => decide v.Calm) :
      ((Literal.operand? raw vars).getD .null).Calm := by
    rw [Literal.operand?]
    cases hscalar : Literal.scalar? raw with
    | some v =>
      rw [hscalar] at hraw
      exact of_decide_eq_true hraw
    | none =>
      cases hvalue : vars.valueAt? raw with
      | none => exact ⟨by simp [Value.text], by simp [Value.text]⟩
      | some v => exact hvars.valueAt? hvalue
  unfold read
  dsimp only
  split
  · simp
  · refine List.foldlRecOn (motive := fun acc : Fields => ∀ entry ∈ acc, entry.2.Calm) _ _ (by simp)
      fun acc hacc entry hentry other hother => ?_
    rcases Entries.mem_insert hother with hmem | heq
    · exact hacc other hmem
    · rw [heq]
      exact hoperand entry.2 (List.all_eq_true.mp h entry hentry)

/-- Quiet tags that spare `x` insulate it among calm values. -/
lemma insulates_quiet {x : Text} (hx : '.' ∉ x) :
    Insulates x (fun t => t.spares x = true ∧ t.quiet = true) Quiet where
  simple := hx
  spares _ h := h.1
  printed path fallback h vars hvars := by
    have hfallback : '{' ∉ fallback.getD [] ∧ '}' ∉ fallback.getD [] := by
      cases fallback with
      | none => simp
      | some fallback => exact of_decide_eq_true h.2
    rw [Renderer.placeholderText]
    split
    · exact hfallback
    · exact hfallback
    · rename_i v _ hv
      exact hvars.valueAt? hv
  scope_openFor item source h vars hvars items hitems v hv := by
    apply hvars.insert
    rw [LoopSource.items, LoopSource.itemsBy] at hitems
    have hpath : LoopSource.unbracket? source.trim = none := Option.isNone_iff_eq_none.mp h.2
    simp only [hpath] at hitems
    split at hitems
    · simp only [Except.ok.injEq] at hitems
      subst hitems
      cases hv
    · simp only [Except.ok.injEq] at hitems
      subst hitems
      cases hv
    · rename_i items' harray
      simp only [Except.ok.injEq] at hitems
      subst hitems
      exact (hvars.valueAt? harray).of_mem_array hv
    · cases hitems
  scope_insert reference literal h vars hvars :=
    hvars.overlay (Locals.calm_of_mem_read hvars h.2)

end Stencil
