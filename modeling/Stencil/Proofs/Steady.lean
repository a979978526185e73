import Stencil.Proofs.Insulation

/-! Steady symbols: characters that are no brace, and tags that are read alike wherever they stand
and last through the preprocessing. What is made of them is read again as it stands. -/
namespace Stencil

/-- A text that holds no part of a tag. -/
def Text.IsBraceless (s : Text) : Prop := '{' ∉ s ∧ '}' ∉ s

instance : DecidablePred Text.IsBraceless :=
  fun s => inferInstanceAs (Decidable ('{' ∉ s ∧ '}' ∉ s))

/-- The rendering prints no part of a tag. -/
def Rendering.IsBraceless (read : Text → Except Text Text) (x : Rendering Text) : Prop :=
  ∀ s ∈ (x.run read).result.toOption, s.IsBraceless

instance (read : Text → Except Text Text) (x : Rendering Text) : Decidable (x.IsBraceless read) :=
  inferInstanceAs (Decidable (∀ s ∈ (x.run read).result.toOption, s.IsBraceless))

/-- The preprocessing takes away comments, and no parent is looked for below the top. -/
def Tag.Lasts (t : Tag) : Prop := Renderer.isComment t = false ∧ Renderer.isAncestry t = false

instance : DecidablePred Tag.Lasts :=
  fun t => inferInstanceAs
    (Decidable (Renderer.isComment t = false ∧ Renderer.isAncestry t = false))

def Steady (l : List Symbol) : Prop := ∀ y ∈ l, y ≠ hole ∧ Fit .disabled Tag.Lasts y

namespace Steady
variable {l m : List Symbol}

lemma subset (h : Steady m) (hsub : ∀ y ∈ l, y ∈ m) : Steady l := fun y hy => h y (hsub y hy)

lemma map_char {s : Text} (h : s.IsBraceless) : Steady (s.map .char) := by
  intro y hy
  refine ⟨?_, fit_map_char h.1 h.2 y hy⟩
  obtain ⟨c, -, rfl⟩ := List.mem_map.mp hy
  simp [hole]

lemma flatMap {α : Type} {f : α → List Symbol} {as : List α} (h : ∀ a ∈ as, Steady (f a)) :
    Steady (as.flatMap f) := by
  intro y hy
  obtain ⟨a, ha, hy⟩ := List.mem_flatMap.mp hy
  exact h a ha y hy

lemma of_isTidy {r : Renderer} (hr : r.options.whitespace = .disabled) {source : Text}
    (h : r.IsTidy Tag.Lasts source) : Steady (r.read source) := by
  intro y hy
  have hfit := h.clean y hy
  rw [hr] at hfit
  exact ⟨Scan.ne_hole_of_mem_symbols hy, hfit⟩

variable (h : Steady l)
include h

lemma fillText_eq (w : Text) : fillText w l = Symbol.textOf l := by
  rw [fillText, fill_of_forall w fun y hy => (h y hy).1]

lemma symbols_eq : Scan.symbols (Symbol.textOf l) = l := by
  have := symbols_fillText (fun y hy => (h y hy).2.sealed) (inert_letter .disabled)
  rwa [h.fillText_eq, fill_of_forall _ fun y hy => (h y hy).1] at this

lemma applyMarkers_eq : Whitespace.applyMarkers (Symbol.textOf l) = Symbol.textOf l := by
  have := applyMarkers_fillText (fun y hy => (h y hy).2.sealed) (inert_letter .disabled)
  rwa [h.fillText_eq] at this

lemma lasts {t : Tag} {y : Symbol} (hy : y ∈ l) (ht : y.tag? = some t) : t.Lasts :=
  (h y hy).2.good (h y hy).1 ht

lemma any_eq_false {p : Tag → Bool} (hp : ∀ t : Tag, t.Lasts → p t = false) :
    (l.any fun y => y.tag?.any p) = false := by
  rw [List.any_eq_false]
  intro y hy
  cases ht : y.tag? with
  | none => simp
  | some t => simp [hp t (h.lasts hy ht)]

lemma dropTags_eq : Renderer.dropTags Renderer.isAncestry l = l := by
  rw [Renderer.dropTags, h.any_eq_false fun t ht => ht.2]
  rfl

/-- A fragment of them is expanded as it stands. -/
lemma read_eq {r : Renderer} (hr : r.options.whitespace = .disabled) :
    r.read (Symbol.textOf l) = l := by
  rw [Renderer.read, Renderer.preprocess, hr, h.applyMarkers_eq, Whitespace.applyGlobal_disabled,
    h.symbols_eq, Symbol.textWithout_of_none (h.any_eq_false fun t ht => ht.1), h.symbols_eq]

lemma parent?_eq_none : Renderer.parent? l = none := by
  rw [Renderer.parent?, List.findSome?_eq_none_iff]
  intro y hy
  split
  · exact absurd (h.lasts hy rfl).2 (by simp [Renderer.isAncestry])
  · rfl

end Steady
end Stencil
