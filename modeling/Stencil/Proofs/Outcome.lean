import Stencil.Rendering
import Mathlib

/-! Outcomes of sequences. A sequence that enters no used file ends with the error of one of its
parts or with the results of all of them. -/
namespace Stencil.Rendering
variable {α β γ : Type}

namespace Outcome

@[simp] lemma andThen_ok (a : α) (f : α → Outcome β) : andThen ⟨[], .ok a⟩ f = f a := rfl

lemma behind_andThen (used : List Text) (o : Outcome α) (f : α → Outcome β) :
    (o.behind used).andThen f = (o.andThen f).behind used := by
  rcases o with ⟨later, e | a⟩
  · rfl
  · simp [andThen, behind]

lemma andThen_assoc (o : Outcome α) (f : α → Outcome β) (g : β → Outcome γ) :
    (o.andThen f).andThen g = o.andThen fun a => (f a).andThen g := by
  rcases o with ⟨used, e | a⟩
  · rfl
  · simp only [andThen]
    exact behind_andThen used (f a) g

/-- Only what follows an actual result matters. -/
lemma andThen_congr {o : Outcome α} {f g : α → Outcome β}
    (h : ∀ a, o.result = .ok a → f a = g a) : o.andThen f = o.andThen g := by
  rcases o with ⟨used, e | a⟩
  · rfl
  · simp only [andThen, h a rfl]

lemma result_andThen {o : Outcome α} {a : α} (ho : o.result = .ok a) (f : α → Outcome β) :
    (o.andThen f).result = (f a).result := by
  obtain ⟨used, result⟩ := o
  obtain rfl : result = .ok a := ho
  rfl

lemma exists_of_result_andThen {o : Outcome α} {f : α → Outcome β} {b : β}
    (h : (o.andThen f).result = .ok b) : ∃ a, o.result = .ok a ∧ (f a).result = .ok b := by
  rcases o with ⟨used, e | a⟩
  · cases h
  · exact ⟨a, rfl, h⟩

end Outcome

/-- Texts of a list in two parts: those of the first part come first. -/
lemma run_concatMap_append (read : Text → Except Text Text) (f : α → Rendering Text)
    (as bs : List α) :
    (concatMap f (as ++ bs)).run read =
      ((concatMap f as).run read).andThen fun head =>
        ((concatMap f bs).run read).andThen fun tail => ⟨[], .ok (head ++ tail)⟩ := by
  induction as with
  | nil =>
    rcases h : (concatMap f bs).run read with ⟨used, e | s⟩ <;>
      simp [h, Outcome.andThen, Outcome.behind]
  | cons a as ih =>
    rw [List.cons_append, run_concatMap_cons, run_concatMap_cons, ih, Outcome.andThen_assoc]
    congr 1
    funext head
    simp [Outcome.andThen_assoc]

lemma exists_of_result_concatMap {read : Text → Except Text Text} {f : α → Rendering Text}
    {as : List α} {s : Text} (h : ((concatMap f as).run read).result = .ok s) :
    ∀ a ∈ as, ∃ t, ((f a).run read).result = .ok t := by
  induction as generalizing s with
  | nil => simp
  | cons a as ih =>
    rw [run_concatMap_cons] at h
    obtain ⟨head, hhead, h⟩ := Outcome.exists_of_result_andThen h
    obtain ⟨tail, htail, -⟩ := Outcome.exists_of_result_andThen h
    intro b hb
    cases hb with
    | head => exact ⟨head, hhead⟩
    | tail _ hb => exact ih htail b hb

/-- No used file is entered, and the outcome is the given result if there are no faults and one of
the faults if there are some. -/
def Ends (o : Outcome α) (faults : List TemplateError) (a : α) : Prop :=
  o.used = [] ∧
    match o.result with
    | .ok b => faults = [] ∧ b = a
    | .error e => e ∈ faults

namespace Ends
variable {o : Outcome α} {faults : List TemplateError} {a : α}

lemma done (a : α) : Ends ⟨[], .ok a⟩ [] a := ⟨rfl, rfl, rfl⟩

lemma failed (e : TemplateError) (a : α) : Ends ⟨[], .error e⟩ [e] a := ⟨rfl, by simp⟩

/-- Only which faults there are matters. -/
lemma congr {others : List TemplateError} (h : Ends o faults a)
    (hf : ∀ e, e ∈ faults ↔ e ∈ others) : Ends o others a := by
  refine ⟨h.1, ?_⟩
  have hend := h.2
  split at hend
  · obtain ⟨rfl, rfl⟩ := hend
    simp only [List.not_mem_nil, false_iff] at hf
    exact ⟨List.eq_nil_iff_forall_not_mem.mpr hf, rfl⟩
  · exact (hf _).mp hend

lemma andThen {later : List TemplateError} {b : β} {f : α → Outcome β} (ho : Ends o faults a)
    (hf : faults = [] → Ends (f a) later b) : Ends (o.andThen f) (faults ++ later) b := by
  rcases o with ⟨used, e | c⟩
  · obtain ⟨rfl, he⟩ := ho
    exact ⟨rfl, List.mem_append_left later he⟩
  · obtain ⟨rfl, rfl, rfl⟩ := ho
    exact hf rfl

lemma map {b : β} {f : α → Outcome β} (ho : Ends o faults a) (hf : f a = ⟨[], .ok b⟩) :
    Ends (o.andThen f) faults b := by
  have hdone : faults = [] → Ends (f a) [] b := fun _ => hf ▸ done b
  have := ho.andThen hdone
  rwa [List.append_nil] at this

/-- The texts of a list end as the texts of all its items do. -/
lemma concatMap {read : Text → Except Text Text} {f : β → Rendering Text} {ι : Type}
    {parts : ι → List β} {faults : ι → List TemplateError} {text : ι → Text} {is : List ι}
    (h : ∀ i ∈ is, Ends ((concatMap f (parts i)).run read) (faults i) (text i)) :
    Ends ((Rendering.concatMap f (is.flatMap parts)).run read) (is.flatMap faults)
      (is.flatMap text) := by
  induction is with
  | nil => exact done []
  | cons i is ih =>
    have hi := h i List.mem_cons_self
    have hrest := ih fun j hj => h j (List.mem_cons_of_mem i hj)
    simp only [List.flatMap_cons]
    rw [run_concatMap_append]
    exact hi.andThen fun _ => hrest.map rfl

lemma result_eq (h : Ends o [] a) : o = ⟨[], .ok a⟩ := by
  rcases o with ⟨used, e | b⟩
  · simp [Ends] at h
  · obtain ⟨rfl, -, rfl⟩ := h
    rfl

lemma exists_error (h : Ends o faults a) (hf : faults ≠ []) :
    ∃ e ∈ faults, o = ⟨[], .error e⟩ := by
  rcases o with ⟨used, e | b⟩
  · obtain ⟨rfl, he⟩ := h
    exact ⟨e, he, rfl⟩
  · exact absurd h.2.1 hf

end Ends
end Stencil.Rendering
