import Stencil.Proofs.Ceiling

/-! One text on several levels. A higher level gives what a level gives, and a lower level gives it
too unless it is cut off. -/
namespace Stencil

namespace Rendering
variable {α β : Type} {read : Text → Except Text Text} {faults : List TemplateError}

/-- The rendering ends with the given result, or else with one of the faults. -/
def Gives (read : Text → Except Text Text) (faults : List TemplateError) (x : Rendering α)
    (a : α) : Prop :=
  (∃ e ∈ faults, (x.run read).result = .error e) ∨ (x.run read).result = .ok a

lemma gives_nil {x : Rendering α} {a : α} : Gives read [] x a ↔ (x.run read).result = .ok a := by
  simp [Gives]

namespace Gives
variable {x : Rendering α} {a : α}

lemma of_result (h : (x.run read).result = .ok a) : Gives read faults x a := .inr h

lemma done (a : α) : Gives read faults (.done a) a := .inr rfl

/-- A rendering that succeeds has no other result. -/
lemma eq_of_result {b : α} (h : Gives read faults x a) (hb : (x.run read).result = .ok b) :
    a = b := by
  rcases h with ⟨e, -, h⟩ | h
  · rw [h] at hb
    cases hb
  · rw [h] at hb
    exact Except.ok.inj hb

lemma bind {f : α → Rendering β} {b : β} (hx : Gives read faults x a)
    (hf : Gives read faults (f a) b) : Gives read faults (x >>= f) b := by
  rw [Gives, run_bind]
  rcases hx with ⟨e, he, hx⟩ | hx
  · refine .inl ⟨e, he, ?_⟩
    rcases h : x.run read with ⟨used, result⟩
    rw [h] at hx
    obtain rfl : result = .error e := hx
    rfl
  · rw [Outcome.result_andThen hx]
    exact hf

lemma map (f : α → β) (h : Gives read faults x a) :
    Gives read faults (x >>= fun a => .done (f a)) (f a) := h.bind (.done (f a))

lemma concatMap {f : β → Rendering Text} {g : β → Text} {bs : List β}
    (h : ∀ b ∈ bs, Gives read faults (f b) (g b)) :
    Gives read faults (Rendering.concatMap f bs) (bs.flatMap g) := by
  have honto (seen : Text) :
      Gives read faults (concatMapOnto f seen bs) (seen.reverse ++ bs.flatMap g) := by
    induction bs generalizing seen with
    | nil =>
      rw [List.flatMap_nil, List.append_nil]
      exact .done _
    | cons b bs ih =>
      have hrest := ih (fun c hc => h c (List.mem_cons_of_mem b hc)) ((g b).reverseAux seen)
      rw [List.reverseAux_eq, List.reverse_append, List.reverse_reverse, List.append_assoc] at hrest
      exact (h b List.mem_cons_self).bind (by rwa [List.reverseAux_eq])
  exact honto []

/-- The texts of a list in parts. -/
lemma concatMap_flatMap {γ : Type} {f : β → Rendering Text} {parts : γ → List β} {text : γ → Text}
    {cs : List γ} (h : ∀ c ∈ cs, Gives read faults (Rendering.concatMap f (parts c)) (text c)) :
    Gives read faults (Rendering.concatMap f (cs.flatMap parts)) (cs.flatMap text) := by
  induction cs with
  | nil => exact .done []
  | cons c cs ih =>
    have hrest := ih fun d hd => h d (List.mem_cons_of_mem c hd)
    have hrun : (Rendering.concatMap f (parts c ++ cs.flatMap parts)).run read =
        (Rendering.concatMap f (parts c) >>= fun head =>
          Rendering.concatMap f (cs.flatMap parts) >>= fun tail => .done (head ++ tail)).run read := by
      simp only [run_concatMap_append, run_bind, run_done]
    rw [List.flatMap_cons, List.flatMap_cons, Gives, hrun]
    exact (h c List.mem_cons_self).bind (hrest.bind (.done _))

end Gives

/-- The text that a rendering ends with, if it succeeds. -/
def text (read : Text → Except Text Text) (x : Rendering Text) : Text :=
  (x.run read).result.toOption.getD []

lemma text_eq {x : Rendering Text} {s : Text} (h : (x.run read).result = .ok s) :
    x.text read = s := by
  rw [text, h]
  rfl

/-- The fault of a rendering that is cut off at a ceiling. -/
def cutOff (ceiling : ℕ) : TemplateError := .depthExceeded (ceiling + 1) ceiling

lemma Outcome.CutOf.gives {x x' : Rendering α} {a : α} {ceiling : ℕ}
    (h : CutOf ceiling (x.run read) (x'.run read)) (hx : (x'.run read).result = .ok a) :
    Gives read [cutOff ceiling] x a := by
  rcases h with h | ⟨h, -⟩
  · exact .inl ⟨_, List.mem_singleton_self _, h⟩
  · rw [← h] at hx
    exact .inr hx

end Rendering

open Rendering (Gives cutOff)

namespace Renderer
variable {r : Renderer}

/-- Levels of one renderer. -/
lemma related_self (hr : r.ResolvesFlat) (read : Text → Except Text Text) :
    Related (CutBy read r.options.maxDepth) r r :=
  related_withCeiling hr read r.options.maxDepth r.options.maxDepth

lemma levelsRelated_self (hr : r.ResolvesFlat) (read : Text → Except Text Text) {m n : ℕ}
    (hmn : m ≤ n) : LevelsRelated (CutBy read r.options.maxDepth) r r m n := by
  obtain ⟨gap, rfl⟩ := Nat.exists_eq_add_of_le hmn
  exact (related_self hr read).levelsRelated m gap

variable {read : Text → Except Text Text}

lemma gives_tooDeep {α : Type} (a : α) :
    Gives read [cutOff r.options.maxDepth] (r.tooDeep : Rendering α) a :=
  .inl ⟨_, List.mem_singleton_self _, rfl⟩

end Renderer
end Stencil
