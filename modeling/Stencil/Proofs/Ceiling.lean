import Stencil.Proofs.Congruence
import Stencil.Proofs.Table
import Stencil.Proofs.WrittenTag

/-! The ceiling on nesting. Main statement: a rendering that ends below its ceiling ends in the
same way under every higher ceiling, and one that does not has been cut off one level below its
own ceiling. -/
namespace Stencil

namespace Rendering.Outcome
variable {α β : Type}

/-- The rendering ended at a ceiling. -/
def IsTooDeep (o : Outcome α) : Prop :=
  ∃ depth ceiling, o.result = .error (.depthExceeded depth ceiling)

/-- The outcome `o'`, which ends at no ceiling, or else the given ceiling was reached on the way
to it. -/
def CutOf (ceiling : ℕ) (o o' : Outcome α) : Prop :=
  o.result = .error (.depthExceeded (ceiling + 1) ceiling) ∨ o = o' ∧ ¬o.IsTooDeep

namespace CutOf
variable {ceiling : ℕ} {o o' : Outcome α}

lemma refl (h : ¬o.IsTooDeep) : CutOf ceiling o o := .inr ⟨rfl, h⟩

lemma done (used : List Text) (a : α) : CutOf ceiling ⟨used, .ok a⟩ ⟨used, .ok a⟩ := by
  refine refl ?_
  rintro ⟨depth, _, h⟩
  cases h

lemma andThen {f f' : α → Outcome β} (h : CutOf ceiling o o')
    (hf : ∀ a, CutOf ceiling (f a) (f' a)) : CutOf ceiling (o.andThen f) (o'.andThen f') := by
  rcases h with h | ⟨rfl, h⟩
  · obtain ⟨used, result⟩ := o
    obtain rfl : result = .error (.depthExceeded (ceiling + 1) ceiling) := h
    exact .inl rfl
  · rcases o with ⟨used, e | a⟩
    · refine .inr ⟨rfl, fun ⟨depth, c, he⟩ => h ⟨depth, c, ?_⟩⟩
      exact congrArg Except.error (Except.error.inj he)
    · rcases hf a with ha | ⟨ha, hdeep⟩
      · exact .inl ha
      · exact .inr ⟨congrArg (behind used) ha, hdeep⟩

lemma result_eq_ok {a : α} (h : CutOf ceiling o o') (ho : o.result = .ok a) :
    o'.result = .ok a := by
  rcases h with h | ⟨rfl, -⟩
  · rw [ho] at h
    cases h
  · exact ho

end CutOf
end Rendering.Outcome

open Rendering (Outcome Congruence)

/-- Renderings of which the first may reach the ceiling sooner. -/
def CutBy (read : Text → Except Text Text) (ceiling : ℕ) : Rendering.Relation :=
  fun _ x x' => Outcome.CutOf ceiling (x.run read) (x'.run read)

lemma congruence_cutBy (read : Text → Except Text Text) (ceiling : ℕ) :
    Congruence (CutBy read ceiling) where
  done a := .done [] a
  bind hx hf := by
    rw [CutBy, Rendering.run_bind, Rendering.run_bind]
    exact hx.andThen hf

namespace Renderer
variable {r : Renderer} {read : Text → Except Text Text}

/-- The resolver reports no depth of its own. -/
def ResolvesFlat (r : Renderer) : Prop :=
  ∀ resolve, r.resolver = some resolve → ∀ reference directory depth ceiling,
    resolve reference directory ≠ .error (.depthExceeded depth ceiling)

lemma resolvesFlat_inMemory (options : Options) (baseDirectory : Text) :
    ({ inMemory options with baseDirectory } : Renderer).ResolvesFlat := by
  intro resolve hresolve reference directory depth ceiling h
  obtain rfl := Option.some.inj hresolve
  cases h

def withCeiling (r : Renderer) (ceiling : ℕ) : Renderer :=
  { r with options := { r.options with maxDepth := ceiling } }

lemma not_isTooDeep_ofExcept {α : Type} {x : Except TemplateError α}
    (hx : ∀ depth ceiling, x ≠ .error (.depthExceeded depth ceiling)) :
    ¬((Rendering.ofExcept x).run read).IsTooDeep := by
  rintro ⟨depth, ceiling, h⟩
  cases x with
  | ok a => cases h
  | error e => exact hx depth ceiling h

lemma not_isTooDeep_resolve (hr : r.ResolvesFlat) (reference directory : Text) :
    ¬((r.resolve reference directory).run read).IsTooDeep := by
  unfold resolve
  split
  · rintro ⟨depth, ceiling, h⟩
    cases h
  · rename_i resolver hresolver
    exact not_isTooDeep_ofExcept (hr resolver hresolver _ _)

lemma not_isTooDeep_load (identifier : Text) :
    ¬((r.load identifier).run read).IsTooDeep := by
  rintro ⟨depth, ceiling, h⟩
  unfold load at h
  split at h
  · rw [Rendering.run] at h
    cases hread : read identifier <;> simp [hread] at h
  · cases h

lemma items_ne_depthExceeded (source : Text) (vars : Fields) (depth ceiling : ℕ) :
    LoopSource.items source vars ≠ .error (.depthExceeded depth ceiling) := by
  unfold LoopSource.items LoopSource.itemsBy
  dsimp only
  split <;> split <;> simp

/-- Only the number of levels tells renderers apart that differ in their ceilings. -/
lemma related_withCeiling (hr : r.ResolvesFlat) (read : Text → Except Text Text) (m n : ℕ) :
    Related (CutBy read m) (r.withCeiling m) (r.withCeiling n) where
  congruence := congruence_cutBy read m
  whitespace := rfl
  consult reference directory hf := by
    have hcut := congruence_cutBy read m
    refine hcut.bind ?_ fun found => hcut.bind (.done [found.1] ()) fun _ => hf found
    exact hcut.bind (.refl (not_isTooDeep_resolve hr reference directory)) fun identifier =>
      hcut.bind (.refl (not_isTooDeep_load (r := r) identifier)) fun source =>
        .done [] (identifier, source)
  items source vars := .refl (not_isTooDeep_ofExcept (items_ne_depthExceeded source vars))
  tooDeep _ := .inl rfl

/-- A higher ceiling makes a difference only for what is too deep. -/
theorem run_perform_cutOf (hr : r.ResolvesFlat) {m n : ℕ} (hmn : m ≤ n) (vars : Fields)
    (call : Call) :
    Outcome.CutOf m (((r.withCeiling m).perform vars call).run read)
      (((r.withCeiling n).perform vars call).run read) :=
  (related_withCeiling hr read m n).perform rfl hmn vars call

end Renderer

/-- Under a ceiling `m` a call that succeeds, or fails for another reason, does the same under
every higher ceiling, and a call that is cut off reports the depth `m + 1`. -/
theorem Store.perform_ceiling (store : Store) (call : Call) (vars : Fields) (options : Options)
    (baseDirectory : Text) {m n : ℕ} (hmn : m ≤ n) :
    let perform (ceiling : ℕ) :=
      store.perform call vars { options with maxDepth := ceiling } baseDirectory
    (∀ rendered, perform m = .ok rendered → perform n = .ok rendered) ∧
    (∀ e, perform m = .error e → (∀ depth ceiling, e ≠ .depthExceeded depth ceiling) →
      perform n = .error e) ∧
    ∀ depth ceiling, perform m = .error (.depthExceeded depth ceiling) →
      depth = m + 1 ∧ ceiling = m := by
  intro perform
  let r : Renderer := { Renderer.inMemory options with baseDirectory }
  have hflat : r.ResolvesFlat := Renderer.resolvesFlat_inMemory options baseDirectory
  have hcut := @Renderer.run_perform_cutOf r store.read hflat m n hmn vars call
  have hperform (ceiling : ℕ) : perform ceiling =
      Rendered.ofOutcome (((r.withCeiling ceiling).perform vars call).run store.read) := rfl
  simp only [hperform]
  rcases hcut with hcut | ⟨hcut, hdeep⟩
  · simp only [Rendered.ofOutcome, hcut, Except.map]
    refine ⟨by simp, fun e he hne => ?_, fun depth ceiling he => ?_⟩
    · exact absurd (Except.error.inj he).symm (hne _ _)
    · cases he
      exact ⟨rfl, rfl⟩
  · rw [← hcut]
    refine ⟨fun _ h => h, fun _ h _ => h, fun depth ceiling he => absurd ?_ hdeep⟩
    exact ⟨depth, ceiling, Rendered.ofOutcome_eq_error.mp he⟩

/-- A staircase that ends and one that does not. -/
def stairs : Store := .ofList
  [("up.yapl".toList, '(' :: writeTag .control "include \"floor\"".toList ++ [')']),
    ("floor.yapl".toList, "floor".toList),
    ("round.yapl".toList, '(' :: writeTag .control "include \"round\"".toList ++ [')'])]

theorem Store.perform_stairs :
    let climb (reference : Text) (ceiling : ℕ) :=
      stairs.perform (.file reference) [] { maxDepth := ceiling }
    let top : Rendered := ⟨"(floor)".toList, ["floor.yapl".toList, "up.yapl".toList]⟩
    climb "round".toList 3 = .error (.depthExceeded 4 3) ∧
      climb "up".toList 1 = .ok top ∧ climb "up".toList 100 = .ok top := by
  intro climb top
  have htop : climb "up".toList 1 = .ok top := by decide +kernel
  have hceiling := stairs.perform_ceiling (.file "up".toList) [] {} [] (show 1 ≤ 100 by decide)
  exact ⟨by decide +kernel, htop, hceiling.1 top htop⟩

end Stencil
