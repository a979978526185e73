import Stencil.Error

/-! A rendering as a dialogue: it ends with a result or an error, asks for the text of a template and
goes on with the answer, or enters an identifier into the set of used files. Whoever holds the
templates answers, so that one rendering can run on a store, on files or on files seen through a
cache. Loading a template does not enter it anywhere. Main statement: a sequence enters what its
first part enters and then, unless that fails, what its second part enters. -/
namespace Stencil

inductive Rendering : Type → Type 1
  | done {α : Type} (a : α) : Rendering α
  | failed {α : Type} (e : TemplateError) : Rendering α
  | load (identifier : Text) : Rendering Text
  | use (identifier : Text) : Rendering Unit
  | andThen {α β : Type} (x : Rendering α) (f : α → Rendering β) : Rendering β

namespace Rendering
variable {α β : Type}

/-- Goes on at once if there is nothing to ask. -/
@[inline] def bind : Rendering α → (α → Rendering β) → Rendering β
  | .done a, f => f a
  | .failed e, _ => .failed e
  | .load identifier, f => .andThen (.load identifier) f
  | .use identifier, f => .andThen (.use identifier) f
  | .andThen x g, f => .andThen (.andThen x g) f

instance : Monad Rendering where
  pure := .done
  bind := bind

theorem done_bind (a : α) (f : α → Rendering β) : (done a >>= f) = f a := rfl

def ofExcept : Except TemplateError α → Rendering α
  | .ok a => .done a
  | .error e => .failed e

/-- The texts that `f` makes of a list, joined in order behind a text that is given in reverse. -/
def concatMapOnto (f : α → Rendering Text) : (seen : Text) → List α → Rendering Text
  | seen, [] => .done seen.reverse
  | seen, a :: rest => (f a).bind fun text => concatMapOnto f (text.reverseAux seen) rest

/-- The texts that `f` makes of a list, joined in order. -/
def concatMap (f : α → Rendering Text) (as : List α) : Rendering Text := concatMapOnto f [] as

theorem concatMapOnto_map (f : β → Rendering Text) (g : α → β) (seen : Text) (as : List α) :
    concatMapOnto f seen (as.map g) = concatMapOnto (fun a => f (g a)) seen as := by
  induction as generalizing seen with
  | nil => rfl
  | cons a rest ih => simp only [List.map_cons, concatMapOnto, ih]

theorem concatMap_map (f : β → Rendering Text) (g : α → β) (as : List α) :
    concatMap f (as.map g) = concatMap (fun a => f (g a)) as :=
  concatMapOnto_map f g [] as

theorem concatMapOnto_congr {f g : α → Rendering Text} {as : List α}
    (h : ∀ a ∈ as, f a = g a) (seen : Text) : concatMapOnto f seen as = concatMapOnto g seen as := by
  induction as generalizing seen with
  | nil => rfl
  | cons a rest ih =>
    have hrest := ih fun b hb => h b (List.mem_cons_of_mem _ hb)
    simp only [concatMapOnto, h a List.mem_cons_self, hrest]

theorem concatMap_congr {f g : α → Rendering Text} {as : List α} (h : ∀ a ∈ as, f a = g a) :
    concatMap f as = concatMap g as :=
  concatMapOnto_congr h []

theorem concatMapOnto_pure (f : α → Text) (seen : Text) (as : List α) :
    concatMapOnto (fun a => .done (f a)) seen as = .done (seen.reverse ++ as.flatMap f) := by
  induction as generalizing seen with
  | nil => simp [concatMapOnto]
  | cons a rest ih =>
    change concatMapOnto _ ((f a).reverseAux seen) rest = _
    simp [ih]

/-- Texts that take no rendering are just joined. -/
theorem concatMap_pure (f : α → Text) (as : List α) :
    concatMap (fun a => .done (f a)) as = .done (as.flatMap f) := by
  simp [concatMap, concatMapOnto_pure]

/-- What was entered into the set of used files, in order, and how the rendering ended. -/
structure Outcome (α : Type) where
  used : List Text
  result : Except TemplateError α

namespace Outcome

/-- A further outcome behind what was entered before. -/
def behind (used : List Text) (o : Outcome α) : Outcome α := ⟨used ++ o.used, o.result⟩

@[simp] theorem behind_nil (o : Outcome α) : o.behind [] = o := rfl

@[simp] theorem result_behind (used : List Text) (o : Outcome α) :
    (o.behind used).result = o.result := rfl

/-- What comes of an outcome when `f` follows a success. -/
def andThen (o : Outcome α) (f : α → Outcome β) : Outcome β :=
  match o with
  | ⟨used, .ok a⟩ => (f a).behind used
  | ⟨used, .error e⟩ => ⟨used, .error e⟩

end Outcome

/-- Answers every question with `read`; a template that cannot be read ends the rendering. -/
def run (read : Text → Except Text Text) : {α : Type} → Rendering α → Outcome α
  | _, .done a => ⟨[], .ok a⟩
  | _, .failed e => ⟨[], .error e⟩
  | _, .load identifier =>
    match read identifier with
    | .ok content => ⟨[], .ok content⟩
    | .error reason => ⟨[], .error (.loadFailed identifier reason)⟩
  | _, .use identifier => ⟨[identifier], .ok ()⟩
  | _, .andThen x f => (x.run read).andThen fun a => (f a).run read

variable (read : Text → Except Text Text)

@[simp] theorem run_pure (a : α) : (pure a : Rendering α).run read = ⟨[], .ok a⟩ := rfl

@[simp] theorem run_done (a : α) : (done a).run read = ⟨[], .ok a⟩ := rfl

@[simp] theorem run_failed (e : TemplateError) :
    (failed e : Rendering α).run read = ⟨[], .error e⟩ := rfl

theorem run_bind (x : Rendering α) (f : α → Rendering β) :
    (x >>= f).run read = (x.run read).andThen fun a => (f a).run read := by
  cases x <;> rfl

@[simp] theorem run_use_bind (identifier : Text) (f : Unit → Rendering β) :
    (use identifier >>= f).run read = ((f ()).run read).behind [identifier] := rfl

theorem run_concatMapOnto (f : α → Rendering Text) (seen : Text) (as : List α) :
    (concatMapOnto f seen as).run read =
      ((concatMap f as).run read).andThen fun text => ⟨[], .ok (seen.reverse ++ text)⟩ := by
  induction as generalizing seen with
  | nil => simp [concatMap, concatMapOnto, Outcome.andThen]
  | cons a rest ih =>
    simp only [concatMap, concatMapOnto]
    change ((f a) >>= _).run read = (((f a) >>= _).run read).andThen _
    simp only [run_bind]
    rcases (f a).run read with ⟨used, e | text⟩
    · rfl
    · simp only [Outcome.andThen, ih (text.reverseAux seen), ih (text.reverseAux [])]
      rcases (concatMap f rest).run read with ⟨later, e | tail⟩ <;>
        simp [Outcome.behind]

@[simp] theorem run_concatMap_nil (f : α → Rendering Text) :
    (concatMap f []).run read = ⟨[], .ok []⟩ := rfl

/-- The first text comes before the others, and what it enters before what they enter. -/
theorem run_concatMap_cons (f : α → Rendering Text) (a : α) (rest : List α) :
    (concatMap f (a :: rest)).run read =
      ((f a).run read).andThen fun head =>
        ((concatMap f rest).run read).andThen fun tail => ⟨[], .ok (head ++ tail)⟩ := by
  change ((f a) >>= _).run read = _
  simp [run_bind, run_concatMapOnto]

end Rendering
end Stencil
