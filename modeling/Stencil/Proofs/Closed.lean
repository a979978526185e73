import Stencil.Proofs.Reading

/-! Closed texts: the scan of such a text comes to its end in plain text, and every opener that it
meets has a closer. Main statement: when closed texts take the place of tags in a closed text, the
scanner finds the symbols of the parts. -/
namespace Stencil

namespace Scan

deriving instance DecidableEq for Hopeless, State

/-- The state in which a scan comes to its end, with the kinds of tag that have turned out to be
hopeless. A budget that runs out leaves nothing. -/
def lastFrom : (budget : ℕ) → Hopeless → State → Text → Option (Hopeless × State)
  | 0, _, _, _ => none
  | n + 1, h, state, rest =>
    match next h state rest with
    | (_, none) => some (h, state)
    | (_, some (h', state', rest')) => lastFrom n h' state' rest'

end Scan

/-- The scan ends in plain text, so neither in a tag nor behind a brace, and has not turned back
at an opener without a closer. -/
def Text.IsClosed (s : Text) : Prop :=
  Scan.lastFrom (Scan.budget s) {} .plain s = some ({}, .plain)

instance : DecidablePred Text.IsClosed := fun s =>
  inferInstanceAs (Decidable (Scan.lastFrom (Scan.budget s) {} .plain s = some ({}, .plain)))

namespace Scan

/-- A closed text, by what the scanner reads: plain characters, of which a brace has another plain
character behind it, and tags. -/
inductive Closed : Text → Prop
  | nil : Closed []
  | char {c s} (hc : c ≠ '{') (h : Closed s) : Closed (c :: s)
  | brace {c s} (hc : Delimiter.ofOpenChar? c = none) (h : Closed (c :: s)) : Closed ('{' :: c :: s)
  | tag {s d content after} (htag : leadingTag? s = some (d, content, after)) (h : Closed after) :
    Closed s

section
variable {h h' : Hopeless} {state state' : State} {rest : Text} {n : ℕ}

/-- No kind that is hopeless gets hope again. -/
lemma Step.has_of_has {rest' : Text} {found : List Symbol}
    (hstep : Step h state rest found h' state' rest') {d : Delimiter} (hd : h.has d = true) :
    h'.has d = true := by
  cases hstep with
  | insideEnd | closingEnd => rw [Hopeless.has_add, hd, Bool.true_or]
  | _ => exact hd

lemma has_of_lastFrom (hlast : lastFrom n h state rest = some (h', state')) {d : Delimiter}
    (hd : h.has d = true) : h'.has d = true := by
  induction n generalizing h state rest with
  | zero => cases hlast
  | succ n ih =>
    rw [lastFrom] at hlast
    rcases hnext : next h state rest with ⟨found, _ | ⟨h'', state'', rest''⟩⟩
    · rw [hnext] at hlast
      cases hlast
      exact hd
    · rw [hnext] at hlast
      exact ih hlast ((step_of_next hnext).has_of_has hd)

/-- What a state says of the rest when the scan ends in plain text without turning back. -/
def State.Ends (rest : Text) : State → Prop
  | .plain => Closed rest
  | .brace => Closed ('{' :: rest)
  | .inside d _ _ => ∃ content after, splitCloser? d rest = some (content, after) ∧ Closed after
  | .closing d _ _ =>
    ∃ content after, splitCloser? d (d.closeChar :: rest) = some (content, after) ∧ Closed after

lemma State.Ends.of_step {rest' : Text} {found : List Symbol}
    (hstep : Step h state rest found h' state' rest') (hh : h = {}) (hh' : h' = {})
    (hends : state'.Ends rest') : state.Ends rest := by
  cases hstep with
  | char hc => exact .char hc hends
  | brace => exact hends
  | @lone rest c hc =>
    refine .brace (Option.eq_none_iff_forall_ne_some.mpr fun d hd => ?_) hends
    have := hc d (Delimiter.ofOpenChar?_eq_some_iff.mp hd)
    rw [hh] at this
    cases d <;> cases this
  | @opener _ d hd =>
    obtain ⟨content, after, hsplit, hafter⟩ := hends
    have htag : leadingTag? ('{' :: d.openChar :: rest') = some (d, content, after) := by
      rw [leadingTag?_opener, hsplit]
      rfl
    exact .tag htag hafter
  | @content _ d content resume c hc =>
    obtain ⟨more, after, hsplit, hafter⟩ := hends
    refine ⟨c :: more, after, ?_, hafter⟩
    rw [splitCloser?_cons (.inl hc), hsplit]
    rfl
  | closer => exact hends
  | @tag _ d content resume => exact ⟨[], rest', splitCloser?_closer d rest', hends⟩
  | @noCloser _ d content resume c hc =>
    obtain ⟨more, after, hsplit, hafter⟩ := hends
    refine ⟨d.closeChar :: more, after, ?_, hafter⟩
    rw [splitCloser?_cons (.inr (by simpa using hc)), hsplit]
    rfl
  | @insideEnd d _ _ | @closingEnd d _ _ =>
    subst hh
    cases d <;> cases hh'

lemma ends_of_lastFrom (hlast : lastFrom n {} state rest = some ({}, .plain)) :
    state.Ends rest := by
  induction n generalizing state rest with
  | zero => cases hlast
  | succ n ih =>
    rw [lastFrom] at hlast
    rcases hnext : next {} state rest with ⟨found, _ | ⟨h', state', rest'⟩⟩
    · rw [hnext] at hlast
      cases hlast
      cases rest with
      | nil => exact .nil
      | cons c rest =>
        simp only [next] at hnext
        split at hnext <;> cases hnext
    · rw [hnext] at hlast
      -- what has turned out hopeless would be so at the end
      obtain rfl : h' = {} := by
        have hnone (d : Delimiter) : h'.has d = false := by
          refine Bool.eq_false_iff.mpr fun hd => ?_
          have := has_of_lastFrom hlast hd
          cases d <;> cases this
        obtain ⟨value, control, comment⟩ := h'
        exact congr (congrArg₂ Hopeless.mk (hnone .value) (hnone .control)) (hnone .comment)
      exact .of_step (step_of_next hnext) rfl rfl (ih hlast)

end

end Scan

lemma Text.IsClosed.closed {s : Text} (h : s.IsClosed) : Scan.Closed s := Scan.ends_of_lastFrom h

namespace Scan

/-- A brace in front of a character that opens no tag is plain. -/
lemma leadingTag?_brace {c : Char} (hc : Delimiter.ofOpenChar? c = none) (s : Text) :
    leadingTag? ('{' :: c :: s) = none := by
  rw [leadingTag?, hc]
  rfl

lemma ne_brace_of_ofOpenChar? {c : Char} (hc : Delimiter.ofOpenChar? c = none) : c ≠ '{' := by
  rintro rfl
  cases hc

lemma symbols_brace {c : Char} (hc : Delimiter.ofOpenChar? c = none) (s : Text) :
    symbols ('{' :: c :: s) = .char '{' :: symbols (c :: s) := by
  rw [symbols_eq_leftmost, leftmost_of_char (leadingTag?_brace hc s), symbols_eq_leftmost]

lemma symbols_of_leadingTag? {s content after : Text} {d : Delimiter}
    (h : leadingTag? s = some (d, content, after)) :
    symbols s = finished d content :: symbols after := by
  rw [symbols_eq_leftmost, leftmost_of_tag h, symbols_eq_leftmost]

namespace Closed
variable {s t : Text}

lemma append (hs : Closed s) (ht : Closed t) : Closed (s ++ t) := by
  induction hs with
  | nil => exact ht
  | char hc _ ih => exact .char hc ih
  | brace hc _ ih => exact .brace hc ih
  | tag htag _ ih => exact .tag (leadingTag?_append htag t) ih

/-- A closed text is read alike in front of any text. -/
lemma reads (h : Closed s) : Reads s (symbols s) := by
  intro rest
  induction h with
  | nil => rfl
  | @char c s hc _ ih =>
    rw [List.cons_append, symbols_cons_of_ne hc, symbols_cons_of_ne hc, ih]
    rfl
  | @brace c s hc _ ih =>
    rw [List.cons_append] at ih
    rw [List.cons_append, List.cons_append, symbols_brace hc, symbols_brace hc, ih]
    rfl
  | @tag s d content after htag _ ih =>
    rw [symbols_of_leadingTag? (leadingTag?_append htag rest), symbols_of_leadingTag? htag, ih]
    rfl

end Closed
end Scan

namespace Scan

/-- What becomes of symbols when tags are kept or have closed texts in their place: the new text,
and the symbols of its parts. -/
inductive Splices : List Symbol → Text → List Symbol → Prop
  | nil : Splices [] [] []
  | char (c : Char) {l s m} (h : Splices l s m) : Splices (.char c :: l) (c :: s) (.char c :: m)
  | keep (t : Tag) (written : Text) {l s m} (h : Splices l s m) :
    Splices (.tag t written :: l) (written ++ s) (.tag t written :: m)
  | put (t : Tag) (written : Text) {r l s m} (hr : Closed r) (h : Splices l s m) :
    Splices (.tag t written :: l) (r ++ s) (symbols r ++ m)

/-- When closed texts take the place of tags in a closed text, the result is closed, and the scanner
finds the symbols of the parts in it. -/
lemma Closed.splice {s s' : Text} {m : List Symbol} (hs : Closed s)
    (h : Splices (symbols s) s' m) : Closed s' ∧ symbols s' = m := by
  induction hs generalizing s' m with
  | nil =>
    rw [symbols_nil] at h
    cases h
    exact ⟨.nil, symbols_nil⟩
  | char hc _ ih =>
    rw [symbols_cons_of_ne hc] at h
    cases h with
    | char _ h =>
      obtain ⟨hclosed, rfl⟩ := ih h
      exact ⟨.char hc hclosed, symbols_cons_of_ne hc _⟩
  | brace hc _ ih =>
    rw [symbols_brace hc] at h
    rw [symbols_cons_of_ne (ne_brace_of_ofOpenChar? hc)] at h ih
    cases h with
    | char _ h =>
      cases h with
      | char _ h =>
        obtain ⟨hclosed, hsymbols⟩ := ih (.char _ h)
        exact ⟨.brace hc hclosed, by rw [symbols_brace hc, hsymbols]⟩
  | @tag s d content after htag _ ih =>
    rw [symbols_of_leadingTag? htag] at h
    cases h with
    | keep _ _ h =>
      obtain ⟨hclosed, rfl⟩ := ih h
      have hleading := leadingTag?_finished htag
      exact ⟨.tag (hleading _) hclosed, symbols_of_leadingTag? (hleading _)⟩
    | put _ _ hr h =>
      obtain ⟨hclosed, rfl⟩ := ih h
      exact ⟨hr.append hclosed, hr.reads _⟩

end Scan

/-- Puts symbols in the place of the tags for which `f` has a text. -/
def Symbol.graft (f : Tag → Option Text) : Symbol → List Symbol
  | .char c => [.char c]
  | .tag t written => ((f t).map Scan.symbols).getD [.tag t written]

namespace Scan
variable {f : Tag → Option Text}

lemma splices_replace (hf : ∀ tag, ∀ t ∈ f tag, Closed t) (l : List Symbol) :
    Splices l (Symbol.replace f l) (l.flatMap (Symbol.graft f)) := by
  induction l with
  | nil => exact .nil
  | cons y l ih =>
    cases y with
    | char c => exact .char c ih
    | tag t written =>
      rw [Symbol.replace, List.flatMap_cons, Symbol.graft]
      cases h : f t with
      | none => exact .keep t written ih
      | some r => exact .put t written (hf t r h) ih

namespace Closed
variable {s : Text}

lemma replace (hs : Closed s) (hf : ∀ tag, ∀ t ∈ f tag, Closed t) :
    Closed (Symbol.replace f (symbols s)) :=
  (hs.splice (splices_replace hf _)).1

lemma symbols_replace (hs : Closed s) (hf : ∀ tag, ∀ t ∈ f tag, Closed t) :
    symbols (Symbol.replace f (symbols s)) = (symbols s).flatMap (Symbol.graft f) :=
  (hs.splice (splices_replace hf _)).2

end Closed
end Scan

end Stencil
