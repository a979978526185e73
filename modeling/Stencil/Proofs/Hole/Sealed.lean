import Stencil.Proofs.Hole
import Stencil.Proofs.Whitespace

/-! Sealed symbols: characters that are no brace, and tags that stay the tag that they are wherever
they stand. A list of them, with a value without braces in its holes, is read as it is. -/
namespace Stencil

namespace Scan

lemma ne_hole_of_mem_symbols {s : Text} {y : Symbol} (hy : y ∈ symbols s) : y ≠ hole := by
  rcases mem_symbols hy with ⟨c, rfl⟩ | ⟨d, content, rfl, -⟩
  · simp [hole]
  · simp [hole, finished]

end Scan

/-- A tag that is read alike wherever its text stands, that holds no marker and, unless white space
control is off, no line break. -/
structure SealedTag (options : WhitespaceOptions) (y : Symbol) : Prop where
  finished : ∃ d content, y = Scan.finished d content
  reads : Scan.Reads y.text [y]
  unmarked : Whitespace.Mark.scan y.text = y.text.map .char
  oneLine : options ≠ .disabled → '\n' ∉ y.text

/-- A hole, a character that is no brace, or a sealed tag. -/
def Sealed (options : WhitespaceOptions) (y : Symbol) : Prop :=
  y = hole ∨ (∃ c, y = .char c ∧ c ≠ '{' ∧ c ≠ '}') ∨ SealedTag options y

/-- A value that is plain text wherever it is put. Unless white space control is off, it is one
line, not empty, and without white space at its ends. -/
structure Inert (options : WhitespaceOptions) (w : Text) : Prop where
  no_open : '{' ∉ w
  no_close : '}' ∉ w
  solid : options ≠ .disabled → w ≠ [] ∧ '\n' ∉ w ∧ Text.IsTrimmed w

section
variable {options : WhitespaceOptions}

lemma SealedTag.ne_hole {y : Symbol} (h : SealedTag options y) : y ≠ hole := by
  obtain ⟨d, content, rfl⟩ := h.finished
  simp [hole, Scan.finished]

lemma SealedTag.text_eq {y : Symbol} (h : SealedTag options y) :
    ∃ (d : Delimiter) (content : Text), y = Scan.finished d content ∧
      y.text = '{' :: d.openChar :: content ++ [d.closeChar, '}'] := by
  obtain ⟨d, content, rfl⟩ := h.finished
  exact ⟨d, content, rfl, rfl⟩

lemma sealed_newline : Sealed options (.char '\n') := .inr (.inl ⟨'\n', rfl, by decide, by decide⟩)

variable {l : List Symbol} (hl : ∀ y ∈ l, Sealed options y) {w : Text} (hw : Inert options w)
include hl hw

/-- A filled list of sealed symbols is read as it is. -/
lemma reads_fillText : Scan.Reads (fillText w l) (fill w l) := by
  induction l with
  | nil => exact .nil
  | cons y l ih =>
    have hrest := ih fun z hz => hl z (List.mem_cons_of_mem y hz)
    rcases hl y List.mem_cons_self with rfl | ⟨c, rfl, hopen, -⟩ | htag
    · rw [fillText_hole, fill_hole]
      exact (Scan.Reads.of_not_mem hw.no_open).append hrest
    · rw [fillText_char, fill_char]
      exact (Scan.Reads.of_not_mem (s := [c]) (by simpa using Ne.symm hopen)).append hrest
    · rw [fillText_of_ne w htag.ne_hole, fill_of_ne w htag.ne_hole]
      exact htag.reads.append hrest

lemma symbols_fillText : Scan.symbols (fillText w l) = fill w l :=
  (reads_fillText hl hw).symbols_eq

lemma head?_fillText : (fillText w l).head? ≠ some '}' := by
  induction l with
  | nil => simp
  | cons y l ih =>
    have hrest := ih fun z hz => hl z (List.mem_cons_of_mem y hz)
    rcases hl y List.mem_cons_self with rfl | ⟨c, rfl, -, hclose⟩ | htag
    · rw [fillText_hole]
      cases hcase : w with
      | nil => rwa [hcase] at hrest
      | cons a v =>
        have := hw.no_close
        rw [hcase] at this
        simpa using fun ha => this (by simp [ha])
    · simpa using hclose
    · obtain ⟨d, content, -, htext⟩ := htag.text_eq
      rw [fillText_of_ne w htag.ne_hole, htext]
      simp

/-- No closer starts the text. -/
lemma not_closer_fillText {b : Char} {rest : Text} (h : fillText w l = b :: '}' :: rest) :
    Whitespace.Mark.closes b = false := by
  induction l with
  | nil => simp at h
  | cons y l ih =>
    have hl' := fun z hz => hl z (List.mem_cons_of_mem y hz)
    rcases hl y List.mem_cons_self with rfl | ⟨c, rfl, -, hclose⟩ | htag
    · rw [fillText_hole] at h
      cases hcase : w with
      | nil =>
        rw [hcase] at h
        exact ih hl' (by rw [hcase]; exact h)
      | cons a v =>
        have hno := hw.no_close
        rw [hcase] at h hno
        simp only [List.cons_append, List.cons.injEq] at h
        have hhead := head?_fillText hl' hw
        cases v with
        | nil =>
          rw [hcase] at hhead
          rw [List.nil_append] at h
          simp [h.2] at hhead
        | cons x v =>
          simp only [List.cons_append, List.cons.injEq] at h
          exact absurd (by simp [h.2.1]) hno
    · rw [fillText_char, List.cons.injEq] at h
      have := head?_fillText hl' hw
      rw [h.2] at this
      exact absurd rfl this
    · obtain ⟨d, content, -, htext⟩ := htag.text_eq
      rw [fillText_of_ne w htag.ne_hole, htext] at h
      simp only [List.cons_append, List.cons.injEq] at h
      rw [← h.1]
      rfl

end

namespace Whitespace.Mark

/-- What ends like a tag stays without markers in front of any text. -/
lemma scan_append_of_scan {s : Text} {x : Char} (hopen : x ≠ '{') (hdash : x ≠ '-')
    (h : scan (s ++ [x, '}']) = (s ++ [x, '}']).map .char) (rest : Text) :
    scan (s ++ x :: '}' :: rest) = (s ++ [x, '}']).map .char ++ scan rest := by
  induction s with
  | nil =>
    have hbrace : scan ('}' :: rest) = .char '}' :: scan rest := scan_cons (by simp) (by simp)
    rw [List.nil_append, scan_cons (by simp [hopen]) (by simp [hdash]), hbrace]
    rfl
  | cons a s ih =>
    obtain ⟨b, c, t, heq⟩ : ∃ b c t, s ++ [x, '}'] = b :: c :: t := by
      match s with
      | [] => exact ⟨x, '}', [], rfl⟩
      | [b] => exact ⟨b, x, ['}'], rfl⟩
      | b :: c :: t => exact ⟨b, c, t ++ [x, '}'], rfl⟩
    have hfront : ∃ t', s ++ x :: '}' :: rest = b :: c :: t' :=
      ⟨t ++ rest, by simpa using congrArg (· ++ rest) heq⟩
    rw [List.cons_append, heq, List.map_cons, scan] at h
    have hno : ¬(a = '{' ∧ opens b = true ∧ c = '-') ∧ ¬(a = '-' ∧ closes b = true ∧ c = '}') := by
      constructor
      · intro hmark
        rw [if_pos (by simpa [and_assoc] using hmark)] at h
        cases h
      · intro hmark
        split at h
        · cases h
        · rw [if_pos (by simpa [and_assoc] using hmark)] at h
          cases h
    rw [if_neg (by simpa [and_assoc] using hno.1), if_neg (by simpa [and_assoc] using hno.2),
      List.cons.injEq, ← heq] at h
    obtain ⟨t', ht'⟩ := hfront
    rw [List.cons_append, scan_cons, ih h.2]
    · rfl
    · rw [ht']
      rintro b' c' rest' ⟨⟩
      exact hno.1
    · rw [ht']
      rintro b' c' rest' ⟨⟩
      exact hno.2

end Whitespace.Mark

section
variable {options : WhitespaceOptions}

lemma SealedTag.scan_append {y : Symbol} (h : SealedTag options y) (rest : Text) :
    Whitespace.Mark.scan (y.text ++ rest) = y.text.map .char ++ Whitespace.Mark.scan rest := by
  have hunmarked := h.unmarked
  obtain ⟨d, content, -, htext⟩ := h.text_eq
  rw [htext] at hunmarked ⊢
  have := Whitespace.Mark.scan_append_of_scan (s := '{' :: d.openChar :: content)
    (x := d.closeChar) (by cases d <;> decide) (by cases d <;> decide) hunmarked rest
  simpa using this

/-- A text without braces is no part of a marker, also in front of a filled list. -/
lemma scan_append_fillText {l : List Symbol} (hl : ∀ y ∈ l, Sealed options y) {w : Text}
    (hw : Inert options w) {v : Text} (hopen : '{' ∉ v) (hclose : '}' ∉ v) :
    Whitespace.Mark.scan (v ++ fillText w l) =
      v.map .char ++ Whitespace.Mark.scan (fillText w l) := by
  induction v with
  | nil => rfl
  | cons a v ih =>
    simp only [List.mem_cons, not_or] at hopen hclose
    rw [List.cons_append, Whitespace.Mark.scan_cons, ih hopen.2 hclose.2]
    · rfl
    · simp [Ne.symm hopen.1]
    · rintro b c rest heq ⟨-, hb, rfl⟩
      cases v with
      | nil =>
        rw [List.nil_append] at heq
        rw [not_closer_fillText hl hw heq] at hb
        cases hb
      | cons x v =>
        rw [List.cons_append, List.cons.injEq] at heq
        cases v with
        | nil =>
          have := head?_fillText hl hw
          rw [← List.nil_append (fillText w l), heq.2] at this
          exact this rfl
        | cons z v =>
          simp only [List.cons_append, List.cons.injEq] at heq
          exact hclose.2 (by simp [heq.2.1])

/-- A filled list of sealed symbols holds no marker. -/
lemma applyMarkers_fillText {l : List Symbol} (hl : ∀ y ∈ l, Sealed options y) {w : Text}
    (hw : Inert options w) : Whitespace.applyMarkers (fillText w l) = fillText w l := by
  apply Whitespace.applyMarkers_of_scan
  induction l with
  | nil => rfl
  | cons y l ih =>
    have hl' := fun z hz => hl z (List.mem_cons_of_mem y hz)
    rcases hl y List.mem_cons_self with rfl | ⟨c, rfl, hopen, hclose⟩ | htag
    · rw [fillText_hole, scan_append_fillText hl' hw hw.no_open hw.no_close, ih hl',
        List.map_append]
    · have := scan_append_fillText hl' hw (v := [c]) (by simpa using Ne.symm hopen)
        (by simpa using Ne.symm hclose)
      rw [fillText_char, List.map_cons, ← ih hl']
      exact this
    · rw [fillText_of_ne w htag.ne_hole, htag.scan_append, ih hl', List.map_append]

end
end Stencil
