import Stencil.Proofs.WrittenTag
import Stencil.Renderer

/-! Texts without trim markers. They are put together from parts that hold no marker and that
make none with what follows them, and their preprocessing leaves them as they are. -/
namespace Stencil
namespace Whitespace
namespace Mark

/-- No closer starts here, so that a dash in front makes no marker. -/
def SafeStart (s : Text) : Prop := ∀ c ∈ s.head?, closes c = false

lemma safeStart_nil : SafeStart [] := by simp [SafeStart]

lemma safeStart_cons {c : Char} (hc : closes c = false) (s : Text) : SafeStart (c :: s) := by
  simpa [SafeStart] using hc

/-- A text without markers, also in front of any text that starts with no closer. -/
structure Free (s : Text) : Prop where
  starts : ∀ rest, SafeStart rest → SafeStart (s ++ rest)
  scan_eq : ∀ rest, SafeStart rest → scan (s ++ rest) = s.map .char ++ scan rest

namespace Free

lemma nil : Free [] := ⟨fun _ h => h, fun _ _ => rfl⟩

lemma append {s t : Text} (hs : Free s) (ht : Free t) : Free (s ++ t) := by
  constructor
  · intro rest h
    rw [List.append_assoc]
    exact hs.starts _ (ht.starts rest h)
  · intro rest h
    rw [List.append_assoc, hs.scan_eq _ (ht.starts rest h), ht.scan_eq rest h, List.map_append,
      List.append_assoc]

end Free

/-- A character stands for itself when neither kind of marker begins with it. -/
lemma scan_cons {a : Char} {s : Text}
    (hopen : ∀ b c rest, s = b :: c :: rest → ¬(a = '{' ∧ opens b = true ∧ c = '-'))
    (hclose : ∀ b c rest, s = b :: c :: rest → ¬(a = '-' ∧ closes b = true ∧ c = '}')) :
    scan (a :: s) = .char a :: scan s := by
  match s with
  | [] => rfl
  | [b] => rfl
  | b :: c :: rest =>
    have ho := hopen b c rest rfl
    have hc := hclose b c rest rfl
    rw [scan]
    rw [if_neg (by simpa [and_assoc] using ho), if_neg (by simpa [and_assoc] using hc)]

/-- A plain text holds no marker when none of its characters belongs to a delimiter. -/
lemma free_of_forall {s : Text} (h : ∀ c ∈ s, c ≠ '{' ∧ closes c = false) : Free s := by
  induction s with
  | nil => exact .nil
  | cons a s ih =>
    obtain ⟨hbrace, hclose⟩ := h a List.mem_cons_self
    have hs := ih fun c hc => h c (List.mem_cons_of_mem a hc)
    constructor
    · exact fun rest _ => safeStart_cons hclose _
    · intro rest hrest
      rw [List.cons_append, scan_cons, hs.scan_eq rest hrest]
      · rfl
      · simp [hbrace]
      · intro b c tail htail
        have := hs.starts rest hrest b (by rw [htail]; rfl)
        simp [this]

/-- What stands between the delimiters of a tag, and the closer behind a space. -/
lemma scan_content {s : Text} (hopen : '{' ∉ s) (hclose : '}' ∉ s) (d : Delimiter) (rest : Text) :
    scan (s ++ ' ' :: d.closeChar :: '}' :: rest) =
      s.map .char ++ .char ' ' :: .char d.closeChar :: .char '}' :: scan rest := by
  induction s with
  | nil =>
    have hbrace : scan ('}' :: rest) = .char '}' :: scan rest := scan_cons (by simp) (by simp)
    have hchar : scan (d.closeChar :: '}' :: rest) = .char d.closeChar :: scan ('}' :: rest) :=
      scan_cons (by cases d <;> simp [Delimiter.closeChar])
        (by cases d <;> simp [Delimiter.closeChar])
    change scan (' ' :: d.closeChar :: '}' :: rest) = _
    rw [scan_cons (by simp) (by simp), hchar, hbrace]
    rfl
  | cons a s ih =>
    simp only [List.mem_cons, not_or] at hopen hclose
    rw [List.cons_append, scan_cons, ih hopen.2 hclose.2]
    · rfl
    · simp [Ne.symm hopen.1]
    · rintro b c tail htail ⟨-, hb, rfl⟩
      cases s with
      | nil =>
        simp only [List.nil_append, List.cons.injEq] at htail
        rw [← htail.1] at hb
        simp [closes] at hb
      | cons x s =>
        cases s with
        | nil => simp at htail
        | cons y s =>
          simp only [List.cons_append, List.cons.injEq] at htail
          exact hclose.2 (by simp [htail.2.1])

/-- A tag with spaces inside its delimiters holds no marker, whatever follows it. -/
lemma scan_writeTag (d : Delimiter) {s : Text} (hopen : '{' ∉ s) (hclose : '}' ∉ s)
    (rest : Text) : scan (writeTag d s ++ rest) = (writeTag d s).map .char ++ scan rest := by
  have hcontent := scan_content hopen hclose d rest
  have hspace : scan (' ' :: (s ++ ' ' :: d.closeChar :: '}' :: rest)) =
      .char ' ' :: scan (s ++ ' ' :: d.closeChar :: '}' :: rest) :=
    scan_cons (by simp) (by simp)
  have hchar : scan (d.openChar :: ' ' :: (s ++ ' ' :: d.closeChar :: '}' :: rest)) =
      .char d.openChar :: scan (' ' :: (s ++ ' ' :: d.closeChar :: '}' :: rest)) := by
    apply scan_cons
    · rintro b c tail htail ⟨-, hb, -⟩
      rw [List.cons.injEq] at htail
      rw [← htail.1] at hb
      simp [opens] at hb
    · cases d <;> simp [Delimiter.openChar]
  have hbrace : scan ('{' :: d.openChar :: ' ' :: (s ++ ' ' :: d.closeChar :: '}' :: rest)) =
      .char '{' :: scan (d.openChar :: ' ' :: (s ++ ' ' :: d.closeChar :: '}' :: rest)) := by
    apply scan_cons
    · rintro b c tail htail ⟨-, -, rfl⟩
      simp at htail
    · simp
  have happ : writeTag d s ++ rest =
      '{' :: d.openChar :: ' ' :: (s ++ ' ' :: d.closeChar :: '}' :: rest) := by simp [writeTag]
  rw [happ, hbrace, hchar, hspace, hcontent]
  simp [writeTag]

lemma free_writeTag (d : Delimiter) {s : Text} (hopen : '{' ∉ s) (hclose : '}' ∉ s) :
    Free (writeTag d s) :=
  ⟨fun _ _ => safeStart_cons (by decide) _, fun rest _ => scan_writeTag d hopen hclose rest⟩

lemma trimAfter_map_char (s : Text) : trimAfter .full (s.map .char) = s.map .char := by
  induction s with
  | nil => rfl
  | cons c s ih => rw [List.map_cons, trimAfter, ih] <;> simp

lemma trimBefore_map_char (s : Text) : trimBefore (s.map .char) = s.map .char := by
  induction s with
  | nil => rfl
  | cons c s ih =>
    have hstart : startsWithOpener (s.map .char) = false := by cases s <;> rfl
    rw [List.map_cons, trimBefore, ih, hstart, Bool.and_false]
    rfl

lemma flatMap_text_map_char (s : Text) : (s.map Mark.char).flatMap text = s := by
  induction s with
  | nil => rfl
  | cons c s ih => rw [List.map_cons, List.flatMap_cons, ih]; rfl

end Mark

lemma applyMarkers_of_scan {s : Text} (h : Mark.scan s = s.map .char) : applyMarkers s = s := by
  rw [applyMarkers, h, Mark.trimAfter_map_char, Mark.trimBefore_map_char,
    Mark.flatMap_text_map_char]

lemma Mark.Free.applyMarkers_eq {s : Text} (h : Mark.Free s) : applyMarkers s = s := by
  apply applyMarkers_of_scan
  have := h.scan_eq [] Mark.safeStart_nil
  simpa [Mark.scan] using this

@[simp] lemma applyGlobal_disabled (s : Text) : applyGlobal .disabled s = s := rfl

end Whitespace

namespace Renderer

/-- Without white space control, markers and comments a text is read as it is. -/
lemma preprocess_of_free {r : Renderer} (hr : r.options.whitespace = .disabled) {s : Text}
    (hs : Whitespace.Mark.Free s)
    (hcomment : ((Scan.symbols s).any fun y => y.tag?.any isComment) = false) :
    r.preprocess s = s := by
  rw [preprocess, hr, hs.applyMarkers_eq, Whitespace.applyGlobal_disabled,
    Symbol.textWithout_of_none hcomment, Scan.textOf_symbols]

lemma body_of_disabled {r : Renderer} (hr : r.options.whitespace = .disabled) (l : List Symbol) :
    r.body l = Symbol.textOf l := by
  rw [body, hr]
  rfl

end Renderer
end Stencil
