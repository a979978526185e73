import Stencil.Proofs.Reading

/-! Tags that are written with a space on each side of what they hold. They are read back as the
tag that their inner text makes. -/
namespace Stencil

namespace Text

lemma trimStart_of_head {s : Text} (h : ∀ c ∈ s.head?, isWhite c = false) : trimStart s = s := by
  cases s with
  | nil => rfl
  | cons c s => simp [trimStart, h c rfl]

lemma trimEnd_of_getLast {s : Text} (h : ∀ c ∈ s.getLast?, isWhite c = false) :
    trimEnd s = s := by
  unfold trimEnd
  cases hs : s.getLast? with
  | none => rfl
  | some c => simp [h c hs]

/-- Neither end of the text is white. -/
def IsTrimmed (s : Text) : Prop :=
  (∀ c ∈ s.head?, isWhite c = false) ∧ ∀ c ∈ s.getLast?, isWhite c = false

lemma IsTrimmed.trim_eq {s : Text} (h : IsTrimmed s) : s.trim = s := by
  rw [trim, trimStart_of_head h.1, trimEnd_of_getLast h.2]

lemma head?_trimStart (s : Text) : ∀ c ∈ (trimStart s).head?, isWhite c = false := by
  intro c hc
  have := List.head?_dropWhile_not isWhite s
  unfold trimStart at hc
  rw [Option.mem_def.mp hc] at this
  simpa using this

lemma getLast?_trimEnd (s : Text) : ∀ c ∈ (trimEnd s).getLast?, isWhite c = false := by
  intro c hc
  rw [trimEnd_eq, List.getLast?_reverse] at hc
  exact head?_trimStart s.reverse c hc

lemma isTrimmed_of_trim_eq {s : Text} (h : s.trim = s) : IsTrimmed s := by
  constructor
  · intro c hc
    have hlen : (trimStart s).length = s.length := by
      have h1 := length_trimEnd_le (trimStart s)
      have h2 := length_trimStart_le s
      have h3 := congrArg List.length h
      unfold trim at h3
      omega
    have heq : trimStart s = s := (List.dropWhile_suffix isWhite).eq_of_length hlen
    rw [← heq] at hc
    exact head?_trimStart s c hc
  · intro c hc
    rw [← h] at hc
    exact getLast?_trimEnd _ c hc

/-- A text between two spaces loses them. -/
lemma trim_between_spaces {s : Text} (h : IsTrimmed s) : Text.trim (' ' :: s ++ [' ']) = s := by
  have hstart : trimStart (' ' :: s ++ [' ']) = trimStart (s ++ [' ']) := by
    simp [trimStart, show isWhite ' ' = true by decide]
  rw [trim, hstart]
  cases s with
  | nil => decide
  | cons c s =>
    rw [trimStart_of_head (by simpa using h.1), trimEnd_eq]
    have := trimEnd_of_getLast h.2
    rw [trimEnd_eq] at this
    simpa [show isWhite ' ' = true by decide] using this

/-- A text is split at the first accepted character. -/
lemma splitFirst?_append {p : Char → Bool} {a : Text} (ha : ∀ c ∈ a, p c = false) {c : Char}
    (hc : p c = true) (b : Text) : splitFirst? p (a ++ c :: b) = some (a, b) := by
  induction a with
  | nil => simp [splitFirst?, hc]
  | cons d a ih =>
    simp only [List.cons_append, splitFirst?, ha d List.mem_cons_self]
    rw [ih fun x hx => ha x (List.mem_cons_of_mem d hx)]
    rfl

lemma splitFirst?_eq_none {p : Char → Bool} {s : Text} (h : ∀ c ∈ s, p c = false) :
    splitFirst? p s = none := by
  induction s with
  | nil => rfl
  | cons c s ih =>
    simp [splitFirst?, h c List.mem_cons_self, ih fun x hx => h x (List.mem_cons_of_mem c hx)]

lemma toNat_of_isWordChar {c : Char} (h : isWordChar c = true) : 48 ≤ c.toNat ∧ c.toNat < 0x80 := by
  simp only [isWordChar, Char.isAlphanum, Char.isAlpha, Char.isUpper, Char.isLower, Char.isDigit,
    Bool.or_eq_true, Bool.and_eq_true, decide_eq_true_eq, beq_iff_eq, ge_iff_le,
    UInt32.le_iff_toNat_le, ← Char.toNat_val] at h ⊢
  rcases h with ((⟨h1, h2⟩ | ⟨h1, h2⟩) | ⟨h1, h2⟩) | rfl
  all_goals simp at *
  all_goals omega

lemma isWhite_of_isWordChar {c : Char} (h : isWordChar c = true) : isWhite c = false := by
  obtain ⟨hlow, hhigh⟩ := toNat_of_isWordChar h
  have hspace : c ≠ ' ' := by
    rintro rfl
    simp at hlow
  simp [isWhite, hhigh, hspace]
  omega

end Text

/-- A tag with one space on each side of what it holds. -/
def writeTag (d : Delimiter) (inner : Text) : Text :=
  '{' :: d.openChar :: ' ' :: inner ++ [' ', d.closeChar, '}']

lemma splitKeyword_append (word : Text) (hw : word.any Text.isWhite = false) (rest : Text) :
    Tag.splitKeyword (word ++ ' ' :: rest) = (word, rest.trim) := by
  have hnone : ∀ c ∈ word, Text.isWhite c = false := by simpa using hw
  rw [Tag.splitKeyword, Text.splitFirst?_append hnone (by decide)]

def tagSymbol (d : Delimiter) (inner : Text) : Symbol := Scan.finished d (' ' :: inner ++ [' '])

@[simp] lemma text_tagSymbol (d : Delimiter) (inner : Text) :
    (tagSymbol d inner).text = writeTag d inner := by
  simp [tagSymbol, Scan.finished, Symbol.text, writeTag]

lemma tagSymbol_control {inner : Text} (h : Text.IsTrimmed inner) :
    tagSymbol .control inner = .tag (Tag.ofControl inner) (writeTag .control inner) := by
  rw [← text_tagSymbol, tagSymbol, Scan.finished, Tag.ofContent, Text.trim_between_spaces h]
  rfl

lemma tagSymbol_value {inner : Text} (h : Text.IsTrimmed inner) :
    tagSymbol .value inner = .tag (Tag.ofVariable inner) (writeTag .value inner) := by
  rw [← text_tagSymbol, tagSymbol, Scan.finished, Tag.ofContent, Text.trim_between_spaces h]
  rfl

lemma reads_writeTag (d : Delimiter) (inner : Text) (h : '}' ∉ inner) :
    Scan.Reads (writeTag d inner) [tagSymbol d inner] := by
  rw [← text_tagSymbol]
  exact Scan.Reads.finished d (by simpa using h)

end Stencil
