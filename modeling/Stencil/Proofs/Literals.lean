import Stencil.Literal
import Stencil.Proofs.Spacing

/-! Literals as they are written: a text between quotes is read as this text, a numeral as the
binary64 number nearest to it, and any other word as no literal. -/
namespace Stencil

/-- The two kinds of quote. -/
inductive Quote
  | single
  | double
deriving DecidableEq

namespace Quote

def char : Quote → Char
  | .single => '\''
  | .double => '"'

/-- The text between two quotes of this kind. -/
def wrap (q : Quote) (s : Text) : Text := q.char :: s ++ [q.char]

lemma isWhite_char (q : Quote) : Text.isWhite q.char = false := by cases q <;> decide

lemma isTrimmed_wrap (q : Quote) (s : Text) : Text.IsTrimmed (q.wrap s) :=
  Text.isTrimmed_enclosed q.isWhite_char q.isWhite_char s

end Quote

/-- An optional minus, digits, and optionally a point with digits behind it. -/
structure Numeral where
  negative : Bool
  whole : Text
  fraction : Option Text
  whole_digits : whole.isWordOf Char.isDigit = true
  fraction_digits : ∀ f ∈ fraction, Text.isWordOf Char.isDigit f = true

namespace Numeral
variable (n : Numeral)

def digits : Text := n.whole ++ (n.fraction.elim [] fun f => '.' :: f)

def text : Text := (if n.negative then ['-'] else []) ++ n.digits

/-- The number nearest to what the digits stand for. -/
def number : Binary64 :=
  .ofDecimal n.negative (Decimal.valueOfDigits (n.whole ++ n.fraction.getD []))
    (-((n.fraction.getD []).length : ℤ))

def value : Value := .ofBinary64 n.number

lemma digit_of_mem_whole {c : Char} (hc : c ∈ n.whole) : c.isDigit = true :=
  Text.of_mem_isWordOf n.whole_digits hc

lemma digit_of_mem_fraction {f : Text} (hf : n.fraction = some f) {c : Char} (hc : c ∈ f) :
    c.isDigit = true :=
  Text.of_mem_isWordOf (n.fraction_digits f hf) hc

lemma exists_cons : ∃ c rest, n.digits = c :: rest ∧ c.isDigit = true := by
  obtain ⟨c, w, hw⟩ := List.exists_cons_of_ne_nil (Text.ne_nil_of_isWordOf n.whole_digits)
  exact ⟨c, w ++ (n.fraction.elim [] fun f => '.' :: f), by rw [digits, hw]; rfl,
    n.digit_of_mem_whole (hw ▸ List.mem_cons_self)⟩

lemma mem_text {c : Char} (hc : c ∈ n.text) : c = '-' ∨ c = '.' ∨ c.isDigit = true := by
  rw [text, List.mem_append] at hc
  rcases hc with hc | hc
  · cases n.negative <;> simp_all
  · rw [digits, List.mem_append] at hc
    rcases hc with hc | hc
    · exact .inr (.inr (n.digit_of_mem_whole hc))
    · cases hf : n.fraction with
      | none => simp [hf] at hc
      | some f =>
        rw [hf, Option.elim, List.mem_cons] at hc
        rcases hc with rfl | hc
        · exact .inr (.inl rfl)
        · exact .inr (.inr (n.digit_of_mem_fraction hf hc))

/-- Without its minus a numeral starts with a digit. -/
lemma text_eq : n.negative = true ∧ n.text = '-' :: n.digits ∨
    n.negative = false ∧
      ∃ c rest, n.text = c :: rest ∧ n.digits = c :: rest ∧ c.isDigit = true := by
  rw [text]
  cases n.negative with
  | true => exact .inl ⟨rfl, rfl⟩
  | false =>
    obtain ⟨c, rest, hdigits, hc⟩ := n.exists_cons
    exact .inr ⟨rfl, c, rest, hdigits, hdigits, hc⟩

end Numeral

namespace Literal

lemma splitSign_text (n : Numeral) : Decimal.splitSign n.text = (n.negative, n.digits) := by
  rcases n.text_eq with ⟨hn, h⟩ | ⟨hn, c, rest, h, hdigits, hc⟩
  · rw [hn, h]
    rfl
  · rw [hn, h, hdigits]
    unfold Decimal.splitSign
    split
    · rename_i h
      obtain ⟨rfl, -⟩ := List.cons.inj h
      exact absurd hc (by decide)
    · rename_i h
      obtain ⟨rfl, -⟩ := List.cons.inj h
      exact absurd hc (by decide)
    · rfl

lemma span_digits {w : Text} (hw : ∀ c ∈ w, c.isDigit = true) {rest : Text}
    (hrest : ∀ c ∈ rest.head?, c.isDigit = false) : (w ++ rest).span Char.isDigit = (w, rest) := by
  have hnil : rest.takeWhile Char.isDigit = [] ∧ rest.dropWhile Char.isDigit = rest := by
    cases rest with
    | nil => exact ⟨rfl, rfl⟩
    | cons c rest => simp [hrest c rfl]
  rw [List.span_eq_takeWhile_dropWhile, List.takeWhile_append_of_pos hw,
    List.dropWhile_append_of_pos hw, hnil.1, hnil.2, List.append_nil]

lemma splitFraction_digits (n : Numeral) :
    Decimal.splitFraction (n.fraction.elim [] fun f => '.' :: f) = (n.fraction.getD [], []) := by
  cases hf : n.fraction with
  | none => rfl
  | some f =>
    have hspan : (f ++ []).span Char.isDigit = (f, []) :=
      span_digits (fun c hc => n.digit_of_mem_fraction hf hc) (by simp)
    rwa [List.append_nil] at hspan

lemma readNumeral?_text (n : Numeral) : Decimal.readNumeral? n.text = some n.number := by
  have hwhole := Text.ne_nil_of_isWordOf n.whole_digits
  have hhead : ∀ c ∈ (n.fraction.elim [] fun f => '.' :: f).head?, c.isDigit = false := by
    cases n.fraction with
    | none => simp
    | some f => simp
  have hspan := span_digits (fun c hc => n.digit_of_mem_whole hc) hhead
  have hfraction := splitFraction_digits n
  rw [← Numeral.digits] at hspan
  rw [Decimal.readNumeral?, splitSign_text]
  simp only [hspan, hfraction]
  simp [Decimal.readExponent?, hwhole, Numeral.number]

/-- The text behind a leading minus. -/
def dropMinus : Text → Text
  | '-' :: s => s
  | s => s

lemma exists_eq_dropMinus (s : Text) :
    ∃ negative : Bool, s = (if negative then ['-'] else []) ++ dropMinus s := by
  unfold dropMinus
  split
  · exact ⟨true, rfl⟩
  · exact ⟨false, rfl⟩

lemma dropMinus_text (n : Numeral) : dropMinus n.text = n.digits := by
  rcases n.text_eq with ⟨-, h⟩ | ⟨-, c, rest, h, hdigits, hc⟩
  · rw [h]
    rfl
  · rw [h, hdigits]
    unfold dropMinus
    split
    · rename_i h
      obtain ⟨rfl, -⟩ := List.cons.inj h
      exact absurd hc (by decide)
    · rfl

lemma isNumeral_eq (s : Text) : isNumeral s =
    match splitPoint (dropMinus s) with
    | (whole, some fraction) => whole.isWordOf Char.isDigit && fraction.isWordOf Char.isDigit
    | (whole, none) => whole.isWordOf Char.isDigit := rfl

lemma splitPoint_digits (n : Numeral) : splitPoint n.digits = (n.whole, n.fraction) := by
  have hpoint : ∀ c ∈ n.whole, (c == '.') = false := by
    intro c hc
    rw [beq_eq_false_iff_ne]
    rintro rfl
    exact absurd (n.digit_of_mem_whole hc) (by decide)
  rw [splitPoint, Numeral.digits]
  cases n.fraction with
  | none => rw [Option.elim, List.append_nil, Text.splitFirst?_eq_none hpoint]
  | some f => rw [Option.elim, Text.splitFirst?_append hpoint rfl]

/-- The numerals are the texts of this form. -/
lemma isNumeral_iff {s : Text} : isNumeral s = true ↔ ∃ n : Numeral, n.text = s := by
  rw [isNumeral_eq]
  constructor
  · intro h
    obtain ⟨negative, hs⟩ := exists_eq_dropMinus s
    rw [splitPoint] at h
    cases hsplit : Text.splitFirst? (· == '.') (dropMinus s) with
    | none =>
      rw [hsplit] at h
      refine ⟨⟨negative, dropMinus s, none, h, by simp⟩, ?_⟩
      rw [Numeral.text, Numeral.digits, Option.elim, List.append_nil]
      exact hs.symm
    | some parts =>
      obtain ⟨whole, fraction⟩ := parts
      rw [hsplit] at h
      obtain ⟨hwhole, hfraction⟩ := Bool.and_eq_true_iff.mp h
      obtain ⟨c, hc, hparts, -⟩ := Text.splitFirst?_eq_some hsplit
      obtain rfl : c = '.' := by simpa using hc
      refine ⟨⟨negative, whole, some fraction, hwhole, by simpa using hfraction⟩, ?_⟩
      rw [Numeral.text, Numeral.digits, Option.elim, ← hparts]
      exact hs.symm
  · rintro ⟨n, rfl⟩
    rw [dropMinus_text, splitPoint_digits]
    cases hf : n.fraction with
    | none => exact n.whole_digits
    | some f =>
      dsimp only
      rw [n.whole_digits, n.fraction_digits f hf]
      rfl

lemma ne_of_isNumeral {s : Text} (h : isNumeral s = false) (n : Numeral) : n.text ≠ s := by
  intro hn
  rw [isNumeral_iff.mpr ⟨n, hn⟩] at h
  cases h

lemma unquote?_wrap (q : Quote) (s : Text) : unquote? (q.wrap s) = some s := by
  have hlast : (q.char :: (s ++ [q.char])).getLast? = some q.char := by
    rw [← List.cons_append]
    exact List.getLast?_concat
  have hq : (q.char == '"' || q.char == '\'') = true := by cases q <;> rfl
  rw [Quote.wrap, List.cons_append, unquote?, hlast, hq]
  simp

/-- A text without a quote at its start is not quoted. -/
lemma unquote?_eq_none {s : Text} (h : ∀ q : Quote, s.head? ≠ some q.char) : unquote? s = none := by
  cases s with
  | nil => rfl
  | cons c s =>
    have hsingle : c ≠ '\'' := fun hc => h .single (congrArg some hc)
    have hdouble : c ≠ '"' := fun hc => h .double (congrArg some hc)
    simp [unquote?, hsingle, hdouble]

/-- Nor is a text of more than a quote without a quote at its end. -/
lemma unquote?_cons_eq_none {q : Quote} {s : Text} (hs : s ≠ []) (h : q.char ∉ s) :
    unquote? (q.char :: s) = none := by
  have hlast : (q.char :: s).getLast? ≠ some q.char := by
    rw [List.getLast?_cons, List.getLast?_eq_getLast_of_ne_nil hs, Option.getD_some]
    intro hq
    exact h (Option.some.inj hq ▸ List.getLast_mem hs)
  simp [unquote?, hlast]

lemma scalar?_wrap (q : Quote) (s : Text) : scalar? (q.wrap s) = some (.string s) := by
  rw [scalar?, unquote?_wrap]

lemma scalar?_numeral (n : Numeral) : scalar? n.text = some n.value := by
  have hquote : unquote? n.text = none := by
    refine unquote?_eq_none fun q hq => ?_
    rcases n.text_eq with ⟨-, h⟩ | ⟨-, c, rest, h, -, hc⟩
    · rw [h] at hq
      cases q <;> exact absurd (Option.some.inj hq) (by decide)
    · rw [h] at hq
      obtain rfl : c = q.char := Option.some.inj hq
      cases q <;> exact absurd hc (by decide)
  rw [scalar?, hquote, numeral?, if_pos (isNumeral_iff.mpr ⟨n, rfl⟩), readNumeral?_text]
  rfl

/-- A word that is neither quoted nor a numeral nor one of the constants is no literal. -/
lemma scalar?_eq_none {s : Text} (hquote : unquote? s = none)
    (hnumeral : ∀ n : Numeral, n.text ≠ s)
    (hword : s ≠ "true".toList ∧ s ≠ "false".toList ∧ s ≠ "null".toList) : scalar? s = none := by
  have hn : ¬isNumeral s = true := fun h => by
    obtain ⟨n, hn⟩ := isNumeral_iff.mp h
    exact hnumeral n hn
  rw [scalar?, hquote, numeral?, if_neg hn]
  simp only [hword, if_false]

end Literal
end Stencil
