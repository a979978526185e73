import Stencil.Proofs.Spacing
import Stencil.Proofs.Tree

/-! The tags of a written tree. Each is read back as the tag that it was written for. -/
namespace Stencil
namespace Tree

lemma Chunk.not_mem (s : Chunk) : '{' ∉ s.text := fun h => by simpa using s.literal _ h

namespace Expression
variable (e : Expression)

lemma isTrimmed : Text.IsTrimmed e.text := Text.isTrimmed_of_trim_eq e.trimmed

lemma isExpression : Tag.isExpression e.text = true := by
  have hne := e.nonempty
  have hpercent : '%' ∉ e.text := fun h => by simpa using e.literal _ h
  simp [Tag.isExpression, hne, hpercent]

/-- Words before an expression are trimmed with it. -/
lemma isTrimmed_append {c : Char} (words : Text) (hwords : words.head? = some c)
    (hc : Text.isWhite c = false) : Text.IsTrimmed (words ++ e.text) := by
  constructor
  · rw [List.head?_append, hwords]
    simpa using hc
  · intro l hl
    rw [List.getLast?_append, List.getLast?_eq_getLast_of_ne_nil e.nonempty] at hl
    apply e.isTrimmed.2
    rw [List.getLast?_eq_getLast_of_ne_nil e.nonempty]
    simpa using hl

end Expression

lemma ofControl_if (e : Expression) : Tag.ofControl ("if ".toList ++ e.text) = .openIf e.text := by
  have h := splitKeyword_append "if".toList rfl e.text
  change Tag.splitKeyword ("if ".toList ++ e.text) = _ at h
  rw [Tag.ofControl, h]
  simp [e.trimmed, e.isExpression]

lemma ofControl_elseIf (e : Expression) :
    Tag.ofControl ("elseif ".toList ++ e.text) = .elseIf e.text := by
  have h := splitKeyword_append "elseif".toList rfl e.text
  change Tag.splitKeyword ("elseif ".toList ++ e.text) = _ at h
  rw [Tag.ofControl, h]
  simp [e.trimmed, e.isExpression]

namespace Name
variable (item : Name)

lemma isWordChar {c : Char} (hc : c ∈ item.text) : Text.isWordChar c = true := by
  have h := item.word
  simp only [Text.isWordOf, Bool.and_eq_true, List.all_eq_true] at h
  exact h.2 c hc

lemma isWhite_eq_false {c : Char} (hc : c ∈ item.text) : Text.isWhite c = false :=
  Text.isWhite_of_isWordChar (item.isWordChar hc)

lemma isTrimmed_append (source : Expression) (s : Text) :
    Text.IsTrimmed (item.text ++ s ++ source.text) := by
  cases hi : item.text with
  | nil =>
    have := item.word
    simp [hi, Text.isWordOf] at this
  | cons c rest =>
    have hc : Text.isWhite c = false := item.isWhite_eq_false (by simp [hi])
    exact source.isTrimmed_append (c :: rest ++ s) rfl hc

end Name

lemma trimStart_space (s : Text) : Text.trimStart (' ' :: s) = Text.trimStart s := by
  simp [Text.trimStart, show Text.isWhite ' ' = true by decide]

lemma readLoopHeader?_eq (item : Name) (source : Expression) :
    Tag.readLoopHeader? (item.text ++ ' ' :: 'i' :: 'n' :: ' ' :: source.text) =
      some (.openFor item.text source.text) := by
  have hsplit := Text.splitFirst?_append (fun c hc => item.isWhite_eq_false hc)
    (show Text.isWhite ' ' = true by decide) ('i' :: 'n' :: ' ' :: source.text)
  have hstart : Text.trimStart ('i' :: 'n' :: ' ' :: source.text) =
      "in".toList ++ ' ' :: source.text :=
    Text.trimStart_of_head (by simp; decide)
  have hafter : Text.after? "in".toList ("in".toList ++ ' ' :: source.text) =
      some (' ' :: source.text) := Text.after?_eq_some_iff.mpr rfl
  have htrim : Text.trim (' ' :: source.text) = source.text := by
    rw [Text.trim, trimStart_space, ← Text.trim, source.trimmed]
  have hwhite : Text.startsWhite (' ' :: source.text) = true := rfl
  rw [Tag.readLoopHeader?, hsplit]
  simp only [Option.bind_eq_bind, Option.bind_some]
  rw [hstart, hafter]
  simp only [Option.bind_some]
  rw [htrim, hwhite, item.word, source.isExpression]
  rfl

lemma ofControl_for (item : Name) (source : Expression) :
    Tag.ofControl ("for ".toList ++ item.text ++ " in ".toList ++ source.text) =
      .openFor item.text source.text := by
  have h := splitKeyword_append "for".toList rfl
    (item.text ++ " in ".toList ++ source.text)
  rw [(item.isTrimmed_append source _).trim_eq] at h
  have happ : "for".toList ++ ' ' :: (item.text ++ " in ".toList ++ source.text) =
      "for ".toList ++ item.text ++ " in ".toList ++ source.text := by simp
  rw [happ] at h
  rw [Tag.ofControl, h]
  have hheader := readLoopHeader?_eq item source
  simp_all

namespace Path
variable (path : Path)

lemma mem {c : Char} (hc : c ∈ path.text) : Text.isWordChar c = true ∨ c = '.' := by
  have h := path.simple
  simp only [Text.isSimplePath, Text.isWordOf, Bool.and_eq_true, List.all_eq_true,
    Bool.or_eq_true, beq_iff_eq] at h
  exact h.2 c hc

lemma not_mem {c : Char} (h : Text.isWordChar c = false) (hdot : c ≠ '.') : c ∉ path.text := by
  intro hc
  rcases path.mem hc with hw | rfl
  · simp [h] at hw
  · exact hdot rfl

lemma isTrimmed : Text.IsTrimmed path.text := (Text.isWord_of_isSimplePath path.simple).isTrimmed

lemma ofVariable : Tag.ofVariable path.text = .placeholder path.text none := by
  have hsuper : Tag.isSuperCall path.text = false := by
    rw [Tag.isSuperCall]
    cases ha : Text.after? "super(".toList path.text with
    | none => rfl
    | some rest =>
      have := path.not_mem (c := '(') (by decide) (by decide)
      rw [Text.after?_eq_some_iff.mp ha] at this
      simp at this
  have hsplit : Text.splitFirst? (· == '|') path.text = none := by
    apply Text.splitFirst?_eq_none
    intro c hc
    have := path.not_mem (c := '|') (by decide) (by decide)
    simpa using fun hcc : c = '|' => this (hcc ▸ hc)
  simp [Tag.ofVariable, hsuper, hsplit, path.simple]

end Path

end Tree
end Stencil
