import Stencil.Proofs.Condition.Quotes
import Stencil.Tag

/-! The tags that a text is read as. Only the delimiters of comments make a comment, and no tag
that is read mentions a variable whose name begins with white space. -/
namespace Stencil

open Grammar (eq_or_append_of_head?_splitOn)

namespace Text

/-- The head of a path that does not begin with white space is not a blank. -/
lemma avoids_blank {path : Text} (h : path.startsWhite = false) : path.avoids [' '] = true := by
  rw [avoids, decide_eq_true_iff]
  intro hhead
  rcases eq_or_append_of_head?_splitOn hhead with rfl | ⟨rest, rfl⟩
  · exact absurd h (by decide)
  · exact absurd h (by simp [startsWhite, show isWhite ' ' = true by decide])

lemma IsTrimmed.startsWhite_eq {s : Text} (h : IsTrimmed s) : s.startsWhite = false := by
  cases s with
  | nil => rfl
  | cons c s => exact h.1 c rfl

lemma avoids_blank_trim (s : Text) : s.trim.avoids [' '] = true :=
  avoids_blank (isTrimmed_trim s).startsWhite_eq

lemma avoids_blank_of_isSimplePath {path : Text} (h : path.isSimplePath = true) :
    path.avoids [' '] = true :=
  avoids_blank (isWord_of_isSimplePath h).isTrimmed.startsWhite_eq

end Text

namespace Condition

lemma exists_trim_of_splitComparison? {s l r : Text} {op : Comparison}
    (h : splitComparison? s = some (l, op, r)) : ∃ t : Text, r = t.trim := by
  obtain ⟨behind, -, hbehind⟩ := exists_of_splitComparison? h
  obtain ⟨rest, -, hr⟩ := exists_of_operatorAt? hbehind
  exact ⟨rest, hr⟩

lemma avoids_blank_parseAtom {s : Text} (hs : s.startsWhite = false) :
    (parseAtom s).avoids [' '] = true := by
  have htest {test path : Text} {negated : Bool}
      (h : splitTest? test s = some (path, negated)) : path.avoids [' '] = true := by
    obtain ⟨g, negation, last, rfl, -⟩ := exists_of_splitTest? h
    cases path with
    | nil => exact Text.avoids_blank rfl
    | cons c path => exact Text.avoids_blank hs
  rw [parseAtom]
  split
  · exact htest ‹_›
  · split
    · exact htest ‹_›
    · split
      · rename_i l op r hsplit
        obtain ⟨t, rfl⟩ := exists_trim_of_splitComparison? hsplit
        rw [avoids, Text.avoids_blank_trim, Text.avoids_blank_trim]
        rfl
      · split_ifs
        · rfl
        · rfl
        · exact Text.avoids_blank hs
        · rfl

/-- The parts of a condition are trimmed before they are read. -/
lemma avoids_blank_parse (s : Text) : (parse s).avoids [' '] = true := by
  induction s using parse_induction with
  | joined keyword s l r _ hparse ihl ihr => exact avoids_of_joined hparse ihl ihr
  | atom s _ _ hparse =>
    rw [hparse]
    exact avoids_blank_parseAtom (Text.isTrimmed_trim s).startsWhite_eq

end Condition

lemma Locals.avoids_blank_of_mem_bound {literal : Text} :
    ∀ entry ∈ bound literal, entry.2.avoids [' '] = true := by
  intro entry hentry
  obtain ⟨binding, -, h⟩ := List.mem_filterMap.mp hentry
  obtain ⟨⟨rawKey, rawValue⟩, -, h⟩ := Option.bind_eq_some_iff.mp h
  obtain ⟨key, -, h⟩ := Option.bind_eq_some_iff.mp h
  split at h
  · cases h
    exact Text.avoids_blank_trim rawValue
  · cases h

namespace Tag

/-- A tag that stands between the delimiters of control tags. -/
def isControl : Tag → Bool
  | .placeholder .. | .superCall | .comment => false
  | _ => true

lemma isControl_getD {t : Option Tag} (h : ∀ u ∈ t, u.isControl = true) :
    (t.getD .other).isControl = true := by
  cases t with
  | none => rfl
  | some u => exact h u rfl

lemma isControl_of_readLoopHeader? {s : Text} {t : Tag} (h : t ∈ readLoopHeader? s) :
    t.isControl = true := by
  obtain ⟨⟨item, tail⟩, -, h⟩ := Option.bind_eq_some_iff.mp h
  obtain ⟨source, -, h⟩ := Option.bind_eq_some_iff.mp h
  split at h
  · cases h
    rfl
  · cases h

lemma isControl_of_readInsert? {s : Text} {t : Tag} (h : t ∈ readInsert? s) :
    t.isControl = true := by
  obtain ⟨⟨reference, tail⟩, -, h⟩ := Option.bind_eq_some_iff.mp h
  change (if tail.isEmpty then _ else _) = some t at h
  split at h
  · cases h
    rfl
  · obtain ⟨object, -, h⟩ := Option.bind_eq_some_iff.mp h
    dsimp only at h
    split at h
    · cases h
      rfl
    · cases h

lemma isControl_of_readInherit? {s : Text} {t : Tag} (h : t ∈ readInherit? s) :
    t.isControl = true := by
  rw [readInherit?, Option.mem_def] at h
  split at h
  · cases h
    rfl
  · cases h

lemma isControl_ite {c : Prop} [Decidable c] {a b : Tag} (ha : a.isControl = true)
    (hb : b.isControl = true) : (if c then a else b).isControl = true := by
  split <;> assumption

lemma isControl_ofControl (s : Text) : (ofControl s).isControl = true := by
  have hloop (s : Text) := isControl_getD fun t => @isControl_of_readLoopHeader? s t
  have hinsert (s : Text) := isControl_getD fun t => @isControl_of_readInsert? s t
  have hinherit (s : Text) := isControl_getD fun t => @isControl_of_readInherit? s t
  unfold ofControl
  obtain ⟨keyword, rest⟩ := splitKeyword s
  dsimp only
  repeat' refine isControl_ite ?_ ?_
  all_goals first | rfl | apply_assumption

/-- What stands between the delimiters of values is a call of the inherited block, a placeholder
for a simple path, or nothing that is known. -/
lemma ofVariable_cases (s : Text) : ofVariable s = .superCall ∨ ofVariable s = .other ∨
    ∃ path fallback, ofVariable s = .placeholder path fallback ∧ path.isSimplePath = true := by
  rw [ofVariable]
  split
  · exact .inl rfl
  · split
    · split
      · exact .inr (.inr ⟨s, none, rfl, ‹_›⟩)
      · exact .inr (.inl rfl)
    · split
      · split
        · exact .inr (.inr ⟨_, _, rfl, ‹_›⟩)
        · exact .inr (.inl rfl)
      · exact .inr (.inl rfl)

/-- Only the delimiters of comments make a comment. -/
lemma ofContent_eq_comment_iff {d : Delimiter} {content : Text} :
    ofContent d content = .comment ↔ d = .comment := by
  cases d with
  | value =>
    rcases ofVariable_cases content.trim with h | h | ⟨path, fallback, h, -⟩ <;>
      simp [ofContent, h]
  | control =>
    suffices ofControl content.trim ≠ .comment by simpa [ofContent]
    intro h
    have := isControl_ofControl content.trim
    rw [h] at this
    cases this
  | comment => simp [ofContent]

/-- No tag that is read mentions a variable whose name is a blank. -/
lemma spares_blank_ofContent (d : Delimiter) (content : Text) :
    (ofContent d content).spares [' '] = true := by
  cases d with
  | value =>
    rcases ofVariable_cases content.trim with h | h | ⟨path, fallback, h, hpath⟩
    · simp [ofContent, h, spares]
    · simp [ofContent, h, spares]
    · simp [ofContent, h, spares, Text.avoids_blank_of_isSimplePath hpath]
  | control =>
    change (ofControl content.trim).spares [' '] = true
    have hcontrol := isControl_ofControl content.trim
    generalize ofControl content.trim = t at hcontrol ⊢
    cases t with
    | placeholder path fallback => cases hcontrol
    | openIf s | elseIf s => exact Condition.avoids_blank_parse s
    | openFor item source => exact Text.avoids_blank_trim source
    | insert reference locals =>
      cases locals with
      | none => rfl
      | some literal => exact List.all_eq_true.mpr Locals.avoids_blank_of_mem_bound
    | _ => rfl
  | comment => rfl

end Tag
end Stencil
