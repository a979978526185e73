import Stencil.Text

/-! Comma-separated lists of double-quoted references, as a mixin tag writes them: one reader
checks the whole form, the other collects what stands between quotes. -/
namespace Stencil.QuotedList

/-- A leading nonempty quoted string and the trimmed rest. -/
def splitQuoted? : Text → Option (Text × Text)
  | '"' :: s =>
    match Text.splitFirst? (· == '"') s with
    | some ([], _) => none
    | some (inner, rest) => some (inner, Text.trim rest)
    | none => none
  | _ => none

theorem length_of_splitQuoted? {s inner rest : Text} (h : splitQuoted? s = some (inner, rest)) :
    rest.length < s.length := by
  unfold splitQuoted? at h
  split at h
  · rename_i s
    split at h
    · simp at h
    · rename_i a b _ hs
      simp only [Option.some.injEq, Prod.mk.injEq] at h
      obtain ⟨_, rfl⟩ := h
      obtain ⟨c, _, rfl, _⟩ := Text.splitFirst?_eq_some hs
      have := Text.length_trim_le b
      simp only [List.length_cons, List.length_append]
      omega
    · simp at h
  · simp at h

/-- A quoted string, or several with commas between them. -/
def isList (s : Text) : Bool :=
  match h : splitQuoted? s with
  | none => false
  | some (_, []) => true
  | some (_, ',' :: rest) =>
    have : (Text.trimStart rest).length < s.length := by
      have := length_of_splitQuoted? h
      have := (List.dropWhile_suffix Text.isWhite (l := rest)).length_le
      simp only [List.length_cons, Text.trimStart] at *
      omega
    isList (Text.trimStart rest)
  | some _ => false
termination_by s.length

theorem length_of_splitFirst? {p : Char → Bool} {s a b : Text}
    (h : Text.splitFirst? p s = some (a, b)) : b.length < s.length := by
  obtain ⟨c, _, rfl, _⟩ := Text.splitFirst?_eq_some h
  simp only [List.length_append, List.length_cons]
  omega

/-- Collects the nonempty texts between two quotes. An empty text is none, and its closing quote
may open the next one. -/
def items (rest : Text) : List Text :=
  match _hopen : Text.splitFirst? (· == '"') rest with
  | none => []
  | some (_, after) =>
    match _hclose : Text.splitFirst? (· == '"') after with
    | none => []
    | some ([], _) => items after
    | some (c :: item, later) => (c :: item) :: items later
termination_by rest.length
decreasing_by
  · exact length_of_splitFirst? _hopen
  · exact Nat.lt_trans (length_of_splitFirst? _hclose) (length_of_splitFirst? _hopen)

end Stencil.QuotedList
