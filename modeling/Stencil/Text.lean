/-! Texts as lists of characters, with the white space, trimming and splitting rules
that every reader of the library shares. -/
namespace Stencil

abbrev Text := List Char

namespace Text

/-- The code points beyond ASCII with the Unicode property White_Space, as closed ranges. -/
def whiteRanges : List (Nat × Nat) :=
  [(0x85, 0x85), (0xA0, 0xA0), (0x1680, 0x1680), (0x2000, 0x200A), (0x2028, 0x2029),
    (0x202F, 0x202F), (0x205F, 0x205F), (0x3000, 0x3000)]

/-- Whether a character has the Unicode property White_Space. -/
def isWhite (c : Char) : Bool :=
  if c.toNat < 0x80 then c == ' ' || (0x09 ≤ c.toNat && c.toNat ≤ 0x0D)
  else whiteRanges.any fun range => range.1 ≤ c.toNat && c.toNat ≤ range.2

/-- Spaces and tabs: the characters that indent a line. -/
def isIndent (c : Char) : Bool := c == ' ' || c == '\t'

def trimStart (s : Text) : Text := s.dropWhile isWhite

/-- A text without white space at its end is left as it is. -/
def trimEnd (s : Text) : Text :=
  if s.getLast?.any isWhite then (s.reverse.dropWhile isWhite).reverse else s

def trim (s : Text) : Text := trimEnd (trimStart s)

theorem length_trimStart_le (s : Text) : (trimStart s).length ≤ s.length :=
  (List.dropWhile_suffix isWhite).length_le

theorem trimEnd_eq (s : Text) : trimEnd s = (s.reverse.dropWhile isWhite).reverse := by
  unfold trimEnd
  split
  · rfl
  · rename_i h
    cases hr : s.reverse with
    | nil => simp_all
    | cons c rest =>
      have hs : s = rest.reverse ++ [c] := by simpa using congrArg List.reverse hr
      simp_all

theorem length_trimEnd_le (s : Text) : (trimEnd s).length ≤ s.length := by
  have h := (List.dropWhile_suffix isWhite (l := s.reverse)).length_le
  simpa [trimEnd_eq] using h

theorem length_trim_le (s : Text) : (trim s).length ≤ s.length :=
  Nat.le_trans (length_trimEnd_le _) (length_trimStart_le s)

def isBlank (s : Text) : Bool := s.all isWhite

def startsWhite : Text → Bool
  | [] => false
  | c :: _ => isWhite c

/-- The parts before and after the first character that `p` accepts. -/
def splitFirst? (p : Char → Bool) : Text → Option (Text × Text)
  | [] => none
  | c :: s => if p c then some ([], s) else (splitFirst? p s).map fun (a, b) => (c :: a, b)

theorem splitFirst?_eq_some {p : Char → Bool} {s a b : Text} (h : splitFirst? p s = some (a, b)) :
    ∃ c, p c = true ∧ s = a ++ c :: b ∧ ∀ x ∈ a, p x = false := by
  induction s generalizing a with
  | nil => simp [splitFirst?] at h
  | cons c s ih =>
    cases hc : p c with
    | true =>
      simp [splitFirst?, hc] at h
      obtain ⟨rfl, rfl⟩ := h
      exact ⟨c, hc, rfl, by simp⟩
    | false =>
      simp [splitFirst?, hc] at h
      obtain ⟨a', hs, rfl⟩ := h
      obtain ⟨d, hd, rfl, ha⟩ := ih hs
      exact ⟨d, hd, rfl, by simpa [hc] using ha⟩

/-- What follows `start` at the beginning of a text that starts with it. -/
def after? : (start : Text) → Text → Option Text
  | [], s => some s
  | _ :: _, [] => none
  | c :: start, d :: s => if c = d then after? start s else none

theorem after?_eq_some_iff {start s rest : Text} :
    after? start s = some rest ↔ s = start ++ rest := by
  induction start generalizing s with
  | nil => simp [after?, eq_comm]
  | cons c start ih =>
    cases s with
    | nil => simp [after?]
    | cons d s =>
      by_cases h : c = d
      · simp [after?, h, ih]
      · have : ¬d = c := fun e => h e.symm
        simp [after?, h, this]

/-- What stands before `ending` in a text that ends with it. -/
def before? (ending s : Text) : Option Text :=
  (after? ending.reverse s.reverse).map List.reverse

theorem before?_eq_some_iff {ending s front : Text} :
    before? ending s = some front ↔ s = front ++ ending := by
  simp only [before?, Option.map_eq_some_iff, after?_eq_some_iff]
  constructor
  · rintro ⟨r, hs, rfl⟩
    have := congrArg List.reverse hs
    simpa using this
  · rintro rfl
    exact ⟨front.reverse, by simp, by simp⟩

/-- The text as lines; a line break separates two lines and belongs to neither. -/
def lines (s : Text) : List Text := s.splitOn '\n'

def unlines (ls : List Text) : Text := ['\n'].intercalate ls

@[simp] theorem unlines_lines (s : Text) : unlines (lines s) = s := List.intercalate_splitOn _

/-- The number of bytes of the text in UTF-8. -/
def byteSize : Text → Nat
  | [] => 0
  | c :: s => c.utf8Size + byteSize s

@[simp] theorem byteSize_nil : byteSize [] = 0 := rfl
@[simp] theorem byteSize_cons (c : Char) (s : Text) :
    byteSize (c :: s) = c.utf8Size + byteSize s := rfl
@[simp] theorem byteSize_append (a b : Text) : byteSize (a ++ b) = byteSize a + byteSize b := by
  induction a with
  | nil => simp
  | cons c a ih => simp [ih, Nat.add_assoc]

/-- Letters, digits and `_`, all ASCII: the characters of a variable's name. -/
def isWordChar (c : Char) : Bool := c.isAlphanum || c == '_'

/-- Nonempty, and every character is accepted. -/
def isWordOf (p : Char → Bool) (s : Text) : Bool := !s.isEmpty && s.all p

end Text
end Stencil
