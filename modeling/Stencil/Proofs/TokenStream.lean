import Stencil.TokenStream
import Mathlib

/-! The places of tokens. The scanner knows the byte and the line at which it stands, and what it
has read of a tag lies between the tag's opener and this place. Main statement: the tokens of a text
are the tags among its symbols, each at the byte and on the line where it was written. -/
namespace Stencil

namespace Token

/-- The tags among symbols that stand at the given byte and line. -/
def locate : (start line : Nat) → List Symbol → List Token
  | _, _, [] => []
  | start, line, .char c :: rest =>
    locate (start + c.utf8Size) (if c = '\n' then line + 1 else line) rest
  | start, line, .tag t written :: rest =>
    ⟨t, start, written.byteSize, line⟩
      :: locate (start + written.byteSize) (line + written.count '\n') rest

lemma locate_map_char (start line : ℕ) (s : Text) (l : List Symbol) :
    locate start line (s.map .char ++ l) = locate (start + s.byteSize) (line + s.count '\n') l := by
  induction s generalizing start line with
  | nil => rfl
  | cons c s ih =>
    rw [List.map_cons, List.cons_append, locate, ih, Text.byteSize_cons, List.count_cons]
    congr 1
    · omega
    · split <;> simp_all [Nat.add_comm, Nat.add_left_comm]

lemma locate_chars (start line : ℕ) (s : Text) : locate start line (s.map .char) = [] := by
  have h := locate_map_char start line s []
  rwa [List.append_nil] at h

end Token

namespace TokenStream
open Scan (Hopeless symbolsFrom)

/-- The scanner's state without its places. -/
def State.erase : State → Scan.State
  | .plain => .plain
  | .brace _ => .brace
  | .inside d _ _ content resume => .inside d content resume
  | .closing d _ _ content resume => .closing d content resume

/-- The byte at which the text starts that the state holds. -/
def State.start (pos : ℕ) : State → ℕ
  | .plain => pos
  | .brace start | .inside _ start .. | .closing _ start .. => start

/-- The line on which the text starts that the state holds. -/
def State.startLine (line : ℕ) : State → ℕ
  | .plain | .brace _ => line
  | .inside _ _ startLine .. | .closing _ _ startLine .. => startLine

/-- The scanner has gone on from the opener by the bytes and the line breaks that it holds. -/
structure State.StandsAt (state : State) (pos line : ℕ) (rest : Text) : Prop where
  pos_eq : pos = state.start pos + state.erase.held.byteSize
  line_eq : line = state.startLine line + state.erase.held.count '\n'
  resumes : state.erase.Resumes rest

section Characters
variable (d : Delimiter)

lemma utf8Size_openChar : d.openChar.utf8Size = 1 := by cases d <;> decide

lemma utf8Size_closeChar : d.closeChar.utf8Size = 1 := by cases d <;> decide

lemma openChar_ne_newline : d.openChar ≠ '\n' := by cases d <;> decide

lemma closeChar_ne_newline : d.closeChar ≠ '\n' := by cases d <;> decide

lemma lineAfter_eq (c : Char) (line : ℕ) : lineAfter c line = line + [c].count '\n' := by
  rw [lineAfter, List.count_singleton]
  split <;> simp_all

end Characters

namespace State.StandsAt
variable {d : Delimiter} {start startLine pos line : ℕ} {content resume rest : Text} {c : Char}

lemma plain (pos line : ℕ) (rest : Text) : State.plain.StandsAt pos line rest :=
  ⟨rfl, rfl, trivial⟩

lemma brace (pos line : ℕ) (rest : Text) : (State.brace pos).StandsAt (pos + 1) line rest :=
  ⟨rfl, rfl, trivial⟩

/-- The second character of an opener. -/
lemma opener (h : (State.brace start).StandsAt pos line (d.openChar :: rest)) :
    (State.inside d start line [] (d.openChar :: rest)).StandsAt (pos + 1) line rest where
  pos_eq := by
    have := h.pos_eq
    have := utf8Size_openChar d
    simp only [State.start, State.erase, Scan.State.held, List.reverse_nil, Text.byteSize_cons,
      Text.byteSize_nil] at *
    omega
  line_eq := by
    simp [State.startLine, State.erase, Scan.State.held, openChar_ne_newline]
  resumes := rfl

/-- A character inside a tag. -/
lemma inside (h : (State.inside d start startLine content resume).StandsAt pos line (c :: rest)) :
    (State.inside d start startLine (c :: content) resume).StandsAt (pos + c.utf8Size)
      (lineAfter c line) rest where
  pos_eq := by
    have := h.pos_eq
    simp only [State.start, State.erase, Scan.State.held, List.reverse_cons, Text.byteSize_cons,
      Text.byteSize_append, Text.byteSize_nil] at *
    omega
  line_eq := by
    have := h.line_eq
    rw [lineAfter_eq, this]
    simp only [State.startLine, State.erase, Scan.State.held, List.reverse_cons,
      ← List.cons_append, List.count_append, Nat.add_assoc]
  resumes := by
    have := h.resumes
    simp_all [State.erase, Scan.State.Resumes]

/-- The first character of a closer. -/
lemma closer
    (h : (State.inside d start startLine content resume).StandsAt pos line (d.closeChar :: rest)) :
    (State.closing d start startLine content resume).StandsAt (pos + 1) line rest where
  pos_eq := by
    have := h.pos_eq
    have := utf8Size_closeChar d
    simp only [State.start, State.erase, Scan.State.held, Text.byteSize_cons, Text.byteSize_append,
      Text.byteSize_nil] at *
    omega
  line_eq := by
    have := h.line_eq
    rw [this]
    simp [State.startLine, State.erase, Scan.State.held, List.count_cons, closeChar_ne_newline]
  resumes := h.resumes

/-- A character of a closer that turns out to be none. -/
lemma noCloser
    (h : (State.closing d start startLine content resume).StandsAt pos line (c :: rest)) :
    (State.inside d start startLine (d.closeChar :: content) resume).StandsAt pos line
      (c :: rest) where
  pos_eq := by
    have := h.pos_eq
    simpa [State.start, State.erase, Scan.State.held] using this
  line_eq := by
    have := h.line_eq
    simpa [State.startLine, State.erase, Scan.State.held] using this
  resumes := by
    have := h.resumes
    simp_all [State.erase, Scan.State.Resumes]

/-- The tag that a closer completes is as long as what has been read since its opener. -/
lemma locate_finished {later : List Token} {symbols : List Symbol}
    (h : (State.closing d start startLine content resume).StandsAt pos line ('}' :: rest))
    (hlater : later = Token.locate (pos + 1) line symbols) :
    ⟨Tag.ofContent d content.reverse, start, pos + 1 - start, startLine⟩ :: later =
      Token.locate start startLine (Scan.finished d content.reverse :: symbols) := by
  have hwritten : (Scan.finished d content.reverse).text =
      (State.closing d start startLine content resume).erase.held ++ ['}'] := by
    simp [Scan.finished, Symbol.text, State.erase, Scan.State.held]
  have hpos : pos + 1 = start + (Scan.finished d content.reverse).text.byteSize := by
    rw [hwritten, Text.byteSize_append, ← Nat.add_assoc]
    exact congrArg (· + 1) h.pos_eq
  have hline : line = startLine + (Scan.finished d content.reverse).text.count '\n' := by
    rw [hwritten, List.count_append]
    exact h.line_eq
  have hlength : pos + 1 - start = (Scan.finished d content.reverse).text.byteSize := by omega
  rw [hlater, hlength, hpos, hline]
  rfl

end State.StandsAt

/-- From any of its states on, the scanner finds the tags of the symbols at their places. -/
lemma tokensFrom_eq_locate (n : ℕ) (h : Hopeless) {pos line : ℕ} {state : State} {rest : Text}
    (hs : state.StandsAt pos line rest) :
    tokensFrom n h pos line state rest =
      Token.locate (state.start pos) (state.startLine line) (symbolsFrom n h state.erase rest) := by
  induction n generalizing h pos line state rest with
  | zero =>
    cases state <;>
      simp [tokensFrom, symbolsFrom, State.erase, Token.locate, Token.locate_chars]
  | succ n ih =>
    cases state with
    | plain =>
      cases rest with
      | nil => rfl
      | cons c rest =>
        rw [tokensFrom, State.erase, symbolsFrom]
        split
        · exact ih h (.brace pos line rest)
        · exact ih h (.plain _ _ rest)
    | brace start =>
      cases rest with
      | nil => rfl
      | cons c rest =>
        -- the brace is plain after all, and the character behind it is read again
        have hlone : tokensFrom n h pos line .plain (c :: rest) =
            Token.locate start line (.char '{' :: symbolsFrom n h .plain (c :: rest)) := by
          have hpos : pos = start + 1 := hs.pos_eq
          rw [hpos]
          exact ih h (.plain _ _ _)
        simp only [tokensFrom, State.erase, symbolsFrom]
        cases hd : Delimiter.ofOpenChar? c with
        | none => exact hlone
        | some d =>
          obtain rfl := Delimiter.ofOpenChar?_eq_some_iff.mp hd
          dsimp only
          by_cases hopeless : h.has d = true
          · rw [if_pos hopeless, if_pos hopeless]
            exact hlone
          · rw [if_neg hopeless, if_neg hopeless]
            exact ih h hs.opener
    | inside d start startLine content resume =>
      cases rest with
      | nil => exact ih (h.add d) (.plain _ _ _)
      | cons c rest =>
        rw [tokensFrom, State.erase, symbolsFrom]
        split
        · rename_i hc
          subst hc
          exact ih h hs.closer
        · exact ih h hs.inside
    | closing d start startLine content resume =>
      cases rest with
      | nil => exact ih (h.add d) (.plain _ _ _)
      | cons c rest =>
        rw [tokensFrom, State.erase, symbolsFrom]
        split
        · rename_i hc
          subst hc
          exact hs.locate_finished (ih h (.plain _ _ rest))
        · exact ih h hs.noCloser

end TokenStream

/-- The places that the scanner keeps are those of the tags in the text. -/
theorem tokens_eq_locate (s : Text) : tokens s = Token.locate 0 1 (Scan.symbols s) :=
  TokenStream.tokensFrom_eq_locate _ _ (.plain 0 1 s)

end Stencil
