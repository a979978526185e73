import Stencil.Proofs.Closed
import Stencil.Proofs.Spans

/-! Tokens of texts that are put together. A closed text leaves nothing behind for the scanner, so
that what follows it is read as if it stood alone. Main statement: the tokens of a closed text and
any other are those of the one and of the other, and where closed texts take the place of tokens,
the tokens are those that are kept and those of the new texts. -/
namespace Stencil

namespace Token

/-- The token with more bytes and lines in front of it. -/
def shift (bytes lines : ℕ) (t : Token) : Token :=
  { t with start := t.start + bytes, line := t.line + lines }

/-- The token where nothing stands in front of it. -/
def alone (t : Token) : Token := { t with start := 0, line := 1 }

lemma locate_shift (start line bytes lines : ℕ) (l : List Symbol) :
    locate (start + bytes) (line + lines) l = (locate start line l).map (shift bytes lines) := by
  induction l generalizing start line with
  | nil => rfl
  | cons y l ih =>
    cases y with
    | char c =>
      rw [locate, locate, ← ih, Nat.add_right_comm]
      split <;> simp only [Nat.add_right_comm]
    | tag t written =>
      rw [locate, locate, List.map_cons, ← ih, Nat.add_right_comm, Nat.add_right_comm line]
      rfl

lemma locate_eq_shift (bytes lines : ℕ) (s : Text) :
    locate bytes (1 + lines) (Scan.symbols s) = (tokens s).map (shift bytes lines) := by
  have h := locate_shift 0 1 bytes lines (Scan.symbols s)
  rwa [Nat.zero_add, ← tokens_eq_locate] at h

end Token

/-- A text that is read alike in front of any other. -/
lemma Scan.Closed.tokens_append {a : Text} (ha : Scan.Closed a) (b : Text) :
    tokens (a ++ b) = tokens a ++ (tokens b).map (Token.shift a.byteSize (a.count '\n')) := by
  rw [tokens_eq_locate, ha.reads b, Token.locate_append, Scan.textOf_symbols, Nat.zero_add,
    Token.locate_eq_shift, ← tokens_eq_locate]

/-- A part of a text that is put together, with the tokens in it when it stands alone. -/
structure TextPart where
  text : Text
  tokens : List Token

namespace TextPart

/-- The tokens of parts one after the other. -/
def joined : (bytes lines : ℕ) → List TextPart → List Token
  | _, _, [] => []
  | bytes, lines, part :: rest => part.tokens.map (Token.shift bytes lines) ++
      joined (bytes + part.text.byteSize) (lines + part.text.count '\n') rest

/-- A token that `f` keeps, or the text that `f` puts in its place. -/
def ofToken (f : Token → Option Text) (token : Token) (written : Text) : TextPart :=
  match f token with
  | none => ⟨written, [token.alone]⟩
  | some r => ⟨r, Stencil.tokens r⟩

/-- The parts for symbols that stand at the given byte and line. -/
def ofSymbols (f : Token → Option Text) : (start line : ℕ) → List Symbol → List TextPart
  | _, _, [] => []
  | start, line, .char c :: rest => ⟨[c], []⟩ ::
      ofSymbols f (start + c.utf8Size) (if c = '\n' then line + 1 else line) rest
  | start, line, .tag t written :: rest =>
    ofToken f ⟨t, start, written.byteSize, line⟩ written ::
      ofSymbols f (start + written.byteSize) (line + written.count '\n') rest

end TextPart

/-- The parts of a text of which `f` replaces some tokens, each chosen by its place too. -/
def rewrittenParts (f : Token → Option Text) (s : Text) : List TextPart :=
  TextPart.ofSymbols f 0 1 (Scan.symbols s)

/-- The text with texts in the place of the tokens for which `f` has one. -/
def rewriteTokens (f : Token → Option Text) (s : Text) : Text :=
  (rewrittenParts f s).flatMap TextPart.text

section
variable {f : Token → Option Text} {start line : ℕ} {l : List Symbol}

/-- The replacement that looks at the tag alone is the one that the renderer makes. -/
lemma flatMap_text_ofSymbols {g : Tag → Option Text}
    (hfg : ∀ t ∈ Token.locate start line l, f t = g t.tag) :
    (TextPart.ofSymbols f start line l).flatMap TextPart.text = Symbol.replace g l := by
  induction l generalizing start line with
  | nil => rfl
  | cons y l ih =>
    cases y with
    | char c =>
      rw [TextPart.ofSymbols, List.flatMap_cons, ih hfg]
      rfl
    | tag t written =>
      rw [Token.locate, List.forall_mem_cons] at hfg
      rw [TextPart.ofSymbols, List.flatMap_cons, ih hfg.2, Symbol.replace, TextPart.ofToken, hfg.1]
      cases g t <;> rfl

lemma flatMap_tokens_ofSymbols : (TextPart.ofSymbols f start line l).flatMap TextPart.tokens =
    (Token.locate start line l).flatMap fun t => ((f t).map tokens).getD [t.alone] := by
  induction l generalizing start line with
  | nil => rfl
  | cons y l ih =>
    cases y with
    | char c => exact ih
    | tag t written =>
      rw [TextPart.ofSymbols, Token.locate, List.flatMap_cons, List.flatMap_cons, ih,
        TextPart.ofToken]
      split <;> simp_all

/-- The parts make a text whose tokens are theirs, as long as the new texts are closed. -/
lemma exists_splices (hf : ∀ t ∈ Token.locate start line l, ∀ r ∈ f t, Scan.Closed r) :
    ∃ m, Scan.Splices l ((TextPart.ofSymbols f start line l).flatMap TextPart.text) m ∧
      ∀ bytes lines, Token.locate bytes (1 + lines) m =
        TextPart.joined bytes lines (TextPart.ofSymbols f start line l) := by
  induction l generalizing start line with
  | nil => exact ⟨[], .nil, fun _ _ => rfl⟩
  | cons y l ih =>
    cases y with
    | char c =>
      obtain ⟨m, hsplices, hjoined⟩ := ih hf
      refine ⟨.char c :: m, .char c hsplices, fun bytes lines => ?_⟩
      have hchar := Token.locate_map_char bytes (1 + lines) [c] m
      rw [Nat.add_assoc 1, hjoined] at hchar
      exact hchar
    | tag t written =>
      rw [Token.locate, List.forall_mem_cons] at hf
      obtain ⟨m, hsplices, hjoined⟩ := ih hf.2
      rw [TextPart.ofSymbols, List.flatMap_cons, TextPart.ofToken]
      cases hr : f ⟨t, start, written.byteSize, line⟩ with
      | none =>
        refine ⟨.tag t written :: m, .keep t written hsplices, fun bytes lines => ?_⟩
        rw [Token.locate, Nat.add_assoc 1, hjoined, TextPart.joined]
        simp [Token.shift, Token.alone]
      | some r =>
        refine ⟨Scan.symbols r ++ m, .put t written (hf.1 r hr) hsplices, fun bytes lines => ?_⟩
        rw [Token.locate_append, Scan.textOf_symbols, Token.locate_eq_shift, Nat.add_assoc 1,
          hjoined, TextPart.joined]

end

/-- Behind a closed text the scanner finds the tokens of any text, moved by the bytes and lines of
the closed one. Where `f` puts closed texts in the place of tokens of a closed text, the tokens of
the result are those that `f` keeps and those of the new texts in order, each moved by the bytes and
lines of the parts before it; and this is how the renderer puts texts in the place of tags. -/
theorem tokens_joined {a : Text} (ha : a.IsClosed) :
    (∀ b, tokens (a ++ b) = tokens a ++ (tokens b).map (Token.shift a.byteSize (a.count '\n'))) ∧
    ∀ f : Token → Option Text, (∀ t ∈ tokens a, ∀ r ∈ f t, r.IsClosed) →
      tokens (rewriteTokens f a) = TextPart.joined 0 0 (rewrittenParts f a) ∧
      (rewrittenParts f a).flatMap TextPart.tokens =
        (tokens a).flatMap (fun t => ((f t).map tokens).getD [t.alone]) ∧
      ∀ g : Tag → Option Text, (∀ t ∈ tokens a, f t = g t.tag) →
        rewriteTokens f a = Symbol.replace g (Scan.symbols a) := by
  refine ⟨ha.closed.tokens_append, fun f hf => ?_⟩
  rw [tokens_eq_locate a] at hf ⊢
  refine ⟨?_, flatMap_tokens_ofSymbols, fun g => flatMap_text_ofSymbols⟩
  obtain ⟨m, hsplices, hjoined⟩ := exists_splices fun t ht r hr => (hf t ht r hr).closed
  obtain ⟨-, hsymbols⟩ := ha.closed.splice hsplices
  rw [tokens_eq_locate, rewriteTokens, rewrittenParts, hsymbols]
  exact hjoined 0 0

/-- A tag behind a text of two lines, and the same text with its first tag replaced. -/
theorem tokens_joined_lines :
    let a := "é\n{{ x }}{# note #}".toList
    let f : Token → Option Text := fun t =>
      if t.start = 3 then some "{% else %}\n".toList else none
    tokens (a ++ "{{ y }}".toList) = tokens a ++ [⟨.placeholder "y".toList none, 20, 7, 2⟩] ∧
      tokens (rewriteTokens f a) = [⟨.orElse, 3, 10, 2⟩, ⟨.comment, 14, 10, 3⟩] := by
  intro a f
  have hclosed : Text.IsClosed a := by decide +kernel
  have hf : ∀ t ∈ tokens a, ∀ r ∈ f t, Text.IsClosed r := by
    intro t _ r hr
    dsimp only [f] at hr
    split at hr
    · obtain rfl := Option.some.inj hr
      decide +kernel
    · cases hr
  obtain ⟨happend, hrewrite⟩ := tokens_joined hclosed
  constructor
  · rw [happend]
    exact congrArg (tokens a ++ ·) (by decide +kernel)
  · rw [(hrewrite f hf).1]
    decide +kernel

end Stencil
