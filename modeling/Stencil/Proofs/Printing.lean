import Stencil.Proofs.LeadingBlock
import Stencil.Proofs.QuotedList
import Stencil.Proofs.Spans

/-! Pages of plain text and tags of every kind, printed with any white space inside the delimiters.
Main statement: the tokens of a printed page are its tags, each with its arguments and with the
place where it was printed. -/
namespace Stencil
namespace Page

/-- A condition or the source of a loop. -/
structure Argument where
  text : Text
  trimmed : text.trim = text
  nonempty : text ≠ []
  no_percent : '%' ∉ text

structure BlockName where
  text : Text
  valid : Tag.isBlockName text = true

structure Reference where
  text : Text
  nonempty : text ≠ []
  no_quote : '"' ∉ text
  no_percent : '%' ∉ text

/-- The literal behind `with`. -/
structure Braced where
  inner : Text
  no_percent : '%' ∉ inner

/-- The default of a placeholder. -/
structure Fallback where
  quote : Quote
  text : Text
  no_quote : quote.char ∉ text
  no_brace : '}' ∉ text

def Reference.quoted (r : Reference) : Text := Quote.double.wrap r.text

/-- References with commas between them, and white space on both sides of each comma. -/
def Reference.list : Reference → List (Blank × Blank × Reference) → Text
  | first, [] => first.quoted
  | first, (b, a, next) :: rest => first.quoted ++ (b.text ++ ',' :: (a.text ++ next.list rest))

def Braced.text (literal : Braced) : Text := '{' :: literal.inner ++ ['}']

def Fallback.call (f : Fallback) : Text := "default(".toList ++ f.quote.wrap f.text ++ [')']

/-- A control tag, with the white space inside its arguments. -/
inductive Control
  | openIf (condition : Argument)
  | elseIf (condition : Argument)
  | orElse
  | closeIf
  | openFor (item : Tree.Name) (g g' : Gap) (source : Argument)
  | closeFor
  | openBlock (name : BlockName)
  | closeBlock (name : Option BlockName)
  | insert (reference : Reference) (locals : Option (Blank × Gap × Braced))
  | inherit (reference : Reference)
  | mixin (first : Reference) (rest : List (Blank × Blank × Reference))

namespace Control

def word : Control → Text
  | .openIf _ => "if".toList
  | .elseIf _ => "elseif".toList
  | .orElse => "else".toList
  | .closeIf => "endif".toList
  | .openFor .. => "for".toList
  | .closeFor => "endfor".toList
  | .openBlock _ => "block".toList
  | .closeBlock _ => "endblock".toList
  | .insert .. => "include".toList
  | .inherit _ => "extends".toList
  | .mixin .. => "mixin".toList

/-- What stands behind the word, if anything does. -/
def arguments : Control → Option Text
  | .openIf condition | .elseIf condition => some condition.text
  | .orElse | .closeIf | .closeFor => none
  | .openFor item g g' source =>
    some (item.text ++ g.text ++ "in".toList ++ g'.text ++ source.text)
  | .openBlock name => some name.text
  | .closeBlock name => name.map (·.text)
  | .insert reference none | .inherit reference => some reference.quoted
  | .insert reference (some (b, g, literal)) =>
    some (reference.quoted ++ (b.text ++ "with".toList ++ g.text ++ literal.text))
  | .mixin first rest => some (first.list rest)

/-- The tag as it is written between the blanks at its ends. -/
def inner (c : Control) (g : Gap) : Text := c.word ++ c.arguments.elim [] fun args => g.text ++ args

def tag : Control → Tag
  | .openIf condition => .openIf condition.text
  | .elseIf condition => .elseIf condition.text
  | .orElse => .orElse
  | .closeIf => .closeIf
  | .openFor item _ _ source => .openFor item.text source.text
  | .closeFor => .closeFor
  | .openBlock name => .openBlock name.text
  | .closeBlock _ => .closeBlock
  | .insert reference locals => .insert reference.text (locals.map fun l => l.2.2.text)
  | .inherit reference => .inherit reference.text
  | .mixin first rest => .mixin (first.text :: rest.map fun r => r.2.2.text)

end Control

/-- A tag, with the white space inside of it. The gap of a control tag stands before its arguments
if it has any. -/
inductive Directive
  | placeholder (path : Tree.Path) (fallback : Option (Blank × Blank × Fallback))
  | superCall (b : Blank)
  | control (c : Control) (g : Gap)
  | comment (text : Text) (no_hash : '#' ∉ text)

namespace Directive

def delimiter : Directive → Delimiter
  | .placeholder .. | .superCall _ => .value
  | .control .. => .control
  | .comment .. => .comment

def inner : Directive → Text
  | .placeholder path none => path.text
  | .placeholder path (some (b, a, f)) => path.text ++ b.text ++ '|' :: (a.text ++ f.call)
  | .superCall b => "super(".toList ++ b.text ++ [')']
  | .control c g => c.inner g
  | .comment text _ => text

def tag : Directive → Tag
  | .placeholder path fallback => .placeholder path.text (fallback.map fun f => f.2.2.text)
  | .superCall _ => .superCall
  | .control c _ => c.tag
  | .comment .. => .comment

end Directive

/-- Plain text without an opening brace, or a tag with the white space at its ends. -/
inductive Segment
  | plain (s : Text) (no_brace : '{' ∉ s)
  | directive (before : Blank) (d : Directive) (after : Blank)

namespace Segment

def print : Segment → Text
  | .plain s _ => s
  | .directive before d after =>
    '{' :: d.delimiter.openChar :: (before.text ++ d.inner ++ after.text) ++
      [d.delimiter.closeChar, '}']

/-- The token of a tag that is printed at the given byte and line. -/
def token? (start line : Nat) : Segment → Option Token
  | .plain .. => none
  | .directive before d after =>
    some ⟨d.tag, start, (print (.directive before d after)).byteSize, line⟩

end Segment

end Page

abbrev Page := List Page.Segment

namespace Page

def print (page : Page) : Text := page.flatMap Segment.print

/-- One token for each tag, of a page that is printed from the given byte and line on. -/
def tokensFrom : (start line : Nat) → Page → List Token
  | _, _, [] => []
  | start, line, segment :: rest =>
    (segment.token? start line).toList ++
      tokensFrom (start + segment.print.byteSize) (line + segment.print.count '\n') rest

lemma Reference.lists_list (first : Reference) (rest : List (Blank × Blank × Reference)) :
    QuotedList.Lists (first.text :: rest.map fun r => r.2.2.text) (first.list rest) := by
  induction rest generalizing first with
  | nil => exact .single first.nonempty first.no_quote
  | cons entry rest ih =>
    obtain ⟨b, a, next⟩ := entry
    exact .cons first.nonempty first.no_quote b a (ih next)

lemma Reference.no_percent_list (first : Reference) (rest : List (Blank × Blank × Reference)) :
    '%' ∉ first.list rest := by
  have hblank (b : Blank) : '%' ∉ b.text := fun h => absurd (b.white _ h) (by decide)
  induction rest generalizing first with
  | nil => simp [list, quoted, Quote.wrap, Quote.char, first.no_percent]
  | cons entry rest ih =>
    obtain ⟨b, a, next⟩ := entry
    simp [list, quoted, Quote.wrap, Quote.char, first.no_percent, hblank, ih next]

namespace Argument
variable (a : Argument)

lemma isTrimmed : Text.IsTrimmed a.text := Text.isTrimmed_of_trim_eq a.trimmed

lemma isExpression : Tag.isExpression a.text = true := by
  simp [Tag.isExpression, a.nonempty, a.no_percent]

end Argument

namespace Control
variable (c : Control)

lemma isWord_word : Text.IsWord c.word := by
  cases c <;> dsimp only [word] <;> decide

lemma no_percent_word : '%' ∉ c.word := by
  cases c <;> dsimp only [word] <;> decide

/-- Arguments are trimmed and not empty, and end no control tag. -/
lemma arguments_spec : ∀ args ∈ c.arguments, args.IsTrimmed ∧ args ≠ [] ∧ '%' ∉ args := by
  have hblank (b : Blank) : '%' ∉ b.text := fun h => absurd (b.white _ h) (by decide)
  have hname (name : BlockName) : name.text.IsTrimmed ∧ name.text ≠ [] ∧ '%' ∉ name.text := by
    refine ⟨isTrimmed_blockName name.valid, Text.ne_nil_of_isWordOf name.valid, fun h => ?_⟩
    rcases mem_blockName name.valid h with h | h | h <;> revert h <;> decide
  have hquoted (r : Reference) : r.quoted.IsTrimmed ∧ r.quoted ≠ [] ∧ '%' ∉ r.quoted :=
    ⟨Quote.double.isTrimmed_wrap r.text, by simp [Reference.quoted, Quote.wrap],
      r.no_percent_list []⟩
  intro args hargs
  cases c with
  | openIf condition | elseIf condition =>
    obtain rfl : condition.text = args := Option.some.inj hargs
    exact ⟨condition.isTrimmed, condition.nonempty, condition.no_percent⟩
  | orElse | closeIf | closeFor => cases hargs
  | openFor item g g' source =>
    obtain rfl := Option.some.inj hargs
    have hitem := Text.isWord_of_isWordOf (fun _ => Text.isWhite_of_isWordChar) item.word
    have htrimmed := hitem.isTrimmed.append hitem.1 source.isTrimmed source.nonempty
      (g.text ++ "in".toList ++ g'.text)
    have hword : '%' ∉ item.text := fun h => absurd (item.isWordChar h) (by decide)
    refine ⟨by simpa using htrimmed, by simp [hitem.1], ?_⟩
    simp [hword, hblank g.toBlank, hblank g'.toBlank, source.no_percent]
  | openBlock name =>
    obtain rfl : name.text = args := Option.some.inj hargs
    exact hname name
  | closeBlock name =>
    obtain ⟨name, rfl, rfl⟩ := Option.map_eq_some_iff.mp hargs
    exact hname name
  | insert reference locals =>
    cases locals with
    | none =>
      obtain rfl : reference.quoted = args := Option.some.inj hargs
      exact hquoted reference
    | some l =>
      obtain ⟨b, g, literal⟩ := l
      obtain rfl := Option.some.inj hargs
      obtain ⟨htrimmed, hne, hpercent⟩ := hquoted reference
      have htrimmed := htrimmed.append hne (Tag.isTrimmed_braced literal.inner) (by simp)
        (b.text ++ "with".toList ++ g.text)
      refine ⟨by simpa [Braced.text] using htrimmed, by simp [hne], ?_⟩
      simp [hpercent, hblank b, hblank g.toBlank, Braced.text, literal.no_percent]
  | inherit reference =>
    obtain rfl : reference.quoted = args := Option.some.inj hargs
    exact hquoted reference
  | mixin first rest =>
    obtain rfl : first.list rest = args := Option.some.inj hargs
    have h := first.lists_list rest
    exact ⟨h.isTrimmed, h.ne_nil, first.no_percent_list rest⟩

lemma splitKeyword_inner (g : Gap) :
    Tag.splitKeyword (c.inner g) = (c.word, c.arguments.getD []) := by
  rw [inner]
  cases hargs : c.arguments with
  | none =>
    rw [Option.elim, List.append_nil]
    exact Tag.splitKeyword_word c.isWord_word.2
  | some args =>
    rw [Option.elim, ← List.append_assoc]
    exact Tag.splitKeyword_gap c.isWord_word.2 g (c.arguments_spec args hargs).1

/-- A control tag is read as it was written. -/
lemma ofControl_inner (g : Gap) : Tag.ofControl (c.inner g) = c.tag := by
  have hsplit := c.splitKeyword_inner g
  rw [Tag.ofControl, hsplit]
  cases c with
  | openIf condition =>
    dsimp only [word, arguments, tag, Option.getD_some]
    simp [condition.isExpression]
  | elseIf condition =>
    dsimp only [word, arguments, tag, Option.getD_some]
    simp [condition.isExpression]
  | orElse => decide
  | closeIf => decide
  | closeFor => decide
  | openFor item g g' source =>
    have := Tag.readLoopHeader?_append item.word g g' source.isTrimmed source.isExpression
    dsimp only [word, arguments, tag, Option.getD_some]
    rw [this]
    simp
  | openBlock name =>
    dsimp only [word, arguments, tag, Option.getD_some]
    simp [name.valid]
  | closeBlock name => cases name with
    | none => rfl
    | some name =>
      dsimp only [word, arguments, tag, Option.map_some, Option.getD_some]
      simp [name.valid]
  | insert reference locals => cases locals with
    | none =>
      have := Tag.readInsert?_wrap reference.nonempty reference.no_quote
      dsimp only [word, arguments, tag, Option.map_none, Option.getD_some, Reference.quoted]
      rw [this]
      simp
    | some l =>
      obtain ⟨b, g, literal⟩ := l
      have := Tag.readInsert?_with reference.nonempty reference.no_quote b g literal.inner
      dsimp only [word, arguments, tag, Option.map_some, Option.getD_some, Reference.quoted,
        Braced.text]
      rw [this]
      simp
  | inherit reference =>
    have := Tag.readInherit?_wrap reference.nonempty reference.no_quote
    dsimp only [word, arguments, tag, Option.getD_some, Reference.quoted]
    rw [this]
    simp
  | mixin first rest =>
    dsimp only [word, arguments, tag, Option.getD_some]
    have h := first.lists_list rest
    simp [h.isList_eq_true, h.items_eq]

lemma isTrimmed_inner (g : Gap) : Text.IsTrimmed (c.inner g) := by
  rw [inner]
  cases hargs : c.arguments with
  | none =>
    rw [Option.elim, List.append_nil]
    exact c.isWord_word.isTrimmed
  | some args =>
    obtain ⟨htrimmed, hne, -⟩ := c.arguments_spec args hargs
    rw [Option.elim, ← List.append_assoc]
    exact c.isWord_word.isTrimmed.append c.isWord_word.1 htrimmed hne g.text

lemma no_percent_inner (g : Gap) : '%' ∉ c.inner g := by
  have hgap : '%' ∉ g.text := fun h => absurd (g.white _ h) (by decide)
  rw [inner]
  cases hargs : c.arguments with
  | none => simp [c.no_percent_word]
  | some args => simp [c.no_percent_word, hgap, (c.arguments_spec args hargs).2.2]

end Control

lemma Fallback.no_brace_call (f : Fallback) : '}' ∉ f.call := by
  have hquote : f.quote.char ≠ '}' := by cases f.quote <;> decide
  unfold call
  simp [Quote.wrap, f.no_brace, hquote.symm]

namespace Directive

lemma closeChar_not_mem_inner (d : Directive) : d.delimiter.closeChar ∉ d.inner := by
  have hblank (b : Blank) : '}' ∉ b.text := fun h => absurd (b.white _ h) (by decide)
  cases d with
  | placeholder path fallback =>
    have hpath : '}' ∉ path.text := path.not_mem (by decide) (by decide)
    cases fallback with
    | none => exact hpath
    | some f =>
      obtain ⟨b, a, f⟩ := f
      change '}' ∉ path.text ++ b.text ++ '|' :: (a.text ++ f.call)
      simp [hpath, hblank, f.no_brace_call]
  | superCall b =>
    change '}' ∉ "super(".toList ++ b.text ++ [')']
    simp [hblank]
  | control c g => exact c.no_percent_inner g
  | comment text no_hash => exact no_hash

/-- What is written is read as the tag, whatever white space stands around it. -/
lemma ofContent_inner (d : Directive) (before after : Blank) :
    Tag.ofContent d.delimiter (before.text ++ d.inner ++ after.text) = d.tag := by
  have hparenthesis : Text.IsTrimmed [')'] := (by decide : Text.IsWord [')']).isTrimmed
  cases d with
  | placeholder path fallback =>
    cases fallback with
    | none =>
      change Tag.ofVariable (Text.trim (before.text ++ path.text ++ after.text)) = _
      rw [Text.trim_between path.isTrimmed, path.ofVariable]
      rfl
    | some f =>
      obtain ⟨b, a, f⟩ := f
      have htext : path.text ++ (b.text ++ '|' :: (a.text ++ "default(".toList ++
          f.quote.wrap f.text)) ++ [')'] =
          path.text ++ b.text ++ '|' :: (a.text ++ "default(".toList ++ f.quote.wrap f.text ++
            [')']) := by simp
      have htrimmed := path.isTrimmed.append (Text.ne_nil_of_isWordOf path.simple) hparenthesis
        (by simp)
        (b.text ++ '|' :: (a.text ++ "default(".toList ++ f.quote.wrap f.text))
      have hinner : (placeholder path (some (b, a, f))).inner = path.text ++ b.text ++
          '|' :: (a.text ++ "default(".toList ++ f.quote.wrap f.text ++ [')']) := by
        dsimp only [inner, Fallback.call]
        simp
      rw [htext, ← hinner] at htrimmed
      change Tag.ofVariable (Text.trim _) = _
      rw [Text.trim_between htrimmed, hinner, Tag.ofVariable_fallback path b a f.quote f.no_quote]
      rfl
  | superCall b =>
    have hsuper : Text.IsTrimmed "super(".toList :=
      (by decide : Text.IsWord "super(".toList).isTrimmed
    change Tag.ofVariable (Text.trim (before.text ++ ("super(".toList ++ b.text ++ [')']) ++
      after.text)) = .superCall
    rw [Text.trim_between (hsuper.append (by simp) hparenthesis (by simp) b.text),
      Tag.ofVariable_superCall]
  | control c g =>
    change Tag.ofControl (Text.trim (before.text ++ c.inner g ++ after.text)) = c.tag
    rw [Text.trim_between (c.isTrimmed_inner g), c.ofControl_inner g]
  | comment text no_hash => rfl

end Directive

namespace Segment

def symbols : Segment → List Symbol
  | .plain s _ => s.map .char
  | .directive before d after => [.tag d.tag (print (.directive before d after))]

lemma reads_print (segment : Segment) : Scan.Reads segment.print segment.symbols := by
  cases segment with
  | plain s no_brace => exact .of_not_mem no_brace
  | directive before d after =>
    have hwhite : Text.isWhite d.delimiter.closeChar = false := by cases d.delimiter <;> decide
    have hblank (b : Blank) : d.delimiter.closeChar ∉ b.text := fun h => by
      rw [b.white _ h] at hwhite
      cases hwhite
    have hcontent : d.delimiter.closeChar ∉ before.text ++ d.inner ++ after.text := by
      simp [hblank, d.closeChar_not_mem_inner]
    have hreads := Scan.Reads.finished_of_closeChar hcontent
    rwa [Scan.finished, d.ofContent_inner] at hreads

end Segment

lemma reads_print (page : Page) : Scan.Reads (print page) (page.flatMap Segment.symbols) := by
  induction page with
  | nil => exact .nil
  | cons segment rest ih => exact segment.reads_print.append ih

lemma locate_symbols (start line : ℕ) (page : Page) :
    Token.locate start line (page.flatMap Segment.symbols) = tokensFrom start line page := by
  induction page generalizing start line with
  | nil => rfl
  | cons segment rest ih =>
    rw [List.flatMap_cons, tokensFrom, ← ih]
    cases segment with
    | plain s no_brace => exact Token.locate_map_char start line s _
    | directive before d after => rfl

/-- The tokens of a printed page are its tags, with the bytes and the line at which each of them
was printed. -/
theorem tokens_print (page : Page) : tokens (print page) = tokensFrom 0 1 page := by
  rw [tokens_eq_locate, (reads_print page).symbols_eq, locate_symbols]

/-- A loop whose variable and source are named `in`. -/
example : (tokens "{%for in in in%}".toList).map (·.tag) =
    [.openFor "in".toList "in".toList] := by decide +kernel

end Page
end Stencil
