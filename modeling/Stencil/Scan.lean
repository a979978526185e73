import Stencil.Tag

/-! Reading a text as plain characters and tags. The scanner passes through the text once,
except that an opener without a closer sends it back to the opener's second character; it then
takes every later opener of that kind for plain text. Main statement: the texts of the symbols
make up the text that was read. -/
namespace Stencil

/-- A plain character, or a tag with the text it was written as. -/
inductive Symbol
  | char (c : Char)
  | tag (t : Tag) (written : Text)
deriving DecidableEq

namespace Symbol

def text : Symbol → Text
  | .char c => [c]
  | .tag _ written => written

/-- The text that a list of symbols was read from. -/
def textOf : List Symbol → Text
  | [] => []
  | .char c :: rest => c :: textOf rest
  | .tag _ written :: rest => written ++ textOf rest

def tag? : Symbol → Option Tag
  | .char _ => none
  | .tag t _ => some t

/-- Puts texts in the place of the tags for which `f` has one. -/
def replace (f : Tag → Option Text) : List Symbol → Text
  | [] => []
  | .char c :: rest => c :: replace f rest
  | .tag t written :: rest => (f t).getD written ++ replace f rest

/-- The text without the tags that `p` accepts. -/
def textWithout (p : Tag → Bool) (symbols : List Symbol) : Text :=
  replace (fun t => if p t then some [] else none) symbols

@[simp] theorem textOf_nil : textOf [] = [] := rfl
@[simp] theorem textOf_cons (s : Symbol) (rest : List Symbol) :
    textOf (s :: rest) = s.text ++ textOf rest := by
  cases s <;> rfl
@[simp] theorem textOf_append (a b : List Symbol) : textOf (a ++ b) = textOf a ++ textOf b := by
  induction a with
  | nil => rfl
  | cons s a ih => simp [ih]
@[simp] theorem textOf_map_char (s : Text) : textOf (s.map .char) = s := by
  induction s with
  | nil => rfl
  | cons c s ih => simp [ih, text]

theorem textOf_eq_flatMap (symbols : List Symbol) : textOf symbols = symbols.flatMap text := by
  induction symbols with
  | nil => rfl
  | cons s rest ih => simp [ih]

theorem textWithout_of_none {p : Tag → Bool} {symbols : List Symbol}
    (h : (symbols.any fun s => s.tag?.any p) = false) : textWithout p symbols = textOf symbols := by
  induction symbols with
  | nil => rfl
  | cons s rest ih =>
    simp only [List.any_cons, Bool.or_eq_false_iff] at h
    have := ih h.2
    cases s <;> simp_all [textWithout, replace, text, tag?]

end Symbol

namespace Scan

/-- Which kinds of tag are known to have no closer further on. -/
structure Hopeless where
  value : Bool := false
  control : Bool := false
  comment : Bool := false

namespace Hopeless

def has (h : Hopeless) : Delimiter → Bool
  | .value => h.value
  | .control => h.control
  | .comment => h.comment

def add (h : Hopeless) : Delimiter → Hopeless
  | .value => { h with value := true }
  | .control => { h with control := true }
  | .comment => { h with comment := true }

end Hopeless

/-- Where the scanner stands: in plain text, behind a brace, inside a tag, or inside a tag behind
the first character of its closer. A tag keeps its content in reverse and the text to go back to. -/
inductive State
  | plain
  | brace
  | inside (d : Delimiter) (content resume : Text)
  | closing (d : Delimiter) (content resume : Text)

def finished (d : Delimiter) (content : Text) : Symbol :=
  .tag (Tag.ofContent d content)
    ('{' :: d.openChar :: content ++ [d.closeChar, '}'])

/-- The symbols of the text still to be read. Every step costs one from the budget; a budget
that runs out leaves the rest as plain text. -/
def symbolsFrom : (budget : Nat) → Hopeless → State → Text → List Symbol
  | 0, _, .plain, rest => rest.map .char
  | 0, _, .brace, rest => .char '{' :: rest.map .char
  | 0, _, .inside _ _ resume, _ => .char '{' :: resume.map .char
  | 0, _, .closing _ _ resume, _ => .char '{' :: resume.map .char
  | _ + 1, _, .plain, [] => []
  | n + 1, h, .plain, c :: rest =>
    if c = '{' then symbolsFrom n h .brace rest
    else .char c :: symbolsFrom n h .plain rest
  | _ + 1, _, .brace, [] => [.char '{']
  | n + 1, h, .brace, c :: rest =>
    match Delimiter.ofOpenChar? c with
    | some d =>
      if h.has d then .char '{' :: symbolsFrom n h .plain (c :: rest)
      else symbolsFrom n h (.inside d [] (c :: rest)) rest
    | none => .char '{' :: symbolsFrom n h .plain (c :: rest)
  | n + 1, h, .inside d _ resume, [] => .char '{' :: symbolsFrom n (h.add d) .plain resume
  | n + 1, h, .inside d content resume, c :: rest =>
    if c = d.closeChar then symbolsFrom n h (.closing d content resume) rest
    else symbolsFrom n h (.inside d (c :: content) resume) rest
  | n + 1, h, .closing d _ resume, [] => .char '{' :: symbolsFrom n (h.add d) .plain resume
  | n + 1, h, .closing d content resume, c :: rest =>
    if c = '}' then finished d content.reverse :: symbolsFrom n h .plain rest
    else symbolsFrom n h (.inside d (d.closeChar :: content) resume) (c :: rest)

/-- Enough for four passes, one for each kind of tag that turns out to have no closer and one
more, with two steps for each character and a few steps at the ends. -/
def budget (s : Text) : Nat := 8 * s.length + 8

def symbols (s : Text) : List Symbol := symbolsFrom (budget s) {} .plain s

/-- The text that a state has read without having made symbols of it. -/
def State.held : State → Text
  | .plain => []
  | .brace => ['{']
  | .inside d content _ => '{' :: d.openChar :: content.reverse
  | .closing d content _ => '{' :: d.openChar :: content.reverse ++ [d.closeChar]

/-- The text to go back to is what stands behind the brace. -/
def State.Resumes (rest : Text) : State → Prop
  | .plain | .brace => True
  | .inside d content resume => resume = d.openChar :: content.reverse ++ rest
  | .closing d content resume => resume = d.openChar :: content.reverse ++ d.closeChar :: rest

theorem textOf_symbolsFrom (n : Nat) (h : Hopeless) (state : State) (rest : Text)
    (hs : state.Resumes rest) :
    Symbol.textOf (symbolsFrom n h state rest) = state.held ++ rest := by
  induction n generalizing h state rest with
  | zero =>
    cases state <;>
      simp_all [symbolsFrom, State.held, State.Resumes, Symbol.text, -List.map_reverse]
  | succ n ih =>
    cases state with
    | plain =>
      cases rest with
      | nil => rfl
      | cons c rest =>
        simp only [symbolsFrom]
        split
        · rename_i hc
          rw [ih _ .brace _ trivial, hc]
          rfl
        · rw [Symbol.textOf_cons, ih _ .plain _ trivial]
          rfl
    | brace =>
      cases rest with
      | nil => rfl
      | cons c rest =>
        simp only [symbolsFrom]
        split
        · rename_i d hd
          split
          · rw [Symbol.textOf_cons, ih _ .plain _ trivial]
            rfl
          · obtain rfl := Delimiter.ofOpenChar?_eq_some_iff.1 hd
            rw [ih _ _ _ (by simp [State.Resumes])]
            rfl
        · rw [Symbol.textOf_cons, ih _ .plain _ trivial]
          rfl
    | inside d content resume =>
      simp only [State.Resumes] at hs
      cases rest with
      | nil =>
        simp only [symbolsFrom]
        rw [Symbol.textOf_cons, ih _ .plain _ trivial, hs]
        simp [State.held, Symbol.text]
      | cons c rest =>
        simp only [symbolsFrom]
        split
        · rename_i hc
          rw [ih _ _ _ (by simp [State.Resumes, hs, hc]), hc]
          simp [State.held]
        · rw [ih _ _ _ (by simp [State.Resumes, hs])]
          simp [State.held]
    | closing d content resume =>
      simp only [State.Resumes] at hs
      cases rest with
      | nil =>
        simp only [symbolsFrom]
        rw [Symbol.textOf_cons, ih _ .plain _ trivial, hs]
        simp [State.held, Symbol.text]
      | cons c rest =>
        simp only [symbolsFrom]
        split
        · rename_i hc
          rw [Symbol.textOf_cons, ih _ .plain _ trivial, hc]
          simp [State.held, finished, Symbol.text]
        · rw [ih _ _ _ (by simp [State.Resumes, hs])]
          simp [State.held]

/-- Reading loses nothing. -/
@[simp] theorem textOf_symbols (s : Text) : Symbol.textOf (symbols s) = s :=
  textOf_symbolsFrom _ _ _ _ trivial

end Scan
end Stencil
