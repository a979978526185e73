import Stencil.Locals
import Stencil.Proofs.Condition.Meaning
import Stencil.Proofs.Condition.Overflow

/-! Bindings as they are written between braces. Main statement: read back they are the object that
comes from inserting in order the values that they stand for, whatever stands in a quoted text and
whatever white space stands around the keys, the colons, the values and the commas. -/
namespace Stencil

namespace Locals

/-- A dotted path that is no literal. -/
structure Path where
  text : Text
  simple : text.isSimplePath = true
  ne_numeral : ∀ n : Numeral, n.text ≠ text
  ne_constant : ∀ k : Grammar.Constant, k.text ≠ text

/-- A value as it is written. A quoted text may hold anything but its quote and backslashes. -/
inductive Term
  | quoted (q : Quote) (s : Text) (quote_not_mem : q.char ∉ s) (slash_not_mem : '\\' ∉ s)
  | numeral (n : Numeral)
  | constant (k : Grammar.Constant)
  | path (p : Path)

namespace Term

def text : Term → Text
  | .quoted q s _ _ => q.wrap s
  | .numeral n => n.text
  | .constant k => k.text
  | .path p => p.text

/-- What a value stands for: a quoted text for itself, a literal for its value, and a path for the
value that it has, or for null. -/
inductive Stands (vars : Fields) : Term → Value → Prop
  | quoted (q : Quote) (s : Text) (quote_not_mem : q.char ∉ s) (slash_not_mem : '\\' ∉ s) :
    Stands vars (.quoted q s quote_not_mem slash_not_mem) (.string s)
  | numeral {n : Numeral} {v : Value} (h : n.Means v) : Stands vars (.numeral n) v
  | constant (k : Grammar.Constant) : Stands vars (.constant k) k.value
  | has {p : Path} {v : Value} (h : vars.Has p.text v) : Stands vars (.path p) v
  | absent {p : Path} (h : ∀ v, ¬vars.Has p.text v) : Stands vars (.path p) .null

/-- A path to nothing is null. -/
def value (vars : Fields) : Term → Value
  | .quoted _ s _ _ => .string s
  | .numeral n => n.value
  | .constant k => k.value
  | .path p => (vars.valueAt? p.text).getD .null

end Term

/-- A key and a value, with the white space around them. -/
structure Binding where
  before : Blank
  key : Text
  isKey : key.isWordOf isKeyChar = true
  quoted : Bool
  beforeColon : Blank
  afterColon : Blank
  term : Term
  after : Blank

namespace Binding
variable (b : Binding)

def keyText : Text := if b.quoted then Quote.double.wrap b.key else b.key

def core : Text := b.keyText ++ b.beforeColon.text ++ ':' :: (b.afterColon.text ++ b.term.text)

def text : Text := b.before.text ++ b.core ++ b.after.text

end Binding

/-- Bindings between braces. Without bindings there may be white space between the braces. -/
structure Object where
  before : Blank
  bindings : List Binding
  inside : Blank
  after : Blank

namespace Object
variable (o : Object)

def inner : Text :=
  if o.bindings.isEmpty then o.inside.text else [','].intercalate (o.bindings.map Binding.text)

def text : Text := o.before.text ++ ('{' :: o.inner ++ ['}']) ++ o.after.text

/-- The entries that are written: the keys in order, each with what its value stands for. -/
def Writes (vars : Fields) (entries : Entries Value) : Prop :=
  List.Forall₂ (fun b entry => entry.1 = b.key ∧ b.term.Stands vars entry.2) o.bindings entries

def entries (vars : Fields) : Entries Value := o.bindings.map fun b => (b.key, b.term.value vars)

end Object

/-- The text is gone through without coming to the end of a binding. -/
def Unbroken (w : Text) : Prop := ∀ seen rest,
  splitBindings none false seen (w ++ rest) = splitBindings none false (w.reverse ++ seen) rest

namespace Unbroken
variable {w w' : Text}

lemma append (hw : Unbroken w) (hw' : Unbroken w') : Unbroken (w ++ w') := by
  intro seen rest
  rw [List.append_assoc, hw, hw', List.reverse_append, List.append_assoc]

/-- Commas and quotes are what is looked for. -/
lemma of_forall (h : ∀ c ∈ w, c ≠ ',' ∧ ∀ q : Quote, c ≠ q.char) : Unbroken w := by
  induction w with
  | nil => exact fun _ _ => rfl
  | cons c w ih =>
    obtain ⟨⟨hcomma, hquote⟩, hw⟩ := List.forall_mem_cons.mp h
    have hdouble : c ≠ '"' := hquote .double
    have hsingle : c ≠ '\'' := hquote .single
    intro seen rest
    rw [List.cons_append, splitBindings]
    simp [hdouble, hsingle, hcomma, ih hw (c :: seen) rest]

lemma wrap {q : Quote} {s : Text} (hquote : q.char ∉ s) (hslash : '\\' ∉ s) :
    Unbroken (q.wrap s) := by
  have hinside (seen rest : Text) : splitBindings (some q.char) false seen (s ++ rest) =
      splitBindings (some q.char) false (s.reverse ++ seen) rest := by
    induction s generalizing seen with
    | nil => rfl
    | cons c s ih =>
      simp only [List.mem_cons, not_or] at hquote hslash
      rw [List.cons_append, splitBindings]
      simp [Ne.symm hquote.1, Ne.symm hslash.1, ih hquote.2 hslash.2]
  intro seen rest
  have htext : q.wrap s ++ rest = q.char :: (s ++ q.char :: rest) := by simp [Quote.wrap]
  have hopen : splitBindings none false seen (q.char :: (s ++ q.char :: rest)) =
      splitBindings (some q.char) false (q.char :: seen) (s ++ q.char :: rest) := by
    cases q <;> rfl
  rw [htext, hopen, hinside]
  cases q <;> simp [splitBindings, Quote.wrap, Quote.char]

end Unbroken

lemma of_mem_isKeyChar {c : Char} (h : isKeyChar c = true) :
    Text.isWhite c = false ∧ c ≠ ',' ∧ c ≠ ':' ∧ ∀ q : Quote, c ≠ q.char := by
  simp only [isKeyChar, Bool.or_eq_true, beq_iff_eq] at h
  rcases h with (h | rfl) | rfl
  · refine ⟨Text.isWhite_of_isWordChar h, ?_, ?_, fun q => ?_⟩
    · rintro rfl
      cases h
    · rintro rfl
      cases h
    · rintro rfl
      cases q <;> cases h
  · exact ⟨by decide, by decide, by decide, fun q => by cases q <;> decide⟩
  · exact ⟨by decide, by decide, by decide, fun q => by cases q <;> decide⟩

/-- A quoted text, or a word of the characters that a key may have. -/
def IsAtom (s : Text) : Prop :=
  (∃ (q : Quote) (t : Text), q.char ∉ t ∧ '\\' ∉ t ∧ s = q.wrap t) ∨ s.isWordOf isKeyChar = true

namespace IsAtom
variable {s : Text}

lemma ne_nil (h : IsAtom s) : s ≠ [] := by
  rcases h with ⟨q, t, -, -, rfl⟩ | h
  · simp [Quote.wrap]
  · exact Text.ne_nil_of_isWordOf h

lemma isTrimmed (h : IsAtom s) : s.IsTrimmed := by
  rcases h with ⟨q, t, -, -, rfl⟩ | h
  · exact q.isTrimmed_wrap t
  · exact (Text.isWord_of_isWordOf (fun _ hc => (of_mem_isKeyChar hc).1) h).isTrimmed

lemma unbroken (h : IsAtom s) : Unbroken s := by
  rcases h with ⟨q, t, hquote, hslash, rfl⟩ | h
  · exact .wrap hquote hslash
  · refine .of_forall fun c hc => ?_
    obtain ⟨-, hcomma, -, hquote⟩ := of_mem_isKeyChar (Text.of_mem_isWordOf h hc)
    exact ⟨hcomma, hquote⟩

end IsAtom

namespace Term
variable (t : Term)

lemma isAtom : IsAtom t.text := by
  cases t with
  | quoted q s hquote hslash => exact .inl ⟨q, s, hquote, hslash, rfl⟩
  | numeral n =>
    refine .inr (Text.isWordOf_of_forall (Grammar.Operand.numeral n).isWord.1 fun c hc => ?_)
    rcases n.mem_text hc with rfl | rfl | hdigit
    · rfl
    · rfl
    · simp [isKeyChar, Grammar.isWordChar_of_isDigit hdigit]
  | constant k => cases k <;> exact .inr (by decide)
  | path p =>
    refine .inr (Text.isWordOf_of_forall (Text.ne_nil_of_isWordOf p.simple) fun c hc => ?_)
    have hchar := Text.of_mem_isWordOf p.simple hc
    rw [isKeyChar, hchar, Bool.true_or]

lemma operand?_text (vars : Fields) :
    (Literal.operand? t.text vars).getD .null = t.value vars := by
  cases t with
  | quoted q s _ _ => rw [Literal.operand?, text, Literal.scalar?_wrap]; rfl
  | numeral n => rw [Literal.operand?, text, Literal.scalar?_numeral]; rfl
  | constant k => cases k <;> rfl
  | path p =>
    have hquote (q : Quote) : p.text.head? ≠ some q.char := by
      intro hq
      have hc := Text.of_mem_isWordOf p.simple (List.mem_of_mem_head? hq)
      cases q <;> cases hc
    have hnone := Literal.scalar?_eq_none (Literal.unquote?_eq_none hquote) p.ne_numeral
      ⟨(p.ne_constant .true).symm, (p.ne_constant .false).symm, (p.ne_constant .null).symm⟩
    rw [Literal.operand?, text, hnone, value]

lemma stands_iff {vars : Fields} {v : Value} : t.Stands vars v ↔ v = t.value vars := by
  constructor
  · intro h
    cases h with
    | numeral h => exact (Numeral.means_iff _).mp h
    | has h => rw [value, Fields.valueAt?_eq_some_iff.mpr h, Option.getD_some]
    | absent h => rw [value, Fields.valueAt?_eq_none_iff.mpr h, Option.getD_none]
    | quoted | constant => rfl
  · rintro rfl
    cases t with
    | quoted q s hquote hslash => exact .quoted q s hquote hslash
    | numeral n => exact .numeral (n.means_iff.mpr rfl)
    | constant k => exact .constant k
    | path p =>
      rw [value]
      cases h : vars.valueAt? p.text with
      | none => exact .absent (Fields.valueAt?_eq_none_iff.mp h)
      | some v => exact .has (Fields.valueAt?_eq_some_iff.mp h)

end Term

lemma Object.writes_iff (o : Object) {vars : Fields} {entries : Entries Value} :
    o.Writes vars entries ↔ entries = o.entries vars := by
  have hentry (b : Binding) (entry : Text × Value) :
      entry.1 = b.key ∧ b.term.Stands vars entry.2 ↔ (b.key, b.term.value vars) = entry := by
    rw [b.term.stands_iff, Prod.ext_iff, eq_comm, eq_comm (a := entry.2)]
  simp only [Writes, hentry]
  rw [← List.forall₂_map_left_iff (R := (· = ·)), List.forall₂_eq_eq_eq, Object.entries,
    eq_comm]

namespace Binding
variable (b : Binding)

lemma isAtom_keyText : IsAtom b.keyText := by
  rw [keyText]
  split
  · have hkey {c : Char} (hc : c ∈ b.key) := of_mem_isKeyChar (Text.of_mem_isWordOf b.isKey hc)
    refine .inl ⟨.double, b.key, fun hc => (hkey hc).2.2.2 .double rfl, fun hc => ?_, rfl⟩
    have := Text.of_mem_isWordOf b.isKey hc
    cases this
  · exact .inr b.isKey

lemma colon_not_mem_keyText : ':' ∉ b.keyText := by
  have hkey : ':' ∉ b.key := fun hc =>
    (of_mem_isKeyChar (Text.of_mem_isWordOf b.isKey hc)).2.2.1 rfl
  rw [keyText]
  split
  · simpa [Quote.wrap, Quote.char] using hkey
  · exact hkey

lemma unquoteKey?_keyText : unquoteKey? b.keyText = some b.key := by
  rw [keyText]
  split
  · exact Text.before?_eq_some_iff.mpr rfl
  · unfold unquoteKey?
    split
    · rename_i rest hkey
      have := Text.of_mem_isWordOf b.isKey (hkey ▸ List.mem_cons_self)
      cases this
    · rfl

lemma isTrimmed_core : b.core.IsTrimmed := by
  have hterm := b.term.isAtom
  have := b.isAtom_keyText.isTrimmed.append b.isAtom_keyText.ne_nil hterm.isTrimmed hterm.ne_nil
    (b.beforeColon.text ++ ':' :: b.afterColon.text)
  simpa [core] using this

lemma trim_text : b.text.trim = b.core := Text.trim_between b.isTrimmed_core b.before b.after

lemma unbroken_text : Unbroken b.text := by
  have hblank (a : Blank) : Unbroken a.text := by
    refine .of_forall fun c hc => ⟨?_, fun q => ?_⟩
    · rintro rfl
      exact absurd (a.white _ hc) (by decide)
    · rintro rfl
      have := a.white _ hc
      rw [q.isWhite_char] at this
      cases this
  have hcolon : Unbroken [':'] := .of_forall fun c hc => by
    obtain rfl := List.mem_singleton.mp hc
    exact ⟨by decide, fun q => by cases q <;> decide⟩
  have hcore : Unbroken b.core := by
    have := ((b.isAtom_keyText.unbroken.append (hblank b.beforeColon)).append hcolon).append
      ((hblank b.afterColon).append b.term.isAtom.unbroken)
    simpa [core] using this
  exact ((hblank b.before).append hcore).append (hblank b.after)

lemma isBlank_text : b.text.isBlank = false := by
  have hcolon : ':' ∈ b.text := by simp [text, core]
  rw [Text.isBlank, List.all_eq_false]
  exact ⟨':', hcolon, by decide⟩

lemma splitBinding?_core : splitBinding? b.core = some (b.key, b.term.text) := by
  have hcolon : ∀ c ∈ b.keyText ++ b.beforeColon.text, (c == ':') = false := by
    intro c hc
    rw [beq_eq_false_iff_ne]
    rintro rfl
    rcases List.mem_append.mp hc with hc | hc
    · exact b.colon_not_mem_keyText hc
    · exact absurd (b.beforeColon.white _ hc) (by decide)
  have hsplit := Text.splitFirst?_append hcolon (c := ':') rfl (b.afterColon.text ++ b.term.text)
  have hkey : Text.trim (b.keyText ++ b.beforeColon.text) = b.keyText :=
    Text.trim_between b.isAtom_keyText.isTrimmed .none b.beforeColon
  have hvalue : Text.trim (b.afterColon.text ++ b.term.text) = b.term.text :=
    Text.trim_before b.term.isAtom.isTrimmed b.afterColon
  rw [splitBinding?, core, hsplit]
  simp [hkey, b.unquoteKey?_keyText, hvalue, b.isKey, b.term.isAtom.ne_nil]

end Binding

lemma splitBindings_cons {w : Text} (hw : Unbroken w) (rest : Text) :
    splitBindings none false [] (w ++ ',' :: rest) =
      w.trim :: splitBindings none false [] rest := by
  rw [hw, splitBindings]
  simp

lemma splitBindings_last {w : Text} (hw : Unbroken w) (hblank : w.isBlank = false) :
    splitBindings none false [] w = [w.trim] := by
  have hall : Text.isBlank w.reverse = false := by rwa [Text.isBlank, List.all_reverse]
  have := hw [] []
  rw [List.append_nil, List.append_nil] at this
  rw [this, splitBindings, hall, List.reverse_reverse]
  rfl

/-- The bindings are told apart by the commas between them. -/
lemma splitBindings_intercalate {bs : List Binding} (hne : bs ≠ []) :
    splitBindings none false [] ([','].intercalate (bs.map Binding.text)) =
      bs.map Binding.core := by
  induction bs with
  | nil => exact absurd rfl hne
  | cons b bs ih =>
    cases bs with
    | nil =>
      rw [List.map_singleton, List.intercalate_singleton,
        splitBindings_last b.unbroken_text b.isBlank_text, b.trim_text]
      rfl
    | cons c bs =>
      have hrest := ih (List.cons_ne_nil c bs)
      rw [List.map_cons, List.map_cons, List.intercalate_cons_cons, List.append_assoc,
        List.singleton_append, splitBindings_cons b.unbroken_text, b.trim_text, ← List.map_cons,
        hrest]
      rfl

lemma stripBraces_braced (inner : Text) : stripBraces ('{' :: inner ++ ['}']) = inner := by
  have hbefore : Text.before? ['}'] (inner ++ ['}']) = some inner :=
    Text.before?_eq_some_iff.mpr rfl
  rw [List.cons_append, stripBraces, hbefore]
  rfl

lemma Object.isBlank_inner (o : Object) : o.inner.isBlank = o.bindings.isEmpty := by
  rw [inner]
  cases hbindings : o.bindings with
  | nil => exact List.all_eq_true.mpr o.inside.white
  | cons b bs =>
    have hprefix : ∃ rest, [','].intercalate ((b :: bs).map Binding.text) = b.text ++ rest := by
      cases bs with
      | nil => exact ⟨[], by simp⟩
      | cons c bs => exact ⟨_, by rw [List.map_cons, List.map_cons, List.intercalate_cons_cons,
          List.append_assoc]⟩
    obtain ⟨rest, hrest⟩ := hprefix
    rw [List.isEmpty_cons, if_neg (by simp), hrest, Text.isBlank, List.all_append,
      ← Text.isBlank, b.isBlank_text, Bool.false_and]

lemma splitBindings_inner (o : Object) (h : o.bindings ≠ []) :
    (splitBindings none false [] o.inner).filterMap splitBinding? =
      o.bindings.map fun b => (b.key, b.term.text) := by
  rw [Object.inner, if_neg (by simpa using h), splitBindings_intercalate h, List.filterMap_map]
  exact List.filterMap_eq_map_iff_forall_eq_some.mpr fun b _ => b.splitBinding?_core

/-- Bindings are read as the object that they write: what the values stand for is inserted in order,
so that the keys come in the order of their first appearance and each has its last value. -/
theorem read_object (o : Object) (vars : Fields) :
    (∃ entries, o.Writes vars entries) ∧ ∀ entries, o.Writes vars entries →
      read o.text vars = Entries.overlay [] entries ∧
      (read o.text vars).keys = (o.bindings.map Binding.key).eraseDups ∧
      ∀ key, (read o.text vars).get? key = Entries.get? entries.reverse key := by
  refine ⟨⟨_, o.writes_iff.mpr rfl⟩, fun entries hentries => ?_⟩
  obtain rfl := o.writes_iff.mp hentries
  have hread : read o.text vars = Entries.overlay [] (o.entries vars) := by
    have htrim : o.text.trim = '{' :: o.inner ++ ['}'] :=
      Text.trim_between (Text.isTrimmed_enclosed (by decide) (by decide) o.inner) o.before o.after
    rw [read, htrim, stripBraces_braced, o.isBlank_inner]
    by_cases h : o.bindings = []
    · rw [h, Object.entries, h]
      rfl
    · rw [if_neg (by simpa using h), splitBindings_inner o h, Object.entries, Entries.overlay,
        List.foldl_map, List.foldl_map]
      simp only [Term.operand?_text]
  refine ⟨hread, ?_, fun key => ?_⟩
  · have hkeys : (Entries.overlay [] (o.entries vars)).keys =
        ([] ++ Entries.keys (o.entries vars)).eraseDups := Entries.keys_overlay rfl
    rw [hread, hkeys, List.nil_append, Entries.keys, Object.entries, List.map_map]
    rfl
  · rw [hread, Entries.get?_overlay_reverse, Entries.get?_nil, Option.or_none]

/-- A path whose side conditions can be decided. -/
def pathOf (s : Text) (simple : s.isSimplePath = true) (notNumeral : Literal.isNumeral s = false)
    (notConstant : s ∉ ["true".toList, "false".toList, "null".toList]) : Path where
  text := s
  simple := simple
  ne_numeral := Literal.ne_of_isNumeral notNumeral
  ne_constant k h := by cases k <;> exact notConstant (by simp [← h, Grammar.Constant.text])

/-- A binding with one blank behind its colon. -/
def bind (before : Blank) (key : Text) (isKey : key.isWordOf isKeyChar = true) (term : Term) :
    Binding where
  before := before
  key := key
  isKey := isKey
  quoted := false
  beforeColon := .none
  afterColon := Grammar.space
  term := term
  after := .none

def siteOwner : Path := pathOf "site.owner".toList rfl rfl (by decide)

def siteMail : Path := pathOf "site.mail".toList rfl rfl (by decide)

/-- A value of each kind, and one key twice. -/
def profile : Object where
  before := .none
  bindings := [
    bind .none "who".toList rfl (.quoted .single "a, \x7bb\x7d: c".toList (by decide) (by decide)),
    bind Grammar.space "count".toList rfl (.numeral (Grammar.tenTo 2)),
    bind Grammar.space "share".toList rfl (.numeral Grammar.fiveHalves),
    bind Grammar.space "mail".toList rfl (.path siteMail),
    bind Grammar.space "who".toList rfl (.path siteOwner)]
  inside := .none
  after := .none

def site : Fields := [("site".toList, .object [("owner".toList, .string "ada".toList)])]

theorem read_object_profile : ∃ x : Binary64, x.toRat? = some (5 / 2) ∧
    read "\x7bwho: 'a, \x7bb\x7d: c', count: 100, share: 2.5, mail: site.mail, who: site.owner\x7d".toList
      site = [("who".toList, .string "ada".toList), ("count".toList, .number (.int 100)),
        ("share".toList, .number (.float x)), ("mail".toList, .null)] := by
  have hsite : site.Leads ["site".toList] (.object [("owner".toList, .string "ada".toList)]) :=
    .start rfl
  have howner : site.Has siteOwner.text (.string "ada".toList) := hsite.step (.field rfl)
  have hmail (v : Value) : ¬site.Has siteMail.text v := fun h => by
    have := Fields.valueAt?_eq_some_iff.mpr h
    cases this
  have hcount : (Grammar.tenTo 2).Means (.number (.int 100)) := by
    refine ⟨100, ?_, .int (by norm_num) (by decide)⟩
    have : (Grammar.tenTo 2).toRat = (100 : ℤ) := by decide +kernel
    rw [this]
    exact (Binary64.roundsTo_intCast 100).mpr (by decide +kernel)
  have hx : Grammar.fiveHalves.number.toRat? = some (5 / 2) := by decide +kernel
  have hshare : Grammar.fiveHalves.Means (.number (.float Grammar.fiveHalves.number)) := by
    have hsmall : |(5 / 2 : ℚ)| < 2 ^ 1024 := by
      have hpow : (2 : ℚ) ^ 2 ≤ 2 ^ 1024 := pow_le_pow_right₀ (by norm_num) (by decide)
      have habs : |(5 / 2 : ℚ)| < 2 ^ 2 := by norm_num
      exact habs.trans_le hpow
    refine ⟨5 / 2, ?_, .float hx hsmall fun z hz => ?_⟩
    · rw [Numeral.toRat_eq]
      exact (Grammar.fiveHalves.decimal.roundsTo_signed false).mpr hx
    · have : (5 : ℤ) = 2 * z := by
        have := congrArg (2 * ·) hz
        norm_num at this
        exact_mod_cast this
      omega
  obtain ⟨-, hread⟩ := read_object profile site
  have hwrites : profile.Writes site [("who".toList, .string "a, \x7bb\x7d: c".toList),
      ("count".toList, .number (.int 100)),
      ("share".toList, .number (.float Grammar.fiveHalves.number)), ("mail".toList, .null),
      ("who".toList, .string "ada".toList)] :=
    .cons ⟨rfl, .quoted _ _ _ _⟩ (.cons ⟨rfl, .numeral hcount⟩ (.cons ⟨rfl, .numeral hshare⟩
      (.cons ⟨rfl, .absent hmail⟩ (.cons ⟨rfl, .has howner⟩ .nil))))
  exact ⟨_, hx, (hread _ hwrites).1⟩

end Locals
end Stencil
