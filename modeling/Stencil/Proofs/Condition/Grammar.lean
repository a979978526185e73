import Stencil.Proofs.Condition.Splitting
import Stencil.Proofs.Literals

/-! The grammar of conditions: groups of atoms with `or` between them, and `and` between the
groups. Main statement: a condition that is written in this grammar is evaluated group by group and
atom by atom, whatever words its paths and quoted texts spell. -/
namespace Stencil.Grammar

/-- A dotted path that is none of the words between conditions. -/
structure Path where
  text : Text
  simple : text.isSimplePath = true
  ne_and : text ≠ "and".toList
  ne_or : text ≠ "or".toList

/-- A path that is no literal, so that it stands for the value it leads to. -/
structure Variable extends Path where
  ne_numeral : ∀ n : Numeral, n.text ≠ text
  ne_true : text ≠ "true".toList
  ne_false : text ≠ "false".toList
  ne_null : text ≠ "null".toList

inductive Constant
  | true
  | false
  | null

namespace Constant

def text : Constant → Text
  | .true => "true".toList
  | .false => "false".toList
  | .null => "null".toList

def value : Constant → Value
  | .true => .bool Bool.true
  | .false => .bool Bool.false
  | .null => .null

end Constant

/-- Neither white space nor a quote nor part of an operator. -/
def IsBare (c : Char) : Prop :=
  Text.isWhite c = false ∧ Comparison.isOperatorChar c = false ∧ ∀ q : Quote, c ≠ q.char

/-- A side of a comparison. -/
inductive Operand
  | var (p : Variable)
  | constant (k : Constant)
  | numeral (n : Numeral)
  | quoted (q : Quote) (s : Text) (bare : ∀ c ∈ s, IsBare c)

namespace Operand

def text : Operand → Text
  | .var p => p.text
  | .constant k => k.text
  | .numeral n => n.text
  | .quoted q s _ => q.wrap s

def value (vars : Fields) : Operand → Option Value
  | .var p => vars.valueAt? p.text
  | .constant k => some k.value
  | .numeral n => some n.value
  | .quoted _ s _ => some (.string s)

end Operand

inductive Test
  | defined
  | empty

namespace Test

def word : Test → Text
  | .defined => "defined".toList
  | .empty => "empty".toList

@[simp] lemma word_defined : defined.word = "defined".toList := rfl

@[simp] lemma word_empty : empty.word = "empty".toList := rfl

def holds : Test → Option Value → Bool
  | .defined => Condition.isDefined
  | .empty => Value.isEmpty

end Test

/-- A condition without `and` and `or`. A test has white space around each of its words and may
have a `not` before the last one; around an operator white space may be left out. -/
inductive Atom
  | truthy (p : Path) (ne_true : p.text ≠ "true".toList) (ne_false : p.text ≠ "false".toList)
  | constant (b : Bool)
  | test (p : Path) (g : Gap) (negation : Option Gap) (last : Gap) (kind : Test)
  | compare (l : Operand) (b : Blank) (op : Comparison) (a : Blank) (r : Operand)

namespace Atom

def text : Atom → Text
  | .truthy p _ _ => p.text
  | .constant b => if b then "true".toList else "false".toList
  | .test p g negation last kind =>
    p.text ++ g.text ++ "is".toList ++ (negation.elim [] fun n => n.text ++ "not".toList) ++
      last.text ++ kind.word
  | .compare l b op a r => l.text ++ (b.text ++ op.symbol ++ a.text ++ r.text)

def holds (vars : Fields) : Atom → Bool
  | .truthy p _ _ => Value.truthy (vars.valueAt? p.text)
  | .constant b => b
  | .test p _ negation _ kind => kind.holds (vars.valueAt? p.text) != negation.isSome
  | .compare l _ op _ r => op.holds (l.value vars) (r.value vars)

end Atom

/-- Parts with a word between each two of them, and the white space on both sides of that word. -/
inductive Chain (α : Type)
  | last (x : α)
  | join (x : α) (before after : Gap) (rest : Chain α)

namespace Chain
variable {α : Type}

def items : Chain α → List α
  | .last x => [x]
  | .join x _ _ rest => x :: rest.items

def text (keyword : Text) (part : α → Text) : Chain α → Text
  | .last x => part x
  | .join x before after rest =>
    part x ++ before.text ++ keyword ++ after.text ++ rest.text keyword part

end Chain

/-- Atoms with `or` between them. -/
abbrev Group := Chain Atom

def Group.text (group : Group) : Text := Chain.text "or".toList Atom.text group

/-- Groups with `and` between them, and white space around the whole. -/
structure Written where
  before : Blank
  groups : Chain Group
  after : Blank

def Written.text (w : Written) : Text :=
  w.before.text ++ Chain.text "and".toList Group.text w.groups ++ w.after.text

section Character

lemma isWordChar_of_isDigit {c : Char} (h : c.isDigit = true) : Text.isWordChar c = true := by
  simp [Text.isWordChar, Char.isAlphanum, h]

lemma isBare_of_isWordChar {c : Char} (h : Text.isWordChar c = true) : IsBare c := by
  refine ⟨Text.isWhite_of_isWordChar h, ?_, fun q hq => ?_⟩
  · rw [Bool.eq_false_iff]
    intro hop
    simp only [Comparison.isOperatorChar, Bool.or_eq_true, beq_iff_eq] at hop
    rcases hop with ((rfl | rfl) | rfl) | rfl <;> exact absurd h (by decide)
  · subst hq
    cases q <;> exact absurd h (by decide)

lemma isBare_point : IsBare '.' := ⟨by decide, by decide, fun q => by cases q <;> decide⟩

lemma isBare_minus : IsBare '-' := ⟨by decide, by decide, fun q => by cases q <;> decide⟩

end Character

lemma Test.isOperatorChar (kind : Test) {c : Char} (hc : c ∈ kind.word) :
    Comparison.isOperatorChar c = false := by
  have h : kind.word.all (!Comparison.isOperatorChar ·) = true := by cases kind <;> decide
  simpa using List.all_eq_true.mp h c hc

/-- Not one of the words between conditions. -/
def JoinsNothing (w : Text) : Prop := w ≠ "and".toList ∧ w ≠ "or".toList

instance (w : Text) : Decidable (JoinsNothing w) :=
  inferInstanceAs (Decidable (_ ∧ _))

/-- A word with a character of an operator is no such word. -/
lemma joinsNothing_of_mem {c : Char} (hc : Comparison.isOperatorChar c = true) {w : Text}
    (hw : c ∈ w) : JoinsNothing w := by
  have hfree : ("and".toList ++ "or".toList).all (!Comparison.isOperatorChar ·) = true := by decide
  constructor
  · rintro rfl
    have := List.all_eq_true.mp hfree c (List.mem_append_left _ hw)
    simp [hc] at this
  · rintro rfl
    have := List.all_eq_true.mp hfree c (List.mem_append_right _ hw)
    simp [hc] at this

namespace Path
variable (p : Path)

lemma ne_nil : p.text ≠ [] := Text.ne_nil_of_isWordOf p.simple

lemma isBare {c : Char} (hc : c ∈ p.text) : IsBare c := by
  have hword := Text.of_mem_isWordOf p.simple hc
  rw [Bool.or_eq_true, beq_iff_eq] at hword
  rcases hword with hword | rfl
  · exact isBare_of_isWordChar hword
  · exact isBare_point

lemma isWord : Text.IsWord p.text := ⟨p.ne_nil, fun _ hc => (p.isBare hc).1⟩

lemma joinsNothing : JoinsNothing p.text := ⟨p.ne_and, p.ne_or⟩

end Path

lemma Variable.operand?_text (p : Variable) (vars : Fields) :
    Literal.operand? p.text vars = vars.valueAt? p.text := by
  have hquote : ∀ q : Quote, p.text.head? ≠ some q.char := fun q hq =>
    (p.isBare (List.mem_of_mem_head? hq)).2.2 q rfl
  rw [Literal.operand?,
    Literal.scalar?_eq_none (Literal.unquote?_eq_none hquote) p.ne_numeral
      ⟨p.ne_true, p.ne_false, p.ne_null⟩]

namespace Operand
variable (o : Operand)

lemma operand?_text (vars : Fields) : Literal.operand? o.text vars = o.value vars := by
  cases o with
  | var p => exact p.operand?_text vars
  | constant k => cases k <;> rfl
  | numeral n => rw [Literal.operand?, text, Literal.scalar?_numeral, value]
  | quoted q s bare => rw [Literal.operand?, text, Literal.scalar?_wrap, value]

lemma isWord : Text.IsWord o.text := by
  cases o with
  | var p => exact p.isWord
  | constant k => cases k <;> decide
  | numeral n =>
    constructor
    · intro h
      rcases n.text_eq with ⟨-, ht⟩ | ⟨-, c, rest, ht, -⟩ <;>
        exact absurd (ht.symm.trans h) (by simp)
    · intro c hc
      rcases n.mem_text hc with rfl | rfl | h
      · exact isBare_minus.1
      · exact isBare_point.1
      · exact (isBare_of_isWordChar (isWordChar_of_isDigit h)).1
  | quoted q s bare =>
    constructor
    · simp [text, Quote.wrap]
    · intro c hc
      simp only [text, Quote.wrap, List.cons_append, List.mem_cons, List.mem_append,
        List.not_mem_nil, or_false] at hc
      rcases hc with rfl | hc | rfl
      · exact q.isWhite_char
      · exact (bare c hc).1
      · exact q.isWhite_char

lemma isOperatorChar {c : Char} (hc : c ∈ o.text) : Comparison.isOperatorChar c = false := by
  cases o with
  | var p => exact (p.isBare hc).2.1
  | constant k =>
    have h : k.text.all (fun c => !Comparison.isOperatorChar c) = true := by cases k <;> decide
    simpa using List.all_eq_true.mp h c hc
  | numeral n =>
    rcases n.mem_text hc with rfl | rfl | h
    · exact isBare_minus.2.1
    · exact isBare_point.2.1
    · exact (isBare_of_isWordChar (isWordChar_of_isDigit h)).2.1
  | quoted q s bare =>
    simp only [text, Quote.wrap, List.cons_append, List.mem_cons, List.mem_append,
      List.not_mem_nil, or_false] at hc
    have hq : Comparison.isOperatorChar q.char = false := by cases q <;> decide
    rcases hc with rfl | hc | rfl
    · exact hq
    · exact (bare c hc).2.1
    · exact hq

lemma joinsNothing : JoinsNothing o.text := by
  cases o with
  | var p => exact p.joinsNothing
  | constant k => cases k <;> decide
  | numeral n =>
    constructor <;> intro h
    · have := n.mem_text (h ▸ (by decide : 'a' ∈ "and".toList))
      revert this
      decide
    · have := n.mem_text (h ▸ (by decide : 'o' ∈ "or".toList))
      revert this
      decide
  | quoted q s bare =>
    constructor <;> intro h <;>
    · have hhead := congrArg List.head? h
      cases q <;> revert hhead <;> simp [text, Quote.wrap, Quote.char]

/-- An operand can stand on the right of a comparison. -/
lemma isRightSide : Condition.IsRightSide o.text where
  trimmed := o.isWord.isTrimmed
  nonempty := o.isWord.1
  head h := absurd (o.isOperatorChar (List.mem_of_mem_head? h)) (by decide)

end Operand

section Words

/-- A comparison is one word, or words that the white space around its operator separates. -/
lemma spells_compare (l : Operand) (b : Blank) (op : Comparison) (a : Blank) (r : Operand) :
    Text.Spells JoinsNothing (l.text ++ (b.text ++ op.symbol ++ a.text ++ r.text)) := by
  obtain ⟨c, symbol, hsymbol⟩ := List.exists_cons_of_ne_nil op.symbol_ne_nil
  have hc : c ∈ op.symbol := by simp [hsymbol]
  have hjoins {w : Text} (hw : op.symbol ⊆ w) : JoinsNothing w :=
    joinsNothing_of_mem (Comparison.isOperatorChar_of_mem hc) (hw hc)
  have hop : Text.IsWord op.symbol :=
    ⟨op.symbol_ne_nil, fun _ h =>
      Comparison.isWhite_of_isOperatorChar (Comparison.isOperatorChar_of_mem h)⟩
  -- the operator with what stands behind it, as a word or as two
  have hright (w : Text) (hw : ∀ c ∈ w, Text.isWhite c = false) :
      Text.Spells JoinsNothing (w ++ op.symbol ++ a.text ++ r.text) := by
    have hfront : Text.IsWord (w ++ op.symbol) :=
      ⟨List.append_ne_nil_of_right_ne_nil w hop.1, fun c hc =>
        (List.mem_append.mp hc).elim (hw c) (hop.2 c)⟩
    rcases Blank.eq_nil_or_gap a with ha | ⟨g, hg⟩
    · rw [ha, List.append_nil]
      exact .word (hfront.append r.isWord.2) (hjoins (by simp))
    · rw [← hg]
      exact .cons hfront (hjoins (by simp)) g (.word r.isWord r.joinsNothing)
  rcases Blank.eq_nil_or_gap b with hb | ⟨g, hg⟩
  · rw [hb, List.nil_append, ← List.append_assoc, ← List.append_assoc]
    exact hright l.text l.isWord.2
  · have := Text.Spells.cons l.isWord l.joinsNothing g (hright [] (by simp))
    rw [hg] at this
    simpa using this

lemma Atom.spells (atom : Atom) : Text.Spells JoinsNothing atom.text := by
  cases atom with
  | truthy p _ _ => exact .word p.isWord p.joinsNothing
  | constant b => cases b <;> exact .word (by decide) (by decide)
  | test p g negation last kind =>
    have hword : Text.Spells JoinsNothing kind.word := by
      cases kind <;> exact .word (by decide) (by decide)
    have his := Text.Spells.word (P := JoinsNothing) Condition.isWord_is (by decide)
    have hfront := (Text.Spells.word p.isWord p.joinsNothing).append g his
    cases negation with
    | none => simpa [text] using hfront.append last hword
    | some n =>
      have hnot := Text.Spells.word (P := JoinsNothing) Condition.isWord_not (by decide)
      simpa [text] using (hfront.append n hnot).append last hword
  | compare l b op a r => exact spells_compare l b op a r

/-- A chain is spelled by the words of its parts and the word between them. -/
lemma Chain.spells {α : Type} {P : Text → Prop} {keyword : Text} {part : α → Text}
    (hkeyword : Text.IsWord keyword) (h : P keyword) (hpart : ∀ x, Text.Spells P (part x))
    (chain : Chain α) : Text.Spells P (chain.text keyword part) := by
  induction chain with
  | last x => exact hpart x
  | join x before after rest ih =>
    exact ((hpart x).append before (.word hkeyword h)).append after ih

lemma Group.spells (group : Group) : Text.Spells (· ≠ "and".toList) group.text :=
  Chain.spells (by decide) (by decide) (fun atom => atom.spells.mono fun _ h => h.1) group

lemma isWord_and : Text.IsWord "and".toList := by decide

lemma isWord_or : Text.IsWord "or".toList := by decide

end Words

section Reading
open Condition

variable (vars : Fields)

lemma holds_parseAtom (atom : Atom) : (parseAtom atom.text).holds vars = atom.holds vars := by
  cases atom with
  | truthy p ne_true ne_false =>
    rw [Atom.text, parseAtom_word (fun c hc => (p.isBare hc).1) (fun c hc => (p.isBare hc).2.1),
      if_neg ne_true, if_neg ne_false, if_pos p.simple]
    rfl
  | constant b => cases b <;> rfl
  | test p g negation last kind =>
    have hsplit : splitTest? kind.word (Atom.test p g negation last kind).text =
        some (p.text, negation.isSome) :=
      splitTest?_append p.isWord.isTrimmed p.ne_nil g negation last
    cases kind with
    | defined =>
      rw [Test.word_defined] at hsplit
      simp only [parseAtom, hsplit, Condition.holds, Atom.holds, Test.holds]
    | empty =>
      have hdefined :
          splitTest? "defined".toList (Atom.test p g negation last .empty).text = none := by
        refine splitTest?_of_getLast ?_ (by simp)
        rw [Atom.text, List.getLast?_append_of_ne_nil _ (by simp)]
        decide
      rw [Test.word_empty] at hsplit
      simp only [parseAtom, hdefined, hsplit, Condition.holds, Atom.holds, Test.holds]
  | compare l b op a r =>
    -- a test would end with its word, and this text ends with an operand behind an operator
    have hnone (kind : Test) :
        splitTest? kind.word (l.text ++ (b.text ++ op.symbol ++ a.text ++ r.text)) = none := by
      have hx := op.symbol.getLast_mem op.symbol_ne_nil
      have := splitTest?_comparison (fun _ => kind.isOperatorChar)
        (l.text ++ b.text ++ op.symbol.dropLast) (Comparison.isOperatorChar_of_mem hx) a r.isWord.2
      rw [← List.dropLast_append_getLast op.symbol_ne_nil]
      simpa using this
    rw [Atom.text, parseAtom_comparison l.isWord (fun _ => l.isOperatorChar) b op a r.isRightSide
      (hnone .defined) (hnone .empty)]
    simp only [Condition.holds, Operand.operand?_text, Atom.holds]

lemma splitKeyword?_spells {keyword s : Text} (hkeyword : Text.IsWord keyword)
    (hs : Text.Spells (· ≠ keyword) s) : splitKeyword? keyword s = none := by
  have := (standsIn_spells hkeyword hs (g := []) (by simp)).1
  rw [List.append_nil] at this
  exact splitKeyword?_eq_none this

lemma conditionHolds_atom (atom : Atom) : conditionHolds atom.text vars = atom.holds vars := by
  have hand := splitKeyword?_spells isWord_and (atom.spells.mono fun _ h => h.1)
  have hor := splitKeyword?_spells isWord_or (atom.spells.mono fun _ h => h.2)
  rw [conditionHolds, parse_atom atom.spells.isTrimmed hand hor, holds_parseAtom]

/-- A chain is split behind its first part. -/
lemma splitKeyword?_chain {α : Type} {keyword : Text} (hkeyword : Text.IsWord keyword)
    (part : α → Text) {P : Text → Prop} (h : P keyword) (hpart : ∀ x, Text.Spells P (part x))
    {x : α} (hx : Text.Spells (· ≠ keyword) (part x)) (before after : Gap) (rest : Chain α) :
    splitKeyword? keyword ((Chain.join x before after rest).text keyword part) =
      some (part x, rest.text keyword part) :=
  have hrest := Chain.spells hkeyword h hpart rest
  splitKeyword?_append hkeyword hx.ne_nil hx.isTrimmed.2 before after hrest.isTrimmed hrest.ne_nil
    (standsIn_spells hkeyword hx before.white).1

lemma conditionHolds_group (group : Group) :
    conditionHolds group.text vars = group.items.any (·.holds vars) := by
  induction group with
  | last atom =>
    rw [Group.text, Chain.text, conditionHolds_atom, Chain.items]
    simp
  | join atom before after rest ih =>
    have hgroup := Group.spells (.join atom before after rest)
    have hsplit := splitKeyword?_chain isWord_or Atom.text trivial
      (fun a => a.spells.mono fun _ _ => trivial) (atom.spells.mono fun _ h => h.2) before after
      rest
    have hparse := parse_either hgroup.isTrimmed (splitKeyword?_spells isWord_and hgroup) hsplit
    rw [conditionHolds, hparse, Condition.holds, Chain.items, List.any_cons, ← ih,
      ← conditionHolds_atom]
    rfl

lemma conditionHolds_groups (groups : Chain Group) :
    conditionHolds (groups.text "and".toList Group.text) vars =
      groups.items.all fun group => group.items.any (·.holds vars) := by
  induction groups with
  | last group =>
    rw [Chain.text, conditionHolds_group, Chain.items]
    simp
  | join group before after rest ih =>
    have hspells := Chain.spells isWord_and (P := fun _ => True) trivial
      (fun group => (Group.spells group).mono fun _ _ => trivial) (.join group before after rest)
    have hsplit := splitKeyword?_chain isWord_and Group.text trivial
      (fun a => a.spells.mono fun _ _ => trivial) (Group.spells group) before after rest
    rw [conditionHolds, parse_both hspells.isTrimmed hsplit, Condition.holds, Chain.items,
      List.all_cons, ← ih, ← conditionHolds_group]
    rfl

lemma conditionHolds_text (w : Written) :
    conditionHolds w.text vars =
      w.groups.items.all fun group => group.items.any (·.holds vars) := by
  have hspells := Chain.spells isWord_and (P := fun _ => True) trivial
    (fun group => (Group.spells group).mono fun _ _ => trivial) w.groups
  have hparse := parse_trim (s := w.text) (t := w.groups.text "and".toList Group.text) (by
    rw [Written.text, Text.trim_between hspells.isTrimmed, hspells.isTrimmed.trim_eq])
  rw [← conditionHolds_groups, conditionHolds, hparse]
  rfl

end Reading

end Stencil.Grammar
