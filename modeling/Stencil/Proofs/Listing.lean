import Stencil.LoopSource
import Stencil.Proofs.Literals

/-! Lists of quoted texts as the source of a loop. Where all quotes are double the list is JSON, and
otherwise it is cut at its commas. Main statement: whichever reader of JSON is used, the loop goes
over the texts between the quotes exactly when the list is JSON or no comma stands in a text. -/
namespace Stencil

section Separated
variable {α : Type} [BEq α] [LawfulBEq α] {a : α}

omit [LawfulBEq α] in
lemma length_splitOn (s : List α) : (s.splitOn a).length = s.count a + 1 := by
  induction s with
  | nil => simp
  | cons x s ih =>
    rw [List.splitOn_cons_eq_if_modifyHead, List.count_cons]
    split
    · rw [List.length_cons, ih]
    · rw [List.length_modifyHead, ih, Nat.add_zero]

lemma count_intercalate {ls : List (List α)} (hne : ls ≠ []) :
    ([a].intercalate ls).count a + 1 = ls.length + ls.flatten.count a := by
  induction ls with
  | nil => exact absurd rfl hne
  | cons l ls ih =>
    cases ls with
    | nil => simp [Nat.add_comm]
    | cons m ls =>
      have := ih (List.cons_ne_nil m ls)
      rw [List.intercalate_cons_cons, List.count_append, List.count_append, List.flatten_cons,
        List.count_append, List.count_singleton_self, List.length_cons]
      omega

/-- Cutting finds as many parts as were joined exactly when no part holds a separator. -/
lemma length_splitOn_intercalate_iff {ls : List (List α)} (hne : ls ≠ []) :
    (([a].intercalate ls).splitOn a).length = ls.length ↔ ∀ l ∈ ls, a ∉ l := by
  have hcount : (([a].intercalate ls).splitOn a).length = ls.length ↔ ls.flatten.count a = 0 := by
    rw [length_splitOn, count_intercalate hne]
    omega
  rw [hcount, List.count_eq_zero]
  simp

end Separated

namespace Json

/-- White space of JSON, or nothing. -/
structure Space where
  text : Text
  blank : ∀ c ∈ text, isBlank c = true

lemma isWhite_of_isBlank {c : Char} (h : isBlank c = true) : Text.isWhite c = true := by
  simp only [isBlank, Bool.or_eq_true, beq_iff_eq] at h
  rcases h with ((rfl | rfl) | rfl) | rfl <;> decide

def Space.toBlank (b : Space) : Blank := ⟨b.text, fun c hc => isWhite_of_isBlank (b.blank c hc)⟩

/-- A character that stands for itself between double quotes. -/
def IsVerbatim (c : Char) : Prop := c ≠ '"' ∧ c ≠ '\\' ∧ 0x20 ≤ c.toNat

lemma lexemesFrom_cons {m m' : Mode} {c : Char} {done : List Lexeme}
    (h : step m c = some (done, m')) (s : Text) :
    lexemesFrom m (c :: s) = (lexemesFrom m' s).map (done ++ ·) := by
  rw [lexemesFrom, h]
  rfl

/-- A character that completes no lexeme. -/
lemma lexemesFrom_cons_nil {m m' : Mode} {c : Char} (h : step m c = some ([], m')) (s : Text) :
    lexemesFrom m (c :: s) = lexemesFrom m' s := by
  rw [lexemesFrom_cons h]
  exact Option.map_id'

/-- A character that is a lexeme. -/
lemma lexemes_cons {c : Char} {l : Lexeme} (h : start c = some ([l], .between)) (s : Text) :
    lexemes (c :: s) = (lexemes s).map (l :: ·) := lexemesFrom_cons (m := .between) h s

lemma lexemes_space (b : Space) (s : Text) : lexemes (b.text ++ s) = lexemes s := by
  have hspace (t : Text) (ht : ∀ c ∈ t, isBlank c = true) : lexemes (t ++ s) = lexemes s := by
    induction t with
    | nil => rfl
    | cons c t ih =>
      obtain ⟨hc, ht⟩ := List.forall_mem_cons.mp ht
      have hstep : step .between c = some ([], .between) := by rw [step, start, if_pos hc]
      rw [List.cons_append, lexemes, lexemesFrom_cons_nil hstep]
      exact ih ht
  exact hspace b.text b.blank

lemma lexemesFrom_string {s : Text} (hs : ∀ c ∈ s, IsVerbatim c) (seen rest : Text) :
    lexemesFrom (.string seen .none) (s ++ '"' :: rest) =
      (lexemes rest).map (.string (seen.reverse ++ s) :: ·) := by
  induction s generalizing seen with
  | nil =>
    have hstep : step (.string seen .none) '"' = some ([.string seen.reverse], .between) := rfl
    rw [List.nil_append, lexemesFrom_cons hstep, List.append_nil]
    rfl
  | cons c s ih =>
    obtain ⟨⟨hquote, hslash, hcontrol⟩, hs⟩ := List.forall_mem_cons.mp hs
    have hstep : step (.string seen .none) c = some ([], .string (c :: seen) .none) := by
      simp [step, stepString, hquote, hslash, hcontrol]
    rw [List.cons_append, lexemesFrom_cons_nil hstep, ih hs, List.reverse_cons, List.append_assoc,
      List.singleton_append]

/-- A text between double quotes is one lexeme. -/
lemma lexemes_double {s : Text} (hs : ∀ c ∈ s, IsVerbatim c) (rest : Text) :
    lexemes (Quote.double.wrap s ++ rest) = (lexemes rest).map (.string s :: ·) := by
  have htext : Quote.double.wrap s ++ rest = '"' :: (s ++ '"' :: rest) := by
    simp [Quote.wrap, Quote.char]
  have hstep : step .between '"' = some ([], .string [] .none) := rfl
  rw [htext, lexemes, lexemesFrom_cons_nil hstep, lexemesFrom_string hs]
  rfl

/-- No lexeme begins with a single quote. -/
lemma lexemes_single (s rest : Text) : lexemes (Quote.single.wrap s ++ rest) = none := rfl

/-- The lexemes between the brackets of an array of strings. -/
def stringLexemes (strings : List Text) : List Lexeme :=
  [.comma].intercalate (strings.map fun s => [.string s])

lemma build_strings {limit : ℕ} (strings : List Text) (hne : strings ≠ []) (seen : List Value) :
    build limit (.value [.array seen]) (stringLexemes strings ++ [.closeArray]) =
      some (.array (seen.reverse ++ strings.map .string)) := by
  induction strings generalizing seen with
  | nil => exact absurd rfl hne
  | cons s strings ih =>
    cases strings with
    | nil => simp [stringLexemes, build, next, beginValue, complete]
    | cons t strings =>
      have hrest := ih (List.cons_ne_nil t strings) (.string s :: seen)
      have hlexemes : stringLexemes (s :: t :: strings) =
          .string s :: .comma :: stringLexemes (t :: strings) := List.intercalate_cons_cons
      rw [hlexemes]
      simpa [build, next, beginValue, complete] using hrest

end Json

namespace LoopSource
open Json (Space IsVerbatim)

/-- A quoted text of a list, with the white space around it. -/
structure Item where
  before : Space
  quote : Quote
  content : Text
  after : Space
  verbatim : ∀ c ∈ content, IsVerbatim c

def Item.text (i : Item) : Text := i.before.text ++ i.quote.wrap i.content ++ i.after.text

/-- The items with commas between them. -/
def Item.listText (items : List Item) : Text := [','].intercalate (items.map Item.text)

def Item.bracketed (items : List Item) : Text := '[' :: Item.listText items ++ [']']

namespace Item
variable {items : List Item}

lemma comma_mem_text_iff (i : Item) : ',' ∈ i.text ↔ ',' ∈ i.content := by
  have hspace (b : Space) : ',' ∉ b.text := fun h => absurd (b.blank _ h) (by decide)
  have hquote : ',' ≠ i.quote.char := by cases i.quote <;> decide
  simp [text, Quote.wrap, hspace, hquote]

lemma readItem_text (i : Item) : readItem i.text = .string i.content := by
  have htrim : i.text.trim = i.quote.wrap i.content :=
    Text.trim_between (i.quote.isTrimmed_wrap i.content) i.before.toBlank i.after.toBlank
  rw [readItem, htrim, Literal.unquote?_wrap]

/-- A list that is cut at its commas has its texts as items when no comma stands in them. -/
lemma readCommaList_listText_iff (hne : items ≠ []) :
    readCommaList (listText items) = items.map (.string ·.content) ↔
      ∀ i ∈ items, ',' ∉ i.content := by
  have hne' : items.map text ≠ [] := by simpa using hne
  have hcomma : (∀ l ∈ items.map text, ',' ∉ l) ↔ ∀ i ∈ items, ',' ∉ i.content := by
    simp [comma_mem_text_iff]
  rw [← hcomma]
  constructor
  · intro h
    have hlength := congrArg List.length h
    rw [readCommaList, List.length_map, List.length_map] at hlength
    rw [← length_splitOn_intercalate_iff hne', List.length_map]
    exact hlength
  · intro h
    rw [readCommaList, listText, List.splitOn_intercalate ',' h hne', List.map_map]
    exact List.map_congr_left fun i _ => i.readItem_text

lemma lexemes_text (i : Item) (hquote : i.quote = .double) (rest : Text) :
    Json.lexemes (i.text ++ rest) = (Json.lexemes rest).map (.string i.content :: ·) := by
  rw [text, List.append_assoc, List.append_assoc, Json.lexemes_space, hquote,
    Json.lexemes_double i.verbatim, Json.lexemes_space]

lemma lexemes_text_single (i : Item) (hquote : i.quote = .single) (rest : Text) :
    Json.lexemes (i.text ++ rest) = none := by
  rw [text, List.append_assoc, List.append_assoc, Json.lexemes_space, hquote,
    Json.lexemes_single]

lemma listText_cons_cons (i j : Item) (items : List Item) (rest : Text) :
    listText (i :: j :: items) ++ rest = i.text ++ ',' :: (listText (j :: items) ++ rest) := by
  simp [listText, List.intercalate_cons_cons]

/-- Between double quotes the texts are lexemes with commas between them. -/
lemma lexemes_listText (hquote : ∀ i ∈ items, i.quote = .double) (rest : Text) :
    Json.lexemes (listText items ++ rest) =
      (Json.lexemes rest).map (Json.stringLexemes (items.map content) ++ ·) := by
  induction items with
  | nil => exact Option.map_id'.symm
  | cons i items ih =>
    obtain ⟨hi, hquote⟩ := List.forall_mem_cons.mp hquote
    cases items with
    | nil =>
      rw [listText, List.map_singleton, List.intercalate_singleton, i.lexemes_text hi]
      rfl
    | cons j items =>
      have hstrings : Json.stringLexemes ((i :: j :: items).map content) =
          .string i.content :: .comma :: Json.stringLexemes ((j :: items).map content) :=
        List.intercalate_cons_cons
      rw [listText_cons_cons, i.lexemes_text hi, Json.lexemes_cons (l := .comma) rfl, ih hquote,
        hstrings, Option.map_map, Option.map_map]
      rfl

/-- A text between single quotes is none. -/
lemma lexemes_listText_eq_none (hquote : ∃ i ∈ items, i.quote = .single) (rest : Text) :
    Json.lexemes (listText items ++ rest) = none := by
  induction items with
  | nil => simp at hquote
  | cons i items ih =>
    rw [List.exists_mem_cons_iff] at hquote
    cases items with
    | nil =>
      rw [listText, List.map_singleton, List.intercalate_singleton,
        i.lexemes_text_single (by simpa using hquote)]
    | cons j items =>
      rw [listText_cons_cons]
      cases hi : i.quote with
      | single => rw [i.lexemes_text_single hi]
      | double =>
        have hrest := ih (hquote.resolve_left (by simp [hi]))
        rw [i.lexemes_text hi, Json.lexemes_cons (l := .comma) rfl, hrest]
        rfl

lemma lexemes_bracketed (items : List Item) : Json.lexemes (bracketed items) =
    (Json.lexemes (listText items ++ [']'])).map (.openArray :: ·) :=
  Json.lexemes_cons rfl _

end Item

/-- What JSON says of lists of quoted texts. Strings stand between double quotes, and an array of
them is the list of their contents; a value does not begin with a single quote. -/
structure FollowsJson (json? : Text → Option Value) : Prop where
  strings : ∀ items : List Item, items ≠ [] → (∀ i ∈ items, i.quote = .double) →
    json? (Item.bracketed items) = some (.array (items.map (.string ·.content)))
  single : ∀ items : List Item, (∃ i ∈ items, i.quote = .single) →
    json? (Item.bracketed items) = none

lemma followsJson_read? : FollowsJson (Json.read? Json.depthLimit) where
  strings items hne hquote := by
    have hclose : Json.lexemes [']'] = some [.closeArray] := rfl
    have hbuild := @Json.build_strings Json.depthLimit (items.map Item.content) (by simpa) []
    rw [Json.read?, Item.lexemes_bracketed, Item.lexemes_listText hquote, hclose, Option.map_some,
      Option.map_some, Option.bind_some]
    rw [List.reverse_nil, List.nil_append, List.map_map] at hbuild
    refine Eq.trans ?_ hbuild
    obtain ⟨i, items, rfl⟩ := List.exists_cons_of_ne_nil hne
    cases items <;> rfl
  single items hquote := by
    rw [Json.read?, Item.lexemes_bracketed, Item.lexemes_listText_eq_none hquote]
    rfl

open Item in
/-- Whatever reads the JSON, a loop over a list of quoted texts goes over these texts exactly when
all quotes are double or no comma stands in a text. As JSON a list with double quotes is always
read so, and being cut at its commas comes to the same only if none of them stands in a text. -/
theorem items_bracketed {json? : Text → Option Value} (hjson : FollowsJson json?)
    {items : List Item} (hne : items ≠ []) (b a : Blank) (vars : Fields) :
    let strings : List Value := items.map (.string ·.content)
    (itemsBy json? (b.text ++ bracketed items ++ a.text) vars = .ok strings ↔
      (∀ i ∈ items, i.quote = .double) ∨ ∀ i ∈ items, ',' ∉ i.content) ∧
    ((∀ i ∈ items, i.quote = .double) →
      json? (bracketed items) = some (.array strings) ∧
        (json? (bracketed items) = some (.array (readCommaList (listText items))) ↔
          ∀ i ∈ items, ',' ∉ i.content)) := by
  intro strings
  have htrim : Text.trim (b.text ++ bracketed items ++ a.text) = bracketed items :=
    Text.trim_between (Text.isTrimmed_enclosed (by decide) (by decide) (listText items)) b a
  have hinner : unbracket? (bracketed items) = some (listText items) :=
    Text.before?_eq_some_iff.mpr rfl
  constructor
  · rw [itemsBy, htrim, hinner]
    dsimp only
    by_cases hquote : ∀ i ∈ items, i.quote = .double
    · rw [hjson.strings items hne hquote]
      exact iff_of_true rfl (.inl hquote)
    · obtain ⟨i, hi, hdouble⟩ : ∃ i ∈ items, i.quote ≠ .double := by simpa using hquote
      have hsingle : i.quote = .single := by
        cases hq : i.quote with
        | single => rfl
        | double => exact absurd hq hdouble
      rw [hjson.single items ⟨i, hi, hsingle⟩, or_iff_right hquote,
        ← readCommaList_listText_iff hne]
      exact ⟨Except.ok.inj, congrArg Except.ok⟩
  · intro hquote
    rw [hjson.strings items hne hquote, ← readCommaList_listText_iff hne]
    exact ⟨rfl, fun h => (Value.array.inj (Option.some.inj h)).symm,
      fun h => congrArg _ (congrArg _ h.symm)⟩

/-- A comma in the first text and a bracket in the second. -/
def pair : List Item :=
  [⟨⟨[' '], by simp [Json.isBlank]⟩, .double, "a, b".toList, ⟨[' '], by simp [Json.isBlank]⟩,
      by simp [IsVerbatim]⟩,
    ⟨⟨[], by simp⟩, .double, "]".toList, ⟨[], by simp⟩, by simp [IsVerbatim]⟩]

theorem items_bracketed_pair :
    LoopSource.items "[ \"a, b\" ,\"]\"]".toList [] =
        .ok [.string "a, b".toList, .string "]".toList] ∧
      Json.read? Json.depthLimit "[ \"a, b\" ,\"]\"]".toList ≠
        some (.array (readCommaList " \"a, b\" ,\"]\"".toList)) := by
  have hdouble : ∀ i ∈ pair, i.quote = .double := by simp [pair]
  have hne : pair ≠ [] := by simp [pair]
  have h := items_bracketed followsJson_read? hne .none .none []
  exact ⟨h.1.mpr (.inl hdouble), (h.2 hdouble).2.not.mpr (by simp [pair])⟩

/-- Between single quotes the text is torn into two items at its comma. -/
theorem items_tornText :
    LoopSource.items "['a,b']".toList [] = .ok [.string "'a".toList, .string "b'".toList] ∧
      LoopSource.items "['a,b']".toList [] ≠ .ok [.string "a,b".toList] := by
  have hitems : LoopSource.items "['a,b']".toList [] =
      .ok [.string "'a".toList, .string "b'".toList] := rfl
  refine ⟨hitems, ?_⟩
  rw [hitems]
  simp

end LoopSource
end Stencil
