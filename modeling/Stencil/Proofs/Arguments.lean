import Stencil.Proofs.Literals
import Stencil.Proofs.Spacing
import Stencil.Proofs.Tree.Tags

/-! Tags read back from what is written between their delimiters: each reader of arguments finds
the arguments that were written, whatever white space stands between the words. -/
namespace Stencil

namespace Text

/-- A word is split off at the white space behind it. -/
lemma exists_splitFirst?_gap {w : Text} (hw : ∀ c ∈ w, isWhite c = false) (g : Gap) (t : Text) :
    ∃ b : Blank, splitFirst? isWhite (w ++ g.text ++ t) = some (w, b.text ++ t) := by
  obtain ⟨c, b, hg, hc⟩ := g.exists_cons
  refine ⟨⟨b, fun x hx => g.white x (hg ▸ List.mem_cons_of_mem c hx)⟩, ?_⟩
  have htext : w ++ g.text ++ t = w ++ c :: (b ++ t) := by simp [hg]
  rw [htext]
  exact splitFirst?_append hw hc (b ++ t)

end Text

namespace QuotedList

lemma splitQuoted?_wrap {ref : Text} (hne : ref ≠ []) (hquote : '"' ∉ ref) (t : Text) :
    splitQuoted? (Quote.double.wrap ref ++ t) = some (ref, t.trim) := by
  have hsplit : Text.splitFirst? (· == '"') (ref ++ '"' :: t) = some (ref, t) :=
    Text.splitFirst?_append (fun c hc => by simpa using fun h : c = '"' => hquote (h ▸ hc)) rfl t
  have htext : Quote.double.wrap ref ++ t = '"' :: (ref ++ '"' :: t) := by
    simp [Quote.wrap, Quote.char]
  rw [htext, splitQuoted?, hsplit]
  cases ref with
  | nil => exact absurd rfl hne
  | cons c ref => rfl

lemma isList_eq (s : Text) : isList s =
    match splitQuoted? s with
    | none => false
    | some (_, []) => true
    | some (_, ',' :: rest) => isList (Text.trimStart rest)
    | some _ => false := by
  rw [isList]
  split <;> rename_i h <;> simp [h]

lemma isList_wrap {ref : Text} (hne : ref ≠ []) (hquote : '"' ∉ ref) :
    isList (Quote.double.wrap ref) = true := by
  have h := splitQuoted?_wrap hne hquote []
  rw [List.append_nil] at h
  rw [isList_eq, h]
  rfl

/-- A list is a quoted text, a comma and a list. -/
lemma isList_wrap_comma {ref s : Text} (hne : ref ≠ []) (hquote : '"' ∉ ref) (b a : Blank)
    (hs : s.IsTrimmed) (hne' : s ≠ []) :
    isList (Quote.double.wrap ref ++ (b.text ++ ',' :: (a.text ++ s))) = isList s := by
  have htail : Text.trim (b.text ++ ',' :: (a.text ++ s)) = ',' :: (a.text ++ s) := by
    refine Text.trim_before ⟨fun c hc => ?_, ?_⟩ b
    · obtain rfl : ',' = c := Option.some.inj hc
      decide
    · have := Text.nonwhite_append hs.2 hne' (',' :: a.text)
      simpa using this
  rw [isList_eq, splitQuoted?_wrap hne hquote, htail]
  exact congrArg isList (Text.trimStart_before hs a)

end QuotedList

namespace Tag

lemma splitKeyword_gap {word args : Text} (hword : ∀ c ∈ word, Text.isWhite c = false) (g : Gap)
    (hargs : args.IsTrimmed) : splitKeyword (word ++ g.text ++ args) = (word, args) := by
  obtain ⟨b, hsplit⟩ := Text.exists_splitFirst?_gap hword g args
  rw [splitKeyword, hsplit]
  exact congrArg _ (Text.trim_before hargs b)

lemma splitKeyword_word {word : Text} (hword : ∀ c ∈ word, Text.isWhite c = false) :
    splitKeyword word = (word, []) := by
  rw [splitKeyword, Text.splitFirst?_eq_none hword]

lemma readLoopHeader?_append {item source : Text} (hitem : item.isWordOf Text.isWordChar = true)
    (g g' : Gap) (htrimmed : source.IsTrimmed) (hsource : isExpression source = true) :
    readLoopHeader? (item ++ g.text ++ "in".toList ++ g'.text ++ source) =
      some (.openFor item source) := by
  have hword := Text.isWord_of_isWordOf (fun _ => Text.isWhite_of_isWordChar) hitem
  obtain ⟨b, hsplit⟩ := Text.exists_splitFirst?_gap hword.2 g ("in".toList ++ (g'.text ++ source))
  have hstart : Text.trimStart (b.text ++ ("in".toList ++ (g'.text ++ source))) =
      "in".toList ++ (g'.text ++ source) := by
    rw [Text.trimStart_append b.white]
    exact Text.trimStart_of_head (by simp; decide)
  have hafter : Text.after? "in".toList ("in".toList ++ (g'.text ++ source)) =
      some (g'.text ++ source) := Text.after?_eq_some_iff.mpr rfl
  have htext : item ++ g.text ++ "in".toList ++ g'.text ++ source =
      item ++ g.text ++ ("in".toList ++ (g'.text ++ source)) := by simp
  have hsource' : Text.trim (g'.text ++ source) = source := Text.trim_before htrimmed g'.toBlank
  rw [htext, readLoopHeader?, hsplit]
  simp only [Option.bind_eq_bind, Option.bind_some, hstart, hafter]
  simp only [hitem, g'.startsWhite_append, hsource', hsource, Bool.and_self, if_true]

lemma isTrimmed_braced (inner : Text) : Text.IsTrimmed ('{' :: inner ++ ['}']) :=
  Text.isTrimmed_enclosed (by decide) (by decide) inner

section Insert
variable {ref : Text} (hne : ref ≠ []) (hquote : '"' ∉ ref)
include hne hquote

lemma readInherit?_wrap : readInherit? (Quote.double.wrap ref) = some (.inherit ref) := by
  have h := QuotedList.splitQuoted?_wrap hne hquote []
  rw [List.append_nil] at h
  rw [readInherit?, h]
  rfl

lemma readInsert?_wrap : readInsert? (Quote.double.wrap ref) = some (.insert ref none) := by
  have h := QuotedList.splitQuoted?_wrap hne hquote []
  rw [List.append_nil] at h
  rw [readInsert?, h]
  rfl

lemma readInsert?_with (b : Blank) (g : Gap) (inner : Text) :
    readInsert? (Quote.double.wrap ref ++ (b.text ++ "with".toList ++ g.text ++
      ('{' :: inner ++ ['}']))) = some (.insert ref (some ('{' :: inner ++ ['}']))) := by
  have hliteral := isTrimmed_braced inner
  have htail : Text.trim (b.text ++ "with".toList ++ g.text ++ ('{' :: inner ++ ['}'])) =
      "with".toList ++ (g.text ++ ('{' :: inner ++ ['}'])) := by
    have hwith : Text.IsTrimmed "with".toList := (by decide : Text.IsWord "with".toList).isTrimmed
    have := Text.trim_before (hwith.append (by simp) hliteral (by simp) g.text) b
    simpa using this
  have hafter : Text.after? "with".toList ("with".toList ++ (g.text ++ ('{' :: inner ++ ['}']))) =
      some (g.text ++ ('{' :: inner ++ ['}'])) := Text.after?_eq_some_iff.mpr rfl
  have hobject : Text.trim (g.text ++ ('{' :: inner ++ ['}'])) = '{' :: inner ++ ['}'] :=
    Text.trim_before hliteral g.toBlank
  have hlast : ('{' :: inner ++ ['}']).getLast? = some '}' := List.getLast?_concat
  have hempty : ("with".toList ++ (g.text ++ ('{' :: inner ++ ['}']))).isEmpty = false := rfl
  rw [readInsert?, QuotedList.splitQuoted?_wrap hne hquote, htail]
  simp only [Option.bind_eq_bind, Option.bind_some, hempty, hafter, hobject, hlast,
    g.startsWhite_append, Bool.false_eq_true, if_false]
  simp

end Insert

lemma isSuperCall_blank (b : Blank) :
    isSuperCall ("super(".toList ++ b.text ++ [')']) = true := by
  have hafter : Text.after? "super(".toList ("super(".toList ++ b.text ++ [')']) =
      some (b.text ++ [')']) := Text.after?_eq_some_iff.mpr (by simp)
  have hbefore : Text.before? [')'] (b.text ++ [')']) = some b.text :=
    Text.before?_eq_some_iff.mpr rfl
  rw [isSuperCall, hafter, Option.bind_some, hbefore]
  exact List.all_eq_true.mpr b.white

/-- A path calls nothing, and the text behind it does not either. -/
lemma isSuperCall_append {path t : Text} (hpath : '(' ∉ path)
    (ht : ∀ c ∈ t.head?, c ∉ "super(".toList) : isSuperCall (path ++ t) = false := by
  rw [isSuperCall]
  cases hafter : Text.after? "super(".toList (path ++ t) with
  | none => rfl
  | some rest =>
    exfalso
    rcases List.append_eq_append_iff.mp (Text.after?_eq_some_iff.mp hafter) with
      ⟨x, hx, htext⟩ | ⟨x, hx, -⟩
    · cases x with
      | nil =>
        rw [List.append_nil] at hx
        exact hpath (by simp [← hx])
      | cons c x => exact ht c (by rw [htext]; rfl) (by rw [hx]; simp)
    · exact hpath (by simp [hx])

lemma readFallback?_wrap (q : Quote) {text : Text} (hquote : q.char ∉ text) :
    readFallback? ("default(".toList ++ q.wrap text ++ [')']) = some text := by
  have hafter : Text.after? "default(".toList ("default(".toList ++ q.wrap text ++ [')']) =
      some (q.wrap text ++ [')']) := Text.after?_eq_some_iff.mpr (by simp)
  have hbefore : Text.before? [')'] (q.wrap text ++ [')']) = some (q.wrap text) :=
    Text.before?_eq_some_iff.mpr rfl
  have hinner : Text.before? [q.char] (text ++ [q.char]) = some text :=
    Text.before?_eq_some_iff.mpr rfl
  have hq : (q.char == '"' || q.char == '\'') = true := by cases q <;> rfl
  rw [readFallback?, hafter, Option.bind_some, hbefore]
  simp only [Quote.wrap, List.cons_append, hq, if_true, hinner, Option.bind_some, hquote, if_false]

lemma ofVariable_superCall (b : Blank) :
    ofVariable ("super(".toList ++ b.text ++ [')']) = .superCall := by
  rw [ofVariable, isSuperCall_blank, if_pos rfl]

/-- The default of a placeholder is read whatever is in it, also a bar. -/
lemma ofVariable_fallback (path : Tree.Path) (b a : Blank) (q : Quote) {text : Text}
    (hquote : q.char ∉ text) :
    ofVariable (path.text ++ b.text ++ '|' :: (a.text ++ "default(".toList ++ q.wrap text ++
      [')'])) = .placeholder path.text (some text) := by
  have hwhite {c : Char} (hc : c ∈ "super(".toList) : Text.isWhite c = false := by
    have h : ("super(".toList).all (!Text.isWhite ·) = true := by decide
    simpa using List.all_eq_true.mp h c hc
  have hsuper : isSuperCall (path.text ++ (b.text ++ '|' :: (a.text ++ "default(".toList ++
      q.wrap text ++ [')']))) = false := by
    refine isSuperCall_append (path.not_mem (by decide) (by decide)) fun c hc hmem => ?_
    cases hb : b.text with
    | nil =>
      rw [hb] at hc
      obtain rfl : '|' = c := Option.some.inj hc
      exact absurd hmem (by decide)
    | cons d blank =>
      rw [hb] at hc
      obtain rfl : d = c := Option.some.inj hc
      have := b.white d (by simp [hb])
      rw [hwhite hmem] at this
      cases this
  have hbar : ∀ c ∈ path.text ++ b.text, (c == '|') = false := by
    intro c hc
    rw [beq_eq_false_iff_ne]
    rintro rfl
    rcases List.mem_append.mp hc with hc | hc
    · exact path.not_mem (by decide) (by decide) hc
    · exact absurd (b.white _ hc) (by decide)
  have hsplit := Text.splitFirst?_append hbar (c := '|') rfl
    (a.text ++ "default(".toList ++ q.wrap text ++ [')'])
  have hpath : Text.trimEnd (path.text ++ b.text) = path.text :=
    Text.trimEnd_append path.isTrimmed.2 b.white
  have hfilter : Text.trimStart (a.text ++ "default(".toList ++ q.wrap text ++ [')']) =
      "default(".toList ++ q.wrap text ++ [')'] := by
    rw [List.append_assoc, List.append_assoc, Text.trimStart_append a.white, ← List.append_assoc]
    exact Text.trimStart_of_head (by simp; decide)
  rw [List.append_assoc] at hsplit
  rw [List.append_assoc, ofVariable, hsuper, hsplit]
  simp only [Bool.false_eq_true, if_false, hpath, path.simple, if_true, hfilter,
    readFallback?_wrap q hquote]

end Tag
end Stencil
