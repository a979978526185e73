import Stencil.Proofs.Closed
import Stencil.Proofs.Insulation
import Stencil.Proofs.ReadTags
import Stencil.Proofs.Settled

/-! Comments. They are taken out of a text after one reading, and what stands around them is read
anew when it has been joined. Main statement: a comment comes about in this only when a brace in
front of comments meets the second character of an opener behind them; where no brace stands alone
and no tag brings one in, no pass gets a comment and none is printed. -/
namespace Stencil

namespace Scan
open Stencil.Symbol Renderer

lemma symbols_of_char {c : Char} {s : Text} (h : leadingTag? (c :: s) = none) :
    symbols (c :: s) = .char c :: symbols s := by
  rw [symbols_eq_leftmost, leftmost_of_char h, symbols_eq_leftmost]

/-- Induction on what is read first in a text. -/
lemma reading_induction {motive : Text → Prop} (nil : motive [])
    (char : ∀ c s, leadingTag? (c :: s) = none → motive s → motive (c :: s))
    (tag : ∀ d content after s, leadingTag? s = some (d, content, after) → motive after →
      motive s) (s : Text) : motive s := by
  induction hn : s.length using Nat.strong_induction_on generalizing s with
  | _ n ih =>
    cases htag : leadingTag? s with
    | some found =>
      obtain ⟨d, content, after⟩ := found
      refine tag d content after s htag (ih after.length ?_ after rfl)
      rw [← hn, leadingTag?_eq_some htag]
      simp only [List.length_cons, List.length_append]
      omega
    | none =>
      cases s with
      | nil => exact nil
      | cons c s => exact char c s htag (ih s.length (by rw [← hn]; simp) s rfl)

/-- A text has no closer when it has none with more text behind it. -/
lemma splitCloser?_eq_none_of_append {d : Delimiter} {a b : Text}
    (h : splitCloser? d (a ++ b) = none) : splitCloser? d a = none := by
  cases ha : splitCloser? d a with
  | none => rfl
  | some found =>
    obtain ⟨content, after⟩ := found
    have := splitCloser?_of_some ha (after ++ b)
    rw [splitCloser?_eq_some ha] at h
    simp [this] at h

lemma splitCloser?_ne_none {d : Delimiter} {s : Text} (h : [d.closeChar, '}'] <:+: s) :
    splitCloser? d s ≠ none := by
  obtain ⟨a, b, rfl⟩ := h
  intro hnone
  rw [List.append_assoc] at hnone
  have hsuffix := splitCloser?_eq_none_of_suffix (List.suffix_append _ _) hnone
  cases hsuffix.symm.trans (splitCloser?_closer d b)

/-- The first closer behind a text without one lies beyond it or ends on the next character. -/
lemma splitCloser?_append {d : Delimiter} {a b content after : Text}
    (ha : splitCloser? d a = none) (h : splitCloser? d (a ++ b) = some (content, after)) :
    (∃ content', splitCloser? d b = some (content', after)) ∨ b = '}' :: after := by
  induction a generalizing content with
  | nil => exact .inl ⟨content, h⟩
  | cons c a ih =>
    by_cases hc : c = d.closeChar ∧ (a ++ b).head? = some '}'
    · obtain ⟨rfl, hhead⟩ := hc
      cases a with
      | nil =>
        obtain ⟨b, rfl⟩ := List.head?_eq_some_iff.mp hhead
        rw [List.singleton_append, splitCloser?_closer] at h
        cases h
        exact .inr rfl
      | cons x a =>
        obtain rfl : x = '}' := by simpa using hhead
        rw [splitCloser?_closer] at ha
        cases ha
    · rw [List.cons_append, splitCloser?_cons (by rwa [not_and_or] at hc)] at h
      obtain ⟨⟨content', after'⟩, hfound, heq⟩ := Option.map_eq_some_iff.mp h
      cases heq
      exact ih (splitCloser?_eq_none_of_suffix (List.suffix_cons c a) ha) hfound

/-- A tag at the start of a text is an opener with the first closer behind it. -/
lemma exists_opener_of_leadingTag? {s content after : Text} {d : Delimiter}
    (h : leadingTag? s = some (d, content, after)) :
    ∃ rest, s = '{' :: d.openChar :: rest ∧ splitCloser? d rest = some (content, after) := by
  have hs := leadingTag?_eq_some h
  refine ⟨_, hs, ?_⟩
  rw [hs] at h
  change leadingTag? ('{' :: d.openChar :: (content ++ d.closeChar :: '}' :: after)) = _ at h
  rw [leadingTag?_opener] at h
  obtain ⟨⟨content', after'⟩, hfound, hpair⟩ := Option.map_eq_some_iff.mp h
  cases hpair
  exact hfound

/-- All tags begin with a brace. -/
def Braced (l : List Symbol) : Prop :=
  ∀ t written, .tag t written ∈ l → ∃ s, written = '{' :: s

lemma braced_symbols (s : Text) : Braced (symbols s) := by
  intro t written hy
  rcases mem_symbols hy with ⟨c, hc⟩ | ⟨d, content, hd, -⟩
  · cases hc
  · cases hd
    exact ⟨_, rfl⟩

section
variable {p : Tag → Bool} {l : List Symbol}

lemma Braced.suffix {m : List Symbol} (h : Braced l) (hm : m <:+ l) : Braced m :=
  fun t written hy => h t written (hm.subset hy)

/-- What stands first after the removal, unless it is a brace, is a character that stood behind
removed tags. -/
lemma Braced.exists_of_textWithout (h : Braced l) {c : Char} {s : Text}
    (hl : textWithout p l = c :: s) (hc : c ≠ '{') :
    ∃ removed back, l = removed ++ .char c :: back ∧ s = textWithout p back ∧
      ∀ y ∈ removed, ∃ t, y.tag? = some t ∧ p t = true := by
  induction l with
  | nil => cases hl
  | cons y l ih =>
    cases y with
    | char a =>
      cases hl
      exact ⟨[], l, rfl, rfl, by simp⟩
    | tag t written =>
      cases hp : p t with
      | false =>
        obtain ⟨w, rfl⟩ := h t written List.mem_cons_self
        simp only [textWithout, replace, hp] at hl
        cases hl
        exact absurd rfl hc
      | true =>
        simp only [textWithout, replace, hp] at hl
        obtain ⟨removed, back, rfl, hs, hremoved⟩ := ih (h.suffix (List.suffix_cons _ l)) hl
        refine ⟨.tag t written :: removed, back, rfl, hs, fun y hy => ?_⟩
        rcases List.mem_cons.mp hy with rfl | hy
        · exact ⟨t, rfl, hp⟩
        · exact hremoved y hy

/-- A brace that stands first after the removal, or another one, stood there before. -/
lemma Braced.exists_of_textWithout_brace (h : Braced l) {s : Text}
    (hl : textWithout p l = '{' :: s) : ∃ s', textOf l = '{' :: s' := by
  cases l with
  | nil => cases hl
  | cons y l =>
    cases y with
    | char a =>
      cases hl
      exact ⟨_, rfl⟩
    | tag t written =>
      obtain ⟨w, rfl⟩ := h t written List.mem_cons_self
      exact ⟨_, rfl⟩

/-- A closer that the removal brings about ends where a symbol does. -/
lemma Braced.exists_of_splitCloser? (h : Braced l) {d : Delimiter} {content after : Text}
    (hnone : splitCloser? d (textOf l) = none)
    (hl : splitCloser? d (textWithout p l) = some (content, after)) :
    ∃ m, m <:+ l ∧ after = textWithout p m := by
  induction l generalizing content with
  | nil => cases hl
  | cons y l ih =>
    have hrest := h.suffix (List.suffix_cons y l)
    rw [textOf_cons] at hnone
    have hlater {content : Text} (hl : splitCloser? d (textWithout p l) = some (content, after)) :
        ∃ m, m <:+ y :: l ∧ after = textWithout p m := by
      obtain ⟨m, hm, hafter⟩ :=
        ih hrest (splitCloser?_eq_none_of_suffix (List.suffix_append _ _) hnone) hl
      exact ⟨m, hm.trans (List.suffix_cons y l), hafter⟩
    have hkept (hkept : textWithout p (y :: l) = y.text ++ textWithout p l) :
        ∃ m, m <:+ y :: l ∧ after = textWithout p m := by
      rw [hkept] at hl
      rcases splitCloser?_append (splitCloser?_eq_none_of_append hnone) hl with
        ⟨content', hfound⟩ | hbrace
      · exact hlater hfound
      · obtain ⟨removed, back, rfl, hafter, -⟩ := hrest.exists_of_textWithout hbrace (by decide)
        exact ⟨back, ⟨y :: (removed ++ [.char '}']), by simp⟩, hafter⟩
    cases y with
    | char c => exact hkept rfl
    | tag t written =>
      cases hp : p t with
      | false => exact hkept (by simp [textWithout, replace, hp, text])
      | true =>
        simp only [textWithout, replace, hp] at hl
        exact hlater hl

end

/-- No symbol of the list is a comment. -/
def Uncommented (l : List Symbol) : Prop := ∀ y ∈ l, y.tag? ≠ some .comment

lemma Uncommented.cons {y : Symbol} {l : List Symbol} (hy : y.tag? ≠ some .comment)
    (h : Uncommented l) : Uncommented (y :: l) := List.forall_mem_cons.mpr ⟨hy, h⟩

lemma tag?_finished_ne_comment {d : Delimiter} (hd : d ≠ .comment) (content : Text) :
    (finished d content).tag? ≠ some .comment :=
  fun h => hd (Tag.ofContent_eq_comment_iff.mp (Option.some.inj h))

lemma Uncommented.textWithout_eq {l : List Symbol} (h : Uncommented l) :
    textWithout isComment l = textOf l := by
  apply textWithout_of_none
  rw [List.any_eq_false]
  intro y hy
  have := h y hy
  cases hy : y.tag? <;> simp_all [isComment]

/-- The text of a comment closes every comment in front of it. -/
lemma uncommented_of_splitCloser? {s : Text} (h : splitCloser? .comment s = none) :
    Uncommented (symbols s) := by
  intro y hy hcomment
  rcases mem_symbols hy with ⟨c, rfl⟩ | ⟨d, content, rfl, -⟩
  · cases hcomment
  · obtain rfl := Tag.ofContent_eq_comment_iff.mp (Option.some.inj hcomment)
    obtain ⟨front, back, hsplit⟩ := List.append_of_mem hy
    refine splitCloser?_ne_none (d := .comment) ?_ h
    rw [← textOf_symbols s, hsplit]
    exact ⟨textOf front ++ '{' :: '#' :: content, textOf back, by simp [finished, text]; rfl⟩

/-- A brace and the second character of an opener, of a comment or of a control tag, with nothing
but comments between them. -/
def OpensAcross (l : List Symbol) : Prop :=
  ∃ front comments c back, l = front ++ .char '{' :: (comments ++ .char c :: back) ∧
    comments ≠ [] ∧ (∀ y ∈ comments, y.tag? = some .comment) ∧ (c = '#' ∨ c = '%')

lemma OpensAcross.of_suffix {l m : List Symbol} (hm : m <:+ l) (h : OpensAcross m) :
    OpensAcross l := by
  obtain ⟨front, rfl⟩ := hm
  obtain ⟨front', comments, c, back, rfl, hcomments⟩ := h
  exact ⟨front ++ front', comments, c, back, by simp, hcomments⟩

/-- Behind a brace that the removal of comments lets open a value, the closer is there where a
symbol ends: the second brace of the opener is found again at some brace of the text. -/
lemma exists_of_openedValue {s rest content after : Text} (hnone : leadingTag? ('{' :: s) = none)
    (htext : textWithout isComment (symbols s) = '{' :: rest)
    (hclosed : splitCloser? .value rest = some (content, after)) :
    ∃ m, m <:+ symbols s ∧ after = textWithout isComment m := by
  obtain ⟨s', hs⟩ := (braced_symbols s).exists_of_textWithout_brace htext
  rw [textOf_symbols] at hs
  have hsplit : splitCloser? .value s' = none := by
    rw [hs] at hnone
    exact Option.map_eq_none_iff.mp ((leadingTag?_opener .value s').symm.trans hnone)
  have hbefore : splitCloser? .value (textOf (symbols s)) = none := by
    rw [textOf_symbols, hs, splitCloser?_cons (.inl (by decide)), hsplit]
    rfl
  have hbehind : splitCloser? .value (textWithout isComment (symbols s)) =
      some ('{' :: content, after) := by
    rw [htext, splitCloser?_cons (.inl (by decide)), hclosed]
    rfl
  exact (braced_symbols s).exists_of_splitCloser? hbefore hbehind

/-- As nothing opens across comments, the second character of another opener follows the brace at
once. -/
lemma exists_of_not_opensAcross {s rest : Text} {d : Delimiter} (hd : d ≠ .value)
    (hopens : ¬OpensAcross (.char '{' :: symbols s))
    (htext : textWithout isComment (symbols s) = d.openChar :: rest) :
    ∃ back, s = d.openChar :: textOf back ∧ symbols s = .char d.openChar :: back ∧
      symbols (textOf back) = back ∧ rest = textWithout isComment back := by
  have hchar : d.openChar ≠ '{' := by cases d <;> simp_all [Delimiter.openChar]
  obtain ⟨removed, back, hsymbols, hback, hremoved⟩ :=
    (braced_symbols s).exists_of_textWithout htext hchar
  have hadjacent : removed = [] := by
    by_contra hne
    refine hopens ⟨[], removed, d.openChar, back, by rw [hsymbols]; rfl, hne, fun y hy => ?_, ?_⟩
    · obtain ⟨t, ht, hcomment⟩ := hremoved y hy
      rw [ht, beq_iff_eq.mp hcomment]
    · cases d <;> simp_all [Delimiter.openChar]
  subst hadjacent
  have hs : s = d.openChar :: textOf back := by
    rw [← textOf_symbols s, hsymbols]
    rfl
  have hread : symbols (textOf back) = back := by
    rw [hs, symbols_cons_of_ne hchar] at hsymbols
    exact (List.cons.inj hsymbols).2
  exact ⟨back, hs, hsymbols, hread, hback⟩

/-- A tag that the removal of comments brings about is no comment, and it ends where a symbol
does. -/
lemma exists_of_leadingTag?_textWithout {c : Char} {s content after : Text} {d : Delimiter}
    (hnone : leadingTag? (c :: s) = none) (hopens : ¬OpensAcross (.char c :: symbols s))
    (h : leadingTag? (c :: textWithout isComment (symbols s)) = some (d, content, after)) :
    d ≠ .comment ∧ ∃ m, m <:+ symbols s ∧ after = textWithout isComment m := by
  obtain ⟨rest, heq, hclosed⟩ := exists_opener_of_leadingTag? h
  obtain ⟨rfl, htext⟩ := List.cons.inj heq
  by_cases hd : d = .value
  · subst hd
    exact ⟨by decide, exists_of_openedValue hnone htext hclosed⟩
  · obtain ⟨back, hs, hsymbols, hread, rfl⟩ := exists_of_not_opensAcross hd hopens htext
    have hsplit : splitCloser? d (textOf back) = none := by
      rw [hs, leadingTag?_opener] at hnone
      exact Option.map_eq_none_iff.mp hnone
    refine ⟨?_, ?_⟩
    · rintro rfl
      have huncommented := uncommented_of_splitCloser? hsplit
      rw [hread] at huncommented
      rw [huncommented.textWithout_eq, hsplit] at hclosed
      cases hclosed
    · have hbraced := braced_symbols (textOf back)
      rw [hread] at hbraced
      obtain ⟨m, hm, hafter⟩ := hbraced.exists_of_splitCloser? hsplit hclosed
      rw [hsymbols]
      exact ⟨m, hm.trans (List.suffix_cons _ _), hafter⟩

/-- Where nothing opens across comments, none is left when they have been taken out. -/
theorem uncommented_textWithout {s : Text} (h : ¬OpensAcross (symbols s)) :
    Uncommented (symbols (textWithout isComment (symbols s))) := by
  -- A tag that comes about takes symbols with it, so that all that may be left are considered.
  suffices hall : ∀ m, m <:+ symbols s → Uncommented (symbols (textWithout isComment m)) from
    hall _ List.suffix_rfl
  induction s using reading_induction with
  | nil =>
    intro m hm
    rw [symbols_nil, List.suffix_nil] at hm
    simp [hm, Uncommented, textWithout, replace]
  | char c s htag ih =>
    rw [symbols_of_char htag] at h ⊢
    have hrest := ih fun hopens => h (hopens.of_suffix (List.suffix_cons _ _))
    intro m hm
    rcases List.suffix_cons_iff.mp hm with rfl | hm
    · change Uncommented (symbols (c :: textWithout isComment (symbols s)))
      cases hjoined : leadingTag? (c :: textWithout isComment (symbols s)) with
      | none =>
        rw [symbols_of_char hjoined]
        exact .cons (by simp [tag?]) (hrest _ List.suffix_rfl)
      | some found =>
        obtain ⟨d, content, after⟩ := found
        obtain ⟨hd, m, hm, rfl⟩ := exists_of_leadingTag?_textWithout htag h hjoined
        rw [symbols_of_leadingTag? hjoined]
        exact .cons (tag?_finished_ne_comment hd content) (hrest m hm)
    · exact hrest m hm
  | tag d content after s htag ih =>
    rw [symbols_of_leadingTag? htag] at h ⊢
    have hrest := ih fun hopens => h (hopens.of_suffix (List.suffix_cons _ _))
    intro m hm
    rcases List.suffix_cons_iff.mp hm with rfl | hm
    · by_cases hd : d = .comment
      · subst hd
        exact hrest (symbols after) List.suffix_rfl
      · have hkept : textWithout isComment (finished d content :: symbols after) =
            (finished d content).text ++ textWithout isComment (symbols after) := by
          have hne := tag?_finished_ne_comment hd content
          simp_all [finished, textWithout, replace, text, tag?, isComment]
        rw [hkept, reads_of_leadingTag? htag]
        exact .cons (tag?_finished_ne_comment hd content) (hrest _ List.suffix_rfl)
    · exact hrest m hm

/-- Symbols without a lone brace are read wherever their texts stand, also when some are taken
out. -/
lemma reads_textWithout (p : Tag → Bool) {s : Text} {l : List Symbol}
    (hl : ∀ y ∈ l, y ∈ symbols s) (h : .char '{' ∉ l) :
    Reads (textWithout p l) (l.filter fun y => !y.tag?.any p) := by
  induction l with
  | nil => exact .nil
  | cons y l ih =>
    have hrest := ih (fun z hz => hl z (List.mem_cons_of_mem y hz))
      fun hmem => h (List.mem_cons_of_mem y hmem)
    rcases mem_symbols (hl y List.mem_cons_self) with ⟨c, rfl⟩ | ⟨d, content, rfl, hreads⟩
    · have hc : '{' ∉ [c] := fun hmem => h (List.mem_singleton.mp hmem ▸ List.mem_cons_self)
      exact (Reads.of_not_mem hc).append hrest
    · cases hp : p (Tag.ofContent d content) with
      | true => simpa [finished, textWithout, replace, tag?, hp] using hrest
      | false => simpa [finished, textWithout, replace, tag?, text, hp] using hreads.append hrest

/-- Behind the first lone brace a comment does come about when its closer follows. -/
lemma not_uncommented_textWithout {s : Text} {front comments back : List Symbol}
    (hs : symbols s = front ++ .char '{' :: (comments ++ .char '#' :: back))
    (hfront : .char '{' ∉ front) (hcomments : ∀ y ∈ comments, y.tag? = some .comment)
    (hcloser : ['#', '}'] <:+: textWithout isComment back) :
    ¬Uncommented (symbols (textWithout isComment (symbols s))) := by
  have hgone : textWithout isComment comments = [] := by
    clear hs
    induction comments with
    | nil => rfl
    | cons y comments ih =>
      have hy := hcomments y List.mem_cons_self
      cases y with
      | char c => cases hy
      | tag t written =>
        obtain rfl := Option.some.inj hy
        exact ih fun z hz => hcomments z (List.mem_cons_of_mem _ hz)
  have htext : textWithout isComment (symbols s) =
      textWithout isComment front ++ '{' :: '#' :: textWithout isComment back := by
    have hjoin : textWithout isComment (comments ++ .char '#' :: back) =
        '#' :: textWithout isComment back := by
      rw [textWithout_append, hgone]
      rfl
    rw [hs, textWithout_append, ← hjoin]
    rfl
  have hreads := reads_textWithout isComment (s := s) (l := front)
    (fun y hy => by rw [hs]; exact List.mem_append_left _ hy) hfront
  obtain ⟨⟨content, after⟩, hsplit⟩ :=
    Option.ne_none_iff_exists'.mp (splitCloser?_ne_none (d := .comment) hcloser)
  have hopen : leadingTag? ('{' :: '#' :: textWithout isComment back) =
      some (.comment, content, after) := by
    have := leadingTag?_opener .comment (textWithout isComment back)
    rw [hsplit] at this
    exact this
  rw [htext, hreads, symbols_of_leadingTag? hopen]
  intro huncommented
  exact huncommented _ (List.mem_append_right _ List.mem_cons_self) rfl

end Scan

lemma Uniformly.bind {α β : Type} {options : WhitespaceOptions} {R : (Text → α) → Prop}
    {R' : (Text → β) → Prop} {read : Text → Except Text Text} {X : Text → Rendering α}
    {f : Text → α → Rendering β} (h : Uniformly options R fun w => (X w).run read)
    (hf : ∀ a, R a → Uniformly options R' fun w => (f w (a w)).run read) :
    Uniformly options R' fun w => (X w >>= f w).run read := by
  have hboth : Uniformly options R' fun w =>
      ((X w).run read).andThen fun a => (f w a).run read := h.andThen hf
  exact hboth.congr fun w _ => Rendering.run_bind read _ _

/-- A result is the one that depends on the value. -/
lemma Uniformly.exists_of_ok {α : Type} {options : WhitespaceOptions} {R : (Text → α) → Prop}
    {o : Text → Rendering.Outcome α} (h : Uniformly options R o) {w : Text}
    (hw : Inert options w) {a : α} (ha : (o w).result = .ok a) : ∃ f, R f ∧ a = f w := by
  rcases h with ⟨used, e, h⟩ | ⟨used, f, hf, h⟩
  · rw [h w hw] at ha
    cases ha
  · rw [h w hw] at ha
    exact ⟨f, hf, (Except.ok.inj ha).symm⟩

section
variable {options : WhitespaceOptions} {Good : Tag → Prop} (hgood : ∀ t, Good t → t ≠ .comment)
  {w : Text} (hw : Inert options w)
include hgood hw

lemma UniformText.uncommented {f : Text → Text} (hf : UniformText options Good f) :
    Scan.Uncommented (Scan.symbols (f w)) := by
  obtain ⟨l, hl, hsymbols⟩ := hf.exists_symbols
  rw [hsymbols w hw]
  intro y hy hcomment
  obtain ⟨z, hz, hyz⟩ := List.mem_flatMap.mp hy
  split at hyz
  · obtain ⟨c, -, rfl⟩ := List.mem_map.mp hyz
    cases hcomment
  · rename_i hne
    obtain rfl := List.mem_singleton.mp hyz
    exact hgood _ ((hl y hz).good hne hcomment) rfl

lemma UniformSymbols.uncommented {S : Text → List Symbol} (hS : UniformSymbols options Good S) :
    Scan.Uncommented (S w) := by
  obtain ⟨f, hf, hS⟩ := hS
  rw [hS w hw]
  exact hf.uncommented hgood hw

end

namespace Tag

/-- A tag that brings in no brace of its own; a loop over a written list has calm items. -/
def calm : Tag → Bool
  | .openFor _ source =>
    (LoopSource.items source []).toOption.all fun items => items.all fun v => decide v.Calm
  | t => t.quiet

/-- Calm tags insulate a variable that they do not use. -/
lemma insulates_calm {x : Text} (hx : '.' ∉ x) : Insulates x
    (fun t => t ≠ .comment ∧ t.calm = true ∧ t.spares x = true) Quiet where
  simple := hx
  spares _ h := h.2.2
  printed path fallback h := (insulates_quiet hx).printed path fallback ⟨h.2.2, h.2.1⟩
  scope_openFor item source h vars hvars items hitems v hv := by
    apply hvars.insert
    have hcalm : ∀ items, LoopSource.items source [] = .ok items → ∀ v ∈ items, v.Calm := by
      intro items hitems v hv
      have := h.2.1
      rw [calm, hitems] at this
      exact of_decide_eq_true (List.all_eq_true.mp this v hv)
    cases hlist : LoopSource.unbracket? source.trim with
    | some inner =>
      refine hcalm items ?_ v hv
      rw [← hitems]
      simp only [LoopSource.items, LoopSource.itemsBy, hlist]
    | none =>
      rw [LoopSource.items, LoopSource.itemsBy] at hitems
      simp only [hlist] at hitems
      split at hitems
      · cases hitems
        cases hv
      · cases hitems
        cases hv
      · rename_i found harray
        cases hitems
        exact (hvars.valueAt? harray).of_mem_array hv
      · cases hitems
  scope_insert reference literal h := (insulates_quiet hx).scope_insert reference literal
    ⟨h.2.2, h.2.1⟩

end Tag

namespace Renderer

/-- White space control leaves comments, calm tidy tags and characters that are no brace. -/
def IsOrderly (r : Renderer) (source : Text) : Prop :=
  ∀ y ∈ Scan.symbols (Whitespace.control r.options.whitespace source),
    y.tag? = some .comment ∨ y.Tidy r.options.whitespace fun t => t.calm = true

instance (r : Renderer) : DecidablePred r.IsOrderly := fun source =>
  inferInstanceAs (Decidable (∀ y ∈ Scan.symbols (Whitespace.control r.options.whitespace source),
    y.tag? = some .comment ∨ y.Tidy r.options.whitespace fun t => t.calm = true))

/-- What is left of an orderly text without its comments can be filled in. -/
lemma IsOrderly.clean {r : Renderer} {source : Text} (h : r.IsOrderly source) :
    Clean r (fun t => t ≠ .comment ∧ t.calm = true ∧ t.spares [' '] = true) source := by
  have hbrace : .char '{' ∉
      Scan.symbols (Whitespace.control r.options.whitespace source) := by
    intro hmem
    rcases h _ hmem with hcomment | htidy
    · cases hcomment
    · exact htidy.1 rfl
  have hread : r.read source = (Scan.symbols (Whitespace.control r.options.whitespace
      source)).filter fun y => !y.tag?.any isComment :=
    (Scan.reads_textWithout isComment (fun _ hy => hy) hbrace).symbols_eq
  refine IsTidy.clean fun y hy => ?_
  rw [hread, List.mem_filter] at hy
  obtain ⟨hmem, hkept⟩ := hy
  rcases Scan.mem_symbols hmem with ⟨c, rfl⟩ | ⟨d, content, rfl, -⟩
  · exact (h _ hmem).resolve_left (by simp [Symbol.tag?])
  · have hcomment : Tag.ofContent d content ≠ .comment := by
      intro heq
      simp [Scan.finished, Symbol.tag?, heq, isComment] at hkept
    obtain ⟨hunmarked, honeLine, hcalm⟩ :=
      (h _ hmem).resolve_left (by simpa [Scan.finished, Symbol.tag?] using hcomment)
    exact ⟨hunmarked, honeLine, hcomment, hcalm, Tag.spares_blank_ofContent d content⟩

section
variable (r : Renderer) (template fragment : Expansion) (ctx : Context) (symbols : List Symbol)

/-- The symbols after the pass over inclusions, in which the tags about parents are gone. -/
def afterInserts : Rendering (List Symbol) :=
  r.expandInserts template ctx (dropTags isAncestry symbols)

def afterBlocks : Rendering (List Symbol) :=
  r.afterInserts template ctx symbols >>= r.expandBlocks fragment ctx

def afterConditionals : Rendering (List Symbol) :=
  r.afterBlocks template fragment ctx symbols >>= r.expandConditionals fragment ctx

def afterLoops : Rendering (List Symbol) :=
  r.afterConditionals template fragment ctx symbols >>= r.expandLoops fragment ctx

/-- What the passes over a text work on, one after another. -/
def passes : List (Rendering (List Symbol)) :=
  [pure symbols, r.afterInserts template ctx symbols, r.afterBlocks template fragment ctx symbols,
    r.afterConditionals template fragment ctx symbols, r.afterLoops template fragment ctx symbols]

/-- The last of them is what the placeholders are filled in. -/
theorem run_expandBody_afterLoops (read : Text → Except Text Text) :
    (r.expandBody template fragment ctx symbols).run read =
      ((r.afterLoops template fragment ctx symbols).run read).andThen
        fun last => ⟨[], .ok (interpolate ctx.vars (dropTags isSuper last))⟩ := by
  simp only [expandBody, afterLoops, afterConditionals, afterBlocks, afterInserts,
    Rendering.run_bind, Rendering.Outcome.andThen_assoc]
  rfl

end

section
variable {r : Renderer} {read : Text → Except Text Text} {x : Text} {Good : Tag → Prop}
  {Scope : Fields → Prop} {template fragment : Expansion} {V : Text → Fields}
  {S : Text → List Symbol} (hV : UniformFields r.options.whitespace x Scope V)
  (hG : Insulates x Good Scope)
  (hread : ∀ identifier source, read identifier = .ok source → Clean r Good source)
  (directory : Text) (hT : PreservesClean r read x Good Scope template)
  (hF : Preserves r read x Good Scope fragment)
  (hS : UniformSymbols r.options.whitespace Good S)
include hV hG hread hT hS

lemma uniformly_afterInserts :
    Uniformly r.options.whitespace (UniformSymbols r.options.whitespace Good) fun w =>
      (r.afterInserts template ⟨V w, directory⟩ (S w)).run read :=
  UniformSymbols.expandInserts hV hG hread directory hT (hS.dropTags isAncestry)

include hF

lemma uniformly_afterBlocks :
    Uniformly r.options.whitespace (UniformSymbols r.options.whitespace Good) fun w =>
      (r.afterBlocks template fragment ⟨V w, directory⟩ (S w)).run read :=
  (uniformly_afterInserts hV hG hread directory hT hS).bind fun _ hS =>
    (hS.expandConstructs fun _ _ _ _ _ hbody => hF V directory _ hV (uniformText_body hbody)).1

lemma uniformly_afterConditionals :
    Uniformly r.options.whitespace (UniformSymbols r.options.whitespace Good) fun w =>
      (r.afterConditionals template fragment ⟨V w, directory⟩ (S w)).run read :=
  (uniformly_afterBlocks hV hG hread directory hT hF hS).bind fun _ hS =>
    (hS.expandConstructs fun _ _ _ hopen hopener hbody =>
      uniformly_expandConditional hV hG hF directory hopener hbody hopen).1

lemma uniformly_afterLoops :
    Uniformly r.options.whitespace (UniformSymbols r.options.whitespace Good) fun w =>
      (r.afterLoops template fragment ⟨V w, directory⟩ (S w)).run read :=
  (uniformly_afterConditionals hV hG hread directory hT hF hS).bind fun _ hS =>
    (hS.expandConstructs fun _ _ _ hopen hopener hbody =>
      uniformly_expandLoop hV hG hF directory hopener hbody hopen).2

/-- Tags that are no comments leave no pass with one. -/
lemma uncommented_of_mem_passes (hgood : ∀ t, Good t → t ≠ .comment) {w : Text}
    (hw : Inert r.options.whitespace w) {pass : Rendering (List Symbol)}
    (hpass : pass ∈ r.passes template fragment ⟨V w, directory⟩ (S w)) {l : List Symbol}
    (hl : (pass.run read).result = .ok l) : Scan.Uncommented l := by
  have hstage {X : Text → Rendering (List Symbol)}
      (h : Uniformly r.options.whitespace (UniformSymbols r.options.whitespace Good) fun w =>
        (X w).run read) (hl : ((X w).run read).result = .ok l) : Scan.Uncommented l := by
    obtain ⟨S, hS, rfl⟩ := h.exists_of_ok hw hl
    exact hS.uncommented hgood hw
  simp only [passes, List.mem_cons, List.not_mem_nil, or_false] at hpass
  rcases hpass with rfl | rfl | rfl | rfl | rfl
  · obtain rfl := Except.ok.inj hl
    exact hS.uncommented hgood hw
  · exact hstage (uniformly_afterInserts hV hG hread directory hT hS) hl
  · exact hstage (uniformly_afterBlocks hV hG hread directory hT hF hS) hl
  · exact hstage (uniformly_afterConditionals hV hG hread directory hT hF hS) hl
  · exact hstage (uniformly_afterLoops hV hG hread directory hT hF hS) hl

end

/-- Preprocessing leaves no comment where nothing opens across one, and it does leave one where
the first lone brace meets a `#` with a closer further on. Among calm values and orderly templates
no pass on any level gets a comment, and none is printed. -/
theorem comments_removed (r : Renderer) :
    (∀ source, ¬Scan.OpensAcross (Scan.symbols (Whitespace.control r.options.whitespace source)) →
      Scan.Uncommented (Scan.symbols (r.preprocess source))) ∧
    (∀ source front comments back,
      Scan.symbols (Whitespace.control r.options.whitespace source) =
        front ++ .char '{' :: (comments ++ .char '#' :: back) →
      .char '{' ∉ front → (∀ y ∈ comments, y.tag? = some .comment) →
      ['#', '}'] <:+: Symbol.textWithout isComment back →
      ¬Scan.Uncommented (Scan.symbols (r.preprocess source))) ∧
    ∀ read : Text → Except Text Text,
      (∀ identifier source, read identifier = .ok source → r.IsOrderly source) →
      ∀ vars, Quiet vars → ∀ source, r.IsOrderly source →
        (∀ level directory, ∀ pass ∈ r.passes (r.template level) (r.fragment level)
          ⟨vars, directory⟩ (r.read source), ∀ l, (pass.run read).result = .ok l →
            Scan.Uncommented l) ∧
        ∀ directory content, ((r.renderText source vars directory).run read).result = .ok content →
          Scan.Uncommented (Scan.symbols content) := by
  refine ⟨fun source => Scan.uncommented_textWithout,
    fun source front comments back => Scan.not_uncommented_textWithout, ?_⟩
  intro read hread vars hvars source hsource
  have hG := Tag.insulates_calm (show '.' ∉ [' '] by decide)
  have hclean (identifier source) (h : read identifier = .ok source) :=
    (hread identifier source h).clean
  have hV : UniformFields r.options.whitespace [' '] Quiet fun _ => vars :=
    ⟨fun _ _ _ _ _ _ => rfl, .inr fun _ _ _ _ => rfl, fun _ _ => hvars⟩
  have hw := inert_letter r.options.whitespace
  have hlevel (level) := uniformLevel hG hclean level
  refine ⟨fun level directory pass hpass l hl => ?_, fun directory content hcontent => ?_⟩
  · exact uncommented_of_mem_passes hV hG hclean directory (hlevel level).template
      (hlevel level).fragment hsource.clean.uniformSymbols (fun t ht => ht.1) hw hpass hl
  · obtain ⟨f, hf, rfl⟩ := ((hlevel r.topLevel).template _ (directory.getD r.baseDirectory) source
      hV hsource.clean).exists_of_ok hw hcontent
    exact hf.uncommented (fun t ht => ht.1) hw

end Renderer

lemma Store.exists_of_read {store : Store} {identifier source : Text}
    (h : store.read identifier = .ok source) : ∃ entry ∈ store.templates, entry.2 = source := by
  rw [read, get?] at h
  cases hget : store.templates.get? identifier with
  | none => simp [hget] at h
  | some content => exact ⟨_, Entries.mem_of_get? hget, by simpa [hget] using h⟩

namespace Renderer

def board : Renderer := inMemory

/-- With the page below, comments at the start, between tags, in a block and in a branch. -/
def bulletin : Store := .ofList
  [("page.yapl".toList, "{# frame #}<{% block main %}{% endblock %}>".toList),
    ("cell.yapl".toList, "[{{ member }}{# cell #}: {{ name }}]".toList)]

def bulletinPage : Text :=
  writeTag .control "extends \"page\"".toList ++
    "{# news #}{% block main %}{# if #}{% if open %}{{ name }}{# yes #}{% endif %}".toList ++
    writeTag .control "for member in [\"Ann\", \"Bo\"]".toList ++
    writeTag .control "include \"cell\"".toList ++ "{% endfor %}{% endblock %}".toList

def bulletinFields : Fields := [("open".toList, .bool true), ("name".toList, .string "m".toList)]

lemma isOrderly_bulletin {identifier source : Text} (h : bulletin.read identifier = .ok source) :
    board.IsOrderly source := by
  have hall : ∀ entry ∈ bulletin.templates, board.IsOrderly entry.2 := by decide +kernel
  obtain ⟨entry, hentry, rfl⟩ := Store.exists_of_read h
  exact hall entry hentry

lemma not_opensAcross_bulletinPage : ¬Scan.OpensAcross
    (Scan.symbols (Whitespace.control board.options.whitespace bulletinPage)) := by
  rintro ⟨front, comments, c, back, h, -⟩
  have hbrace : .char '{' ∉
      Scan.symbols (Whitespace.control board.options.whitespace bulletinPage) := by
    decide +kernel
  exact hbrace (by rw [h]; simp)

theorem comments_removed_bulletin :
    Scan.Uncommented (Scan.symbols (board.preprocess bulletinPage)) ∧
    ¬Scan.Uncommented (Scan.symbols (board.preprocess "{{# a #}# b #}".toList)) ∧
    (∀ level directory, ∀ pass ∈ board.passes (board.template level) (board.fragment level)
      ⟨bulletinFields, directory⟩ (board.read bulletinPage),
      ∀ l, (pass.run bulletin.read).result = .ok l → Scan.Uncommented l) ∧
    ((board.renderText bulletinPage bulletinFields none).run bulletin.read).result =
      .ok "<m[Ann: m][Bo: m]>".toList ∧
    Scan.Uncommented (Scan.symbols "<m[Ann: m][Bo: m]>".toList) := by
  have hquiet : Quiet bulletinFields := by
    have hcalm : ∀ entry ∈ bulletinFields, entry.2.Calm := by decide
    exact fun key v hv => hcalm (key, v) (Entries.mem_of_get? hv)
  obtain ⟨hpreprocess, hjoined, hrender⟩ := comments_removed board
  obtain ⟨hpasses, houtput⟩ := hrender bulletin.read (fun _ _ => isOrderly_bulletin)
    bulletinFields hquiet bulletinPage (by decide +kernel)
  have hok : ((board.renderText bulletinPage bulletinFields none).run bulletin.read).result =
      .ok "<m[Ann: m][Bo: m]>".toList := by decide +kernel
  have hleft : ¬Scan.Uncommented (Scan.symbols (board.preprocess "{{# a #}# b #}".toList)) :=
    hjoined _ [] [.tag .comment "{# a #}".toList] (" b #\x7d".toList.map .char) (by decide +kernel)
      (by simp) (by simp [Symbol.tag?]) ⟨" b ".toList, [], by decide⟩
  exact ⟨hpreprocess bulletinPage not_opensAcross_bulletinPage, hleft, hpasses, hok,
    houtput none _ hok⟩

/-- A brace in front of a comment opens one with what stands behind it, a brace in front of a tag
does so with what the tag leaves, and the text of a default is printed as it is. -/
theorem render_newComment :
    Store.empty.render "{{# a #}# b #}".toList = .ok ⟨"{# b #}".toList, []⟩ ∧
    Store.empty.render "{{% if true %}# b #}{% endif %}".toList = .ok ⟨"{# b #}".toList, []⟩ ∧
    Store.empty.render (writeTag .value "x | default(\"{# b #}\")".toList) =
      .ok ⟨"{# b #}".toList, []⟩ ∧
    ¬Scan.Uncommented (Scan.symbols "{# b #}".toList) := by
  refine ⟨by decide +kernel, by decide +kernel, by decide +kernel, fun h => ?_⟩
  have hcomment : .tag .comment "{# b #}".toList ∈ Scan.symbols "{# b #}".toList := by
    decide +kernel
  exact h _ hcomment rfl

end Renderer
end Stencil
