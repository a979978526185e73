import Stencil.Proofs.Hole.Sealed

/-! White space control and dedenting of filled lists. Both take away characters of the list and
leave the values in its holes alone. -/
namespace Stencil

def isIndentSymbol : Symbol → Bool
  | .char c => Text.isIndent c
  | .tag .. => false

def isWhiteSymbol : Symbol → Bool
  | .char c => Text.isWhite c
  | .tag .. => false

lemma mem_intercalate {α : Type} {a y : α} {ls : List (List α)} (h : y ∈ [a].intercalate ls) :
    y = a ∨ ∃ l ∈ ls, y ∈ l := by
  induction ls with
  | nil => simp at h
  | cons l ls ih =>
    cases ls with
    | nil => exact .inr ⟨l, List.mem_cons_self, by simpa using h⟩
    | cons m ls =>
      rw [List.intercalate_cons_cons] at h
      simp only [List.mem_append, List.mem_singleton] at h
      rcases h with (h | h) | h
      · exact .inr ⟨l, List.mem_cons_self, h⟩
      · exact .inl h
      · rcases ih h with h | ⟨k, hk, h⟩
        · exact .inl h
        · exact .inr ⟨k, List.mem_cons_of_mem l hk, h⟩

lemma mem_of_mem_splitOn {α : Type} [BEq α] [LawfulBEq α] {a y : α} {l part : List α}
    (hpart : part ∈ l.splitOn a) (hy : y ∈ part) : y ∈ l := by
  rw [show l = [a].intercalate (l.splitOn a) from (List.intercalate_splitOn a).symm]
  generalize l.splitOn a = parts at hpart
  induction parts with
  | nil => cases hpart
  | cons first parts ih =>
    cases parts with
    | nil =>
      rw [List.mem_singleton.mp hpart] at hy
      simpa using hy
    | cons second parts =>
      rw [List.intercalate_cons_cons]
      rcases List.mem_cons.mp hpart with rfl | hpart
      · simp [hy]
      · simp [ih hpart]

section
variable (w : Text)

lemma unlines_map_fillText (ls : List (List Symbol)) :
    Text.unlines (ls.map (fillText w)) = fillText w ([.char '\n'].intercalate ls) := by
  induction ls with
  | nil => rfl
  | cons l ls ih =>
    cases ls with
    | nil => simp [Text.unlines]
    | cons m ls =>
      rw [List.intercalate_cons_cons, fillText_append, ← ih]
      simp [Text.unlines, List.intercalate_cons_cons]

end

section
variable {options : WhitespaceOptions} (hon : options ≠ .disabled) {w : Text}
  (hw : Inert options w)
include hon hw

lemma lines_fillText {l : List Symbol} (hl : ∀ y ∈ l, Sealed options y) :
    Text.lines (fillText w l) = (l.splitOn (.char '\n')).map (fillText w) := by
  induction l with
  | nil => simp [Text.lines]
  | cons y l ih =>
    have hrest := ih fun z hz => hl z (List.mem_cons_of_mem y hz)
    have hkeep (hy : y ≠ .char '\n') (s : Text) (hs : '\n' ∉ s)
        (htext : ∀ m, fillText w (y :: m) = s ++ fillText w m) :
        Text.lines (fillText w (y :: l)) =
          ((y :: l).splitOn (.char '\n')).map (fillText w) := by
      rw [htext, Text.lines_append hs, hrest, List.splitOn_cons_eq_if_modifyHead,
        if_neg (by simpa using hy)]
      cases l.splitOn (.char '\n') with
      | nil => rfl
      | cons first others => simp [htext]
    rcases hl y List.mem_cons_self with rfl | ⟨c, rfl, -, -⟩ | htag
    · exact hkeep (by simp [hole]) w (hw.solid hon).2.1 fun m => fillText_hole w m
    · by_cases hc : c = '\n'
      · subst hc
        have hlines : Text.lines ('\n' :: fillText w l) = [] :: Text.lines (fillText w l) := by
          have := List.splitOn_cons_eq_if_modifyHead (a := '\n') '\n' (fillText w l)
          simpa [Text.lines] using this
        rw [fillText_char, hlines, hrest, List.splitOn_cons_eq_if_modifyHead, if_pos (by simp)]
        rfl
      · exact hkeep (by simpa using hc) [c] (by simpa using Ne.symm hc) fun m => fillText_char w c m
    · refine hkeep ?_ y.text (htag.oneLine hon) fun m => fillText_of_ne w htag.ne_hole m
      rintro rfl
      obtain ⟨d, content, h⟩ := htag.finished
      cases h

lemma dropWhile_fillText {l : List Symbol} (hl : ∀ y ∈ l, Sealed options y) :
    (fillText w l).dropWhile Text.isIndent = fillText w (l.dropWhile isIndentSymbol) := by
  induction l with
  | nil => rfl
  | cons y l ih =>
    have hrest := ih fun z hz => hl z (List.mem_cons_of_mem y hz)
    rcases hl y List.mem_cons_self with rfl | ⟨c, rfl, -, -⟩ | htag
    · obtain ⟨hne, -, htrim⟩ := hw.solid hon
      have hstop : (hole :: l).dropWhile isIndentSymbol = hole :: l := rfl
      rw [hstop, fillText_hole]
      cases hcase : w with
      | nil => exact absurd hcase hne
      | cons a v =>
        have hwhite := htrim.1 a (by rw [hcase]; rfl)
        have hindent : Text.isIndent a = false := by
          cases h : Text.isIndent a with
          | false => rfl
          | true => rw [Text.isWhite_of_isIndent h] at hwhite; cases hwhite
        simp [hindent]
    · rw [fillText_char, List.dropWhile_cons, List.dropWhile_cons]
      by_cases hc : Text.isIndent c = true
      · rw [if_pos hc, if_pos (by exact hc), hrest]
      · rw [if_neg hc, if_neg (by exact hc), fillText_char]
    · obtain ⟨d, content, hy, htext⟩ := htag.text_eq
      have hstop : (y :: l).dropWhile isIndentSymbol = y :: l := by
        rw [hy]
        rfl
      rw [hstop, fillText_of_ne w htag.ne_hole, htext]
      rfl

/-- Whether the first symbol is a control tag. -/
def startsControl : List Symbol → Bool
  | y :: _ => y != hole && Whitespace.startsControlTag y.text
  | [] => false

omit hon in
lemma startsControlTag_fillText (hne : w ≠ []) {l : List Symbol}
    (hl : ∀ y ∈ l, Sealed options y) :
    Whitespace.startsControlTag (fillText w l) = startsControl l := by
  cases l with
  | nil => rfl
  | cons y l =>
    rcases hl y List.mem_cons_self with rfl | ⟨c, rfl, hopen, -⟩ | htag
    · rw [fillText_hole]
      cases hcase : w with
      | nil => exact absurd hcase hne
      | cons a v =>
        have hopen := hw.no_open
        rw [hcase] at hopen
        have ha : a ≠ '{' := by
          rintro rfl
          simp at hopen
        simp [Whitespace.startsControlTag, startsControl, ha]
    · rw [fillText_char]
      simp [Whitespace.startsControlTag, startsControl, Symbol.text]
      split <;> simp_all
    · have hne := htag.ne_hole
      obtain ⟨d, content, hy, htext⟩ := htag.text_eq
      rw [fillText_of_ne w hne, startsControl, htext]
      cases d <;> simp [Whitespace.startsControlTag, hne, Delimiter.openChar]

end

def stripSymbols (line : List Symbol) : List Symbol :=
  if startsControl (line.dropWhile isIndentSymbol) then line.dropWhile isIndentSymbol else line

lemma mem_of_mem_stripSymbols {line : List Symbol} {y : Symbol} (h : y ∈ stripSymbols line) :
    y ∈ line := by
  unfold stripSymbols at h
  split at h
  · exact (List.dropWhile_suffix isIndentSymbol).subset h
  · exact h

section
variable {options : WhitespaceOptions} (hon : options ≠ .disabled) {w : Text}
  (hw : Inert options w)
include hon hw

lemma stripIndent_fillText {line : List Symbol} (hl : ∀ y ∈ line, Sealed options y) :
    Whitespace.stripIndent (fillText w line) = fillText w (stripSymbols line) := by
  have hdrop : ∀ y ∈ line.dropWhile isIndentSymbol, Sealed options y :=
    fun y hy => hl y ((List.dropWhile_suffix isIndentSymbol).subset hy)
  rw [Whitespace.stripIndent, stripSymbols, dropWhile_fillText hon hw hl,
    startsControlTag_fillText hw (hw.solid hon).1 hdrop]
  split <;> rfl

lemma stripIndents_fillText {l : List Symbol} (hl : ∀ y ∈ l, Sealed options y) :
    Whitespace.stripIndents (fillText w l) =
      fillText w ([.char '\n'].intercalate ((l.splitOn (.char '\n')).map stripSymbols)) := by
  rw [Whitespace.stripIndents, lines_fillText hon hw hl, ← unlines_map_fillText, List.map_map,
    List.map_map]
  congr 1
  refine List.map_congr_left fun line hline => ?_
  exact stripIndent_fillText hon hw fun y hy => hl y (mem_of_mem_splitOn hline hy)

end

namespace Whitespace

lemma breakFollows_of_close {v : Text} (hv : '\n' ∉ v) (rest : Text) :
    breakFollows (v ++ '}' :: rest) = false := by
  induction v with
  | nil => rfl
  | cons c v ih =>
    simp only [List.mem_cons, not_or] at hv
    by_cases hc : Text.isIndent c = true
    · have := ih hv.2
      unfold breakFollows at this ⊢
      rwa [List.cons_append, List.dropWhile_cons, if_pos hc]
    · unfold breakFollows
      rw [List.cons_append, List.dropWhile_cons, if_neg hc]
      split
      · rename_i heq
        rw [List.cons.injEq] at heq
        exact absurd heq.1.symm hv.1
      · rename_i rest' heq
        rw [List.cons.injEq] at heq
        cases v with
        | nil => simp at heq
        | cons d v =>
          rw [List.cons_append, List.cons.injEq] at heq
          exact absurd (by simp [heq.2.1]) hv.2
      · rfl

lemma trimBreaksFrom_cons {c : Char} {s : Text} (h : c = '%' → s.head? ≠ some '}') :
    trimBreaksFrom false (c :: s) = c :: trimBreaksFrom false s := by
  rw [trimBreaksFrom]
  rintro t rfl rfl
  exact h rfl rfl

/-- A text that closes nothing ends no control tag, nor does what follows it. -/
lemma trimBreaksFrom_append_of_no_close {v s : Text} (hv : '}' ∉ v) (hs : s.head? ≠ some '}') :
    trimBreaksFrom false (v ++ s) = v ++ trimBreaksFrom false s := by
  induction v with
  | nil => rfl
  | cons a v ih =>
    simp only [List.mem_cons, not_or] at hv
    rw [List.cons_append, trimBreaksFrom_cons, ih hv.2]
    · rfl
    · intro _
      cases v with
      | nil => exact hs
      | cons b v => simpa using fun hb : b = '}' => hv.2 (by simp [hb])

/-- A text of one line that ends with a closing brace: only behind a control tag's closer is there
a line break to take away. -/
lemma trimBreaksFrom_close {v : Text} (hv : '\n' ∉ v) {x : Char} (hx : x ≠ '\n') (rest : Text) :
    trimBreaksFrom false (v ++ x :: '}' :: rest) =
      v ++ x :: '}' :: trimBreaksFrom (x == '%' && breakFollows rest) rest := by
  have hend : trimBreaksFrom false ('}' :: rest) = '}' :: trimBreaksFrom false rest :=
    trimBreaksFrom_cons (by simp)
  induction hn : v.length using Nat.strong_induction_on generalizing v with
  | _ n ih =>
    cases v with
    | nil =>
      by_cases hp : x = '%'
      · subst hp
        rw [List.nil_append, trimBreaksFrom]
        simp
      · have hno : (x == '%') = false := by simpa using hp
        rw [List.nil_append, trimBreaksFrom_cons fun h => absurd h hp, hend, hno, Bool.false_and]
        rfl
    | cons c v =>
      simp only [List.mem_cons, not_or] at hv
      by_cases hclose : c = '%' ∧ (v ++ x :: '}' :: rest).head? = some '}'
      · obtain ⟨rfl, hhead⟩ := hclose
        cases v with
        | nil =>
          obtain rfl : x = '}' := by simpa using hhead
          have hno : breakFollows ('}' :: rest) = false := rfl
          rw [List.cons_append, List.nil_append, trimBreaksFrom, hno, hend]
          rfl
        | cons d v =>
          obtain rfl : d = '}' := by simpa using hhead
          simp only [List.mem_cons, not_or] at hv
          have hno : breakFollows (v ++ x :: '}' :: rest) = false := by
            have := breakFollows_of_close (v := v ++ [x]) (by simp [hv.2.2, Ne.symm hx]) rest
            simpa using this
          have hv' := ih v.length (by rw [← hn]; simp only [List.length_cons]; omega) hv.2.2 rfl
          rw [List.cons_append, List.cons_append, trimBreaksFrom, hno, hv']
          rfl
      · have hv' := ih v.length (by rw [← hn]; simp) hv.2 rfl
        rw [List.cons_append, trimBreaksFrom_cons fun hc hhead => hclose ⟨hc, hhead⟩, hv']
        rfl

end Whitespace

/-- What stands behind a line break that only white space precedes. -/
def breakRest? (l : List Symbol) : Option (List Symbol) :=
  match l.dropWhile isIndentSymbol with
  | .char '\n' :: rest => some rest
  | .char '\r' :: .char '\n' :: rest => some rest
  | _ => none

lemma breakRest?_suffix {l rest : List Symbol} (h : breakRest? l = some rest) :
    rest <:+ l ∧ rest.length < l.length := by
  have hsuffix := List.dropWhile_suffix isIndentSymbol (l := l)
  have hrest : rest <:+ l.dropWhile isIndentSymbol ∧
      rest.length < (l.dropWhile isIndentSymbol).length := by
    unfold breakRest? at h
    split at h
    · rename_i heq
      obtain rfl := Option.some.inj h
      rw [heq]
      exact ⟨List.suffix_cons _ _, by simp⟩
    · rename_i heq
      obtain rfl := Option.some.inj h
      rw [heq]
      exact ⟨(List.suffix_cons _ _).trans (List.suffix_cons _ _), by simp⟩
    · cases h
  exact ⟨hrest.1.trans hsuffix, hrest.2.trans_le hsuffix.length_le⟩

section
variable {options : WhitespaceOptions} (hon : options ≠ .disabled) {w : Text}
  (hw : Inert options w)
include hon hw

/-- The value begins with a character that is not white. -/
lemma exists_fillText_hole (l : List Symbol) :
    ∃ a s, fillText w (hole :: l) = a :: s ∧ Text.isWhite a = false := by
  obtain ⟨hne, -, htrim⟩ := hw.solid hon
  obtain ⟨a, v, rfl⟩ := List.exists_cons_of_ne_nil hne
  exact ⟨a, v ++ fillText (a :: v) l, fillText_hole .., htrim.1 a rfl⟩

/-- A white first character is one of the list. -/
lemma eq_char_of_head? {l : List Symbol} (hl : ∀ y ∈ l, Sealed options y) {c : Char}
    (hc : Text.isWhite c = true) {rest : Text} (h : fillText w l = c :: rest) :
    ∃ tail, l = .char c :: tail ∧ rest = fillText w tail := by
  cases l with
  | nil => cases h
  | cons y l =>
    rcases hl y List.mem_cons_self with rfl | ⟨a, rfl, -, -⟩ | htag
    · obtain ⟨a, s, hfill, ha⟩ := exists_fillText_hole hon hw l
      obtain rfl : a = c := (List.cons.inj (hfill.symm.trans h)).1
      rw [ha] at hc
      cases hc
    · rw [fillText_char, List.cons.injEq] at h
      exact ⟨l, by rw [h.1], h.2.symm⟩
    · obtain ⟨d, content, -, htext⟩ := htag.text_eq
      rw [fillText_of_ne w htag.ne_hole, htext] at h
      simp only [List.cons_append, List.cons.injEq] at h
      rw [← h.1] at hc
      exact absurd hc (by decide)

lemma breakFollows_fillText {l : List Symbol} (hl : ∀ y ∈ l, Sealed options y) :
    Whitespace.breakFollows (fillText w l) = (breakRest? l).isSome := by
  have hdrop : ∀ y ∈ l.dropWhile isIndentSymbol, Sealed options y :=
    fun y hy => hl y ((List.dropWhile_suffix isIndentSymbol).subset hy)
  rw [Whitespace.breakFollows, dropWhile_fillText hon hw hl, breakRest?]
  generalize l.dropWhile isIndentSymbol = m at hdrop
  split
  · rename_i heq
    obtain ⟨tail, rfl, -⟩ := eq_char_of_head? hon hw hdrop (by decide) heq
    rfl
  · rename_i heq
    obtain ⟨tail, rfl, htail⟩ := eq_char_of_head? hon hw hdrop (by decide) heq
    have htail' := fun y hy => hdrop y (List.mem_cons_of_mem _ hy)
    obtain ⟨tail', rfl, -⟩ := eq_char_of_head? hon hw htail' (by decide) htail.symm
    rfl
  · rename_i hline hreturn
    split
    · rename_i rest
      exact absurd (fillText_char w '\n' rest) (hline _)
    · rename_i rest
      exact absurd (by simp) (hreturn (fillText w rest))
    · rfl

lemma trimBreaksFrom_breakRest {l rest : List Symbol} (hl : ∀ y ∈ l, Sealed options y)
    (h : breakRest? l = some rest) :
    Whitespace.trimBreaksFrom true (fillText w l) = Whitespace.trimBreaks (fillText w rest) := by
  have hindent : '\n' ∉ (fillText w l).takeWhile Text.isIndent := by
    intro hmem
    have := List.mem_takeWhile_imp hmem
    cases this
  rw [← List.takeWhile_append_dropWhile (p := Text.isIndent) (l := fillText w l),
    dropWhile_fillText hon hw hl]
  unfold breakRest? at h
  split at h
  · rename_i heq
    obtain rfl := Option.some.inj h
    rw [heq, fillText_char, Whitespace.trimBreaksFrom_true hindent]
  · rename_i tail heq
    obtain rfl := Option.some.inj h
    rw [heq, fillText_char, fillText_char]
    have := Whitespace.trimBreaksFrom_true
      (s := (fillText w l).takeWhile Text.isIndent ++ ['\r']) (by simp [hindent])
      (fillText w tail)
    simpa using this
  · cases h

end

/-- Behind a tag of one line, if it is a control tag, the line break goes. -/
lemma SealedTag.exists_trimBreaksFrom {options : WhitespaceOptions} {y : Symbol}
    (h : SealedTag options y) (hon : options ≠ .disabled) :
    ∃ d : Delimiter, ∀ rest, Whitespace.trimBreaksFrom false (y.text ++ rest) = y.text ++
      Whitespace.trimBreaksFrom (d.closeChar == '%' && Whitespace.breakFollows rest) rest := by
  obtain ⟨d, content, -, htext⟩ := h.text_eq
  have hline : '\n' ∉ '{' :: d.openChar :: content := by
    have := h.oneLine hon
    rw [htext] at this
    simp only [List.mem_append, not_or] at this
    exact this.1
  refine ⟨d, fun rest => ?_⟩
  have := Whitespace.trimBreaksFrom_close hline (x := d.closeChar) (by cases d <;> decide) rest
  rw [htext]
  simpa using this

/-- Taking line breaks behind control tags away from a filled list. -/
lemma exists_trimBreaks {options : WhitespaceOptions} (hon : options ≠ .disabled)
    {l : List Symbol} (hl : ∀ y ∈ l, Sealed options y) :
    ∃ m, (∀ y ∈ m, y ∈ l) ∧
      ∀ w, Inert options w → Whitespace.trimBreaks (fillText w l) = fillText w m := by
  induction hn : l.length using Nat.strong_induction_on generalizing l with
  | _ n ih =>
    cases l with
    | nil => exact ⟨[], by simp, fun _ _ => rfl⟩
    | cons y l =>
      have hl' : ∀ z ∈ l, Sealed options z := fun z hz => hl z (List.mem_cons_of_mem y hz)
      obtain ⟨m, hm, heq⟩ := ih l.length (by rw [← hn]; simp) hl' rfl
      have hmem : ∀ z ∈ y :: m, z ∈ y :: l := by
        intro z hz
        rcases List.mem_cons.mp hz with rfl | hz
        · exact List.mem_cons_self
        · exact List.mem_cons_of_mem y (hm z hz)
      rcases hl y List.mem_cons_self with rfl | ⟨c, rfl, -, hclose⟩ | htag
      · refine ⟨hole :: m, hmem, fun w hw => ?_⟩
        rw [fillText_hole, fillText_hole, ← heq w hw]
        exact Whitespace.trimBreaksFrom_append_of_no_close hw.no_close (head?_fillText hl' hw)
      · refine ⟨.char c :: m, hmem, fun w hw => ?_⟩
        rw [fillText_char, fillText_char, ← heq w hw]
        exact Whitespace.trimBreaksFrom_cons fun _ => head?_fillText hl' hw
      · obtain ⟨d, hstep⟩ := htag.exists_trimBreaksFrom hon
        cases hbreak : (d.closeChar == '%' && (breakRest? l).isSome) with
        | false =>
          refine ⟨y :: m, hmem, fun w hw => ?_⟩
          rw [fillText_of_ne w htag.ne_hole, fillText_of_ne w htag.ne_hole, ← heq w hw,
            Whitespace.trimBreaks, hstep, breakFollows_fillText hon hw hl', hbreak]
          rfl
        | true =>
          obtain ⟨rest, hrest⟩ := Option.isSome_iff_exists.mp (by simpa using hbreak : _ ∧ _).2
          obtain ⟨hsuffix, hlength⟩ := breakRest?_suffix hrest
          obtain ⟨m', hm', heq'⟩ := ih rest.length
            (by rw [← hn]; simp only [List.length_cons]; omega)
            (fun z hz => hl' z (hsuffix.subset hz)) rfl
          refine ⟨y :: m', fun z hz => ?_, fun w hw => ?_⟩
          · rcases List.mem_cons.mp hz with rfl | hz
            · exact List.mem_cons_self
            · exact List.mem_cons_of_mem y (hsuffix.subset (hm' z hz))
          · rw [fillText_of_ne w htag.ne_hole, fillText_of_ne w htag.ne_hole, ← heq' w hw,
              Whitespace.trimBreaks, hstep, breakFollows_fillText hon hw hl', hbreak,
              trimBreaksFrom_breakRest hon hw hl' hrest]

/-- White space control of a filled list. -/
lemma exists_applyGlobal {options : WhitespaceOptions} {l : List Symbol}
    (hl : ∀ y ∈ l, Sealed options y) :
    ∃ m, (∀ y ∈ m, y ∈ l ∨ y = .char '\n') ∧
      ∀ w, Inert options w → Whitespace.applyGlobal options (fillText w l) = fillText w m := by
  by_cases hon : options = .disabled
  · subst hon
    exact ⟨l, fun y hy => .inl hy, fun _ _ => rfl⟩
  · have hstrip : ∃ m, (∀ y ∈ m, y ∈ l ∨ y = .char '\n') ∧ ∀ w, Inert options w →
        (if options.lstripBlocks then Whitespace.stripIndents (fillText w l) else fillText w l) =
          fillText w m := by
      cases options.lstripBlocks with
      | false => exact ⟨l, fun y hy => .inl hy, fun _ _ => rfl⟩
      | true =>
        refine ⟨_, fun y hy => ?_, fun w hw => stripIndents_fillText hon hw hl⟩
        rcases mem_intercalate hy with rfl | ⟨line, hline, hy⟩
        · exact .inr rfl
        · obtain ⟨part, hpart, rfl⟩ := List.mem_map.mp hline
          exact .inl (mem_of_mem_splitOn hpart (mem_of_mem_stripSymbols hy))
    obtain ⟨m, hm, heq⟩ := hstrip
    have hsealed : ∀ y ∈ m, Sealed options y := by
      intro y hy
      rcases hm y hy with hy | rfl
      · exact hl y hy
      · exact sealed_newline
    unfold Whitespace.applyGlobal
    cases options.trimBlocks with
    | false => exact ⟨m, hm, fun w hw => heq w hw⟩
    | true =>
      obtain ⟨m', hm', heq'⟩ := exists_trimBreaks hon hsealed
      refine ⟨m', fun y hy => hm y (hm' y hy), fun w hw => ?_⟩
      dsimp only
      rw [heq w hw]
      exact heq' w hw

end Stencil
