import Stencil.Proofs.Condition.Grammar
import Stencil.Proofs.Mention

/-! Quoted texts in conditions. Main statement: a text is compared as it stands between its quotes
just when none of the words between conditions stands in it, because such a word splits the
condition before its quotes are read. -/
namespace Stencil.Grammar
open Condition

/-- A comparison of a variable with a text in quotes. -/
def quotedTest (p : Variable) (b : Blank) (op : Comparison) (a : Blank) (q : Quote) (s : Text) :
    Text :=
  p.text ++ (b.text ++ op.symbol ++ a.text ++ q.wrap s)

/-- Comparisons with the text in quotes see the text as it is. -/
def Verbatim (s : Text) : Prop :=
  ∀ (p : Variable) (b a : Blank) (q : Quote) (vars : Fields),
    (conditionHolds (quotedTest p b .eq a q s) vars = true ↔
      vars.valueAt? p.text = some (.string s)) ∧
    (conditionHolds (quotedTest p b .ne a q s) vars = true ↔
      vars.valueAt? p.text ≠ some (.string s))

section Whole
variable {keyword : Text}

lemma isBare_and : ∀ c ∈ ("and".toList).head?, IsBare c :=
  fun c hc => isBare_of_isWordChar (by obtain rfl : 'a' = c := Option.some.inj hc; decide)

lemma isBare_or : ∀ c ∈ ("or".toList).head?, IsBare c :=
  fun c hc => isBare_of_isWordChar (by obtain rfl : 'o' = c := Option.some.inj hc; decide)

lemma standsIn_concat {s : Text} {d : Char} (hd : Text.isWhite d = false) :
    standsIn keyword (s ++ [d]) = standsIn keyword s := by
  rw [Bool.eq_iff_iff, standsIn_iff, standsIn_iff]
  constructor
  · rintro ⟨before, c, after, h, hc, hleads⟩
    obtain ⟨e, rest, rfl, he⟩ := leads_iff.mp hleads
    cases rest using List.reverseRecOn with
    | nil =>
      have hend : s ++ [d] = (before ++ c :: keyword) ++ [e] := by simpa using h
      obtain ⟨-, hde⟩ := List.append_inj' hend rfl
      simp_all
    | append_singleton rest f =>
      have hend : s ++ [d] = (before ++ c :: (keyword ++ e :: rest)) ++ [f] := by simpa using h
      obtain ⟨hs, -⟩ := List.append_inj' hend rfl
      exact ⟨before, c, _, hs, hc, leads_iff.mpr ⟨e, rest, rfl, he⟩⟩
  · rintro ⟨before, c, after, rfl, hc, hleads⟩
    obtain ⟨e, rest, rfl, he⟩ := leads_iff.mp hleads
    exact ⟨before, c, keyword ++ e :: (rest ++ [d]), by simp, hc, leads_iff.mpr ⟨e, _, rfl, he⟩⟩

/-- A keyword with a blank before it is no operator and no quote. -/
lemma standsIn_blank_cons (hkeyword : Text.IsWord keyword) {c : Char}
    (hc : keyword.head? ≠ some c) (b : Blank) (s : Text) :
    standsIn keyword (b.text ++ c :: s) = standsIn keyword (c :: s) := by
  have hleads : leads keyword (c :: s) = false := by
    rw [Bool.eq_false_iff]
    exact fun h => hc (head?_of_leads hkeyword h).symm
  rw [standsIn_blank_append hkeyword b.white, hleads]
  simp

lemma standsIn_quotedTest (hkeyword : Text.IsWord keyword)
    (hbare : ∀ c ∈ keyword.head?, IsBare c) (p : Variable) (b : Blank) (op : Comparison) (a : Blank)
    (q : Quote) (s : Text) :
    standsIn keyword (quotedTest p b op a q s) = standsIn keyword s := by
  obtain ⟨c, symbol, hsymbol⟩ := List.exists_cons_of_ne_nil op.symbol_ne_nil
  have hsolid : ∀ d ∈ op.symbol, Text.isWhite d = false := fun _ h =>
    Comparison.isWhite_of_isOperatorChar (Comparison.isOperatorChar_of_mem h)
  have hmem : c ∈ op.symbol := by simp [hsymbol]
  have hc : keyword.head? ≠ some c := by
    intro h
    have := (hbare c h).2.1
    rw [Comparison.isOperatorChar_of_mem hmem] at this
    cases this
  have hq : keyword.head? ≠ some q.char := fun h => (hbare _ h).2.2 q rfl
  calc standsIn keyword (quotedTest p b op a q s)
      = standsIn keyword (b.text ++ c :: (symbol ++ (a.text ++ q.wrap s))) := by
        rw [quotedTest, standsIn_solid_append p.isWord.2, hsymbol]
        simp
    _ = standsIn keyword (op.symbol ++ (a.text ++ q.wrap s)) := by
        rw [standsIn_blank_cons hkeyword hc, hsymbol]
        rfl
    _ = standsIn keyword (a.text ++ q.char :: (s ++ [q.char])) := by
        rw [standsIn_solid_append hsolid]
        rfl
    _ = standsIn keyword ([q.char] ++ (s ++ [q.char])) := standsIn_blank_cons hkeyword hq a _
    _ = standsIn keyword s := by
        rw [standsIn_solid_append (by simpa using q.isWhite_char), standsIn_concat q.isWhite_char]

lemma isTrimmed_quotedTest (p : Variable) (b : Blank) (op : Comparison) (a : Blank) (q : Quote)
    (s : Text) : Text.IsTrimmed (quotedTest p b op a q s) := by
  have := p.isWord.isTrimmed.append p.ne_nil (q.isTrimmed_wrap s) (by simp [Quote.wrap])
    (b.text ++ op.symbol ++ a.text)
  simpa [quotedTest] using this

/-- Where no keyword stands in the quotes, the comparison is one atom. -/
lemma conditionHolds_quotedTest (p : Variable) (b : Blank) (op : Comparison) (a : Blank) (q : Quote)
    {s : Text} (hand : standsIn "and".toList s = false) (hor : standsIn "or".toList s = false)
    (vars : Fields) :
    conditionHolds (quotedTest p b op a q s) vars =
      op.holds (vars.valueAt? p.text) (some (.string s)) := by
  have hnone (kind : Test) : splitTest? kind.word (quotedTest p b op a q s) = none := by
    have hlast : (quotedTest p b op a q s).getLast? = some q.char := by
      rw [quotedTest, Quote.wrap, ← List.append_assoc, ← List.append_assoc]
      exact List.getLast?_concat
    refine splitTest?_of_getLast ?_ (by cases kind <;> simp)
    rw [hlast]
    cases kind <;> cases q <;> decide
  have hright : IsRightSide (q.wrap s) :=
    ⟨q.isTrimmed_wrap s, by simp [Quote.wrap], by cases q <;> simp [Quote.wrap, Quote.char]⟩
  have hparse := parse_atom (isTrimmed_quotedTest p b op a q s)
    (splitKeyword?_eq_none (by rw [standsIn_quotedTest isWord_and isBare_and, hand]))
    (splitKeyword?_eq_none (by rw [standsIn_quotedTest isWord_or isBare_or, hor]))
  rw [conditionHolds, hparse, quotedTest, parseAtom_comparison p.isWord
    (fun c hc => (p.isBare hc).2.1) b op a hright (hnone .defined) (hnone .empty), holds,
    p.operand?_text, Literal.operand?, Literal.scalar?_wrap]

lemma strictEq_string {v : Option Value} {s : Text} :
    Value.strictEq v (some (.string s)) = true ↔ v = some (.string s) := by
  cases v with
  | none => simp [Value.strictEq]
  | some v => cases v <;> simp [Value.strictEq, Value.same]

lemma verbatim_of_standsIn {s : Text} (hand : standsIn "and".toList s = false)
    (hor : standsIn "or".toList s = false) : Verbatim s := by
  intro p b a q vars
  rw [conditionHolds_quotedTest p b .eq a q hand hor,
    conditionHolds_quotedTest p b .ne a q hand hor]
  constructor
  · exact strictEq_string
  · rw [Comparison.holds, Bool.not_eq_true', Ne, ← strictEq_string, Bool.not_eq_true]

end Whole

section Avoids
variable {s x path : Text}

lemma eq_or_append_of_head?_splitOn (h : (path.splitOn '.').head? = some x) :
    path = x ∨ ∃ rest, path = x ++ '.' :: rest := by
  have hpath : ['.'].intercalate (path.splitOn '.') = path := List.intercalate_splitOn '.'
  obtain ⟨segments, hsegments⟩ := List.head?_eq_some_iff.mp h
  rw [hsegments] at hpath
  cases segments with
  | nil => exact .inl (by simpa [List.intercalate] using hpath.symm)
  | cons y segments =>
    rw [List.intercalate_cons_cons] at hpath
    exact .inr ⟨['.'].intercalate (y :: segments), by rw [← hpath]; simp⟩

lemma avoids_of_length (h : path.length < x.length) : path.avoids x = true := by
  rw [Text.avoids, decide_eq_true_iff]
  intro hhead
  rcases eq_or_append_of_head?_splitOn hhead with rfl | ⟨rest, rfl⟩
  · exact lt_irrefl _ h
  · simp only [List.length_append] at h
    omega

lemma length_of_operatorAt? {op : Comparison} {r : Text} (h : operatorAt? s = some (op, r)) :
    r.length ≤ s.length := by
  obtain ⟨rest, hrest, rfl⟩ := exists_of_operatorAt? h
  have htrim := Text.length_trim_le rest
  have hback := congrArg List.length hrest
  have hstart := Text.length_trimStart_le s
  rw [List.length_append] at hback
  omega

lemma length_of_splitComparison? {l r : Text} {op : Comparison}
    (h : splitComparison? s = some (l, op, r)) : l.length ≤ s.length ∧ r.length ≤ s.length := by
  obtain ⟨rest, rfl, hrest⟩ := exists_of_splitComparison? h
  have := length_of_operatorAt? hrest
  rw [List.length_append]
  omega

lemma length_of_splitTest? {test : Text} {negated : Bool}
    (h : splitTest? test s = some (path, negated)) : path.length ≤ s.length := by
  obtain ⟨g, negation, last, rfl, -⟩ := exists_of_splitTest? h
  simp only [List.length_append]
  omega

lemma avoids_parseAtom (h : s.length < x.length) : (parseAtom s).avoids x = true := by
  rw [parseAtom]
  split
  · rename_i hsplit
    exact avoids_of_length ((length_of_splitTest? hsplit).trans_lt h)
  · split
    · rename_i hsplit
      exact avoids_of_length ((length_of_splitTest? hsplit).trans_lt h)
    · split
      · rename_i l op r hsplit
        obtain ⟨hl, hr⟩ := length_of_splitComparison? hsplit
        have hl' := (Text.length_trim_le l).trans hl
        rw [avoids, avoids_of_length (hl'.trans_lt h), avoids_of_length (hr.trans_lt h)]
        rfl
      · split_ifs
        · rfl
        · rfl
        · exact avoids_of_length h
        · rfl

/-- A text that is shorter than a variable's name does not mention it. -/
lemma avoids_parse (s : Text) (h : s.length < x.length) : (parse s).avoids x = true := by
  induction s using parse_induction with
  | joined keyword s l r hsplit hparse ihl ihr =>
    obtain ⟨hl, hr⟩ := length_of_splitKeyword?_trim hsplit
    exact avoids_of_joined hparse (ihl (hl.trans h)) (ihr (hr.trans h))
  | atom s _ _ hparse =>
    rw [hparse]
    exact avoids_parseAtom ((Text.length_trim_le s).trans_lt h)

end Avoids

section Torn

lemma valueAt?_nil (path : Text) : Fields.valueAt? [] path = none := by
  rw [Fields.valueAt?]
  split
  · rfl
  · rw [Entries.get?]
    exact List.foldl_fixed' (fun _ => rfl) _

/-- A comparison of a variable with a text behind a quote. -/
def openTest (p : Variable) (q : Quote) (u : Text) : Text :=
  p.text ++ Comparison.eq.symbol ++ [q.char] ++ u

/-- The context in which the variable is the only one. -/
def alone (p : Variable) (v : Value) : Fields := [(p.text, v)]

variable {p : Variable} {q : Quote} {u : Text} {v v' : Value}

lemma agreeOff_alone : AgreeOff p.text (alone p v) (alone p v') := by
  intro key hkey
  simp [alone, Entries.get?, hkey.symm]

/-- What a keyword splits off at the left of such a comparison is one again. -/
lemma exists_of_openTest_eq {l rest : Text} {g : Gap} (h : openTest p q u = l ++ g.text ++ rest) :
    ∃ u', l = openTest p q u' ∧ u = u' ++ g.text ++ rest := by
  rw [openTest, List.append_assoc l] at h
  rcases List.append_eq_append_iff.mp h with ⟨x, hx, hu⟩ | ⟨x, hx, hu⟩
  · exact ⟨x, hx, by rw [hu]; simp⟩
  · cases x with
    | nil => exact ⟨[], by rw [openTest, hx]; simp, by rw [List.nil_append] at hu; simp [← hu]⟩
    | cons c x =>
      -- the white space of the gap would stand before the quote
      exfalso
      obtain ⟨d, g', hg, hd⟩ := g.exists_cons
      obtain rfl : d = c := by
        rw [hg] at hu
        simpa using congrArg List.head? hu
      have hmem : d ∈ p.text ++ Comparison.eq.symbol ++ [q.char] := by rw [hx]; simp
      rw [List.mem_append, List.mem_append, List.mem_singleton] at hmem
      rcases hmem with (hmem | hmem) | rfl
      · rw [(p.isBare hmem).1] at hd
        cases hd
      · rw [Comparison.isWhite_of_isOperatorChar (Comparison.isOperatorChar_of_mem hmem)] at hd
        cases hd
      · rw [q.isWhite_char] at hd
        cases hd

lemma avoids_append {c : Char} (hc : c ≠ '.') (rest : Text) :
    (p.text ++ c :: rest).avoids p.text = true := by
  rw [Text.avoids, decide_eq_true_iff]
  intro hhead
  rcases eq_or_append_of_head?_splitOn hhead with h | ⟨rest', h⟩
  · simp at h
  · have := List.append_cancel_left h
    simp_all

/-- An open quote is the empty text or nothing. -/
lemma strictEq_open (hu : ∀ k : Quote, k.char ∉ u) (hv : v ≠ .string []) :
    Value.strictEq (some v) (Literal.operand? (q.char :: u) (alone p v)) = false := by
  by_cases hne : u = []
  · have hscalar : Literal.scalar? (q.char :: u) = some (.string []) := by
      rw [hne]
      cases q <;> rfl
    rw [Literal.operand?, hscalar, Bool.eq_false_iff, Ne, strictEq_string]
    exact fun h => hv (Option.some.inj h)
  · have hscalar : Literal.scalar? (q.char :: u) = none := by
      refine Literal.scalar?_eq_none (Literal.unquote?_cons_eq_none hne (hu q)) (fun n hn => ?_) ?_
      · have := n.mem_text (c := q.char) (by simp [hn])
        cases q <;> revert this <;> decide
      · cases q <;> simp [Quote.char]
    have havoids : Text.avoids (q.char :: u) p.text = true := by
      have hhead : p.text.head? ≠ some q.char := fun h =>
        (p.isBare (List.mem_of_mem_head? h)).2.2 q rfl
      rw [Text.avoids, decide_eq_true_iff]
      intro h
      rcases eq_or_append_of_head?_splitOn h with h | ⟨rest, h⟩
      · exact hhead (by rw [← h]; rfl)
      · rw [← List.head?_append_of_ne_nil p.text p.ne_nil, ← h] at hhead
        exact hhead rfl
    have hvalue := ignores_valueAt? havoids (alone p v) [] fun key hkey => by
      simp [alone, Entries.get?, hkey.symm]
    dsimp only at hvalue
    simp [Literal.operand?, hscalar, hvalue, valueAt?_nil, Value.strictEq]

variable (hp : '.' ∉ p.text)
include hp

lemma valueAt?_alone : (alone p v).valueAt? p.text = some v := by
  rw [Fields.valueAt?, List.splitOn_eq_singleton hp]
  simp [alone, Entries.get?]

omit hp in
lemma isTrimmed_open (hlast : ∀ c ∈ u.getLast?, Text.isWhite c = false) :
    Text.IsTrimmed (q.char :: u) := by
  constructor
  · intro c hc
    obtain rfl : q.char = c := Option.some.inj hc
    exact q.isWhite_char
  · intro c hc
    rw [List.getLast?_cons, Option.mem_some_iff] at hc
    cases hu : u.getLast? with
    | none =>
      rw [hu, Option.getD_none] at hc
      exact hc ▸ q.isWhite_char
    | some d =>
      rw [hu, Option.getD_some] at hc
      exact hlast c (hc ▸ hu)

omit hp in
lemma isTrimmed_openTest (hlast : ∀ c ∈ u.getLast?, Text.isWhite c = false) :
    Text.IsTrimmed (openTest p q u) := by
  have := p.isWord.isTrimmed.append p.ne_nil (isTrimmed_open (q := q) hlast) (by simp)
    Comparison.eq.symbol
  simpa [openTest] using this

omit hp in
lemma splitTest?_openTest {path test : Text} {negated : Bool}
    (h : splitTest? test (openTest p q u) = some (path, negated)) : path.avoids p.text = true := by
  obtain ⟨g, negation, last, hs, -⟩ := exists_of_splitTest? h
  have hgap : openTest p q u = path ++ g.text ++
      ("is".toList ++ (negation.elim [] fun n => n.text ++ "not".toList) ++ last.text ++ test) := by
    rw [hs]
    simp
  obtain ⟨u', rfl, -⟩ := exists_of_openTest_eq hgap
  have := avoids_append (p := p) (by decide : '=' ≠ '.') ('=' :: q.char :: u')
  simpa [openTest, Comparison.symbol] using this

/-- An atom with an open quote tells no two values of its variable apart. -/
lemma holds_parseAtom_openTest (hu : ∀ k : Quote, k.char ∉ u)
    (hlast : ∀ c ∈ u.getLast?, Text.isWhite c = false) (hv : v ≠ .string [])
    (hv' : v' ≠ .string []) :
    (parseAtom (openTest p q u)).holds (alone p v) =
      (parseAtom (openTest p q u)).holds (alone p v') := by
  have htest {test path : Text} {negated : Bool}
      (h : splitTest? test (openTest p q u) = some (path, negated)) :
      (alone p v).valueAt? path = (alone p v').valueAt? path :=
    ignores_valueAt? (splitTest?_openTest h) _ _ agreeOff_alone
  have hright : IsRightSide (q.char :: u) :=
    ⟨isTrimmed_open hlast, by simp, by cases q <;> simp [Quote.char]⟩
  have hcompare : splitComparison? (openTest p q u) = some (p.text, .eq, q.char :: u) := by
    have := splitComparison?_append p.isWord (fun c hc => (p.isBare hc).2.1) .none .eq .none hright
    simpa [openTest, Blank.none] using this
  rw [parseAtom]
  split
  · rename_i hsplit
    rw [holds, holds, htest hsplit]
  · split
    · rename_i hsplit
      rw [holds, holds, htest hsplit]
    · simp only [hcompare, p.isWord.isTrimmed.trim_eq, holds, p.operand?_text, valueAt?_alone hp,
        Comparison.holds, strictEq_open hu hv, strictEq_open hu hv']

omit hp in
lemma exists_of_splitKeyword?_openTest {keyword l r : Text}
    (h : splitKeyword? keyword (openTest p q u) = some (l, r)) :
    ∃ u', l = openTest p q u' ∧ u' <+: u ∧ u'.length < u.length ∧ r.length < u.length := by
  obtain ⟨g, g', hs⟩ := exists_of_splitKeyword? h
  have hgap : openTest p q u = l ++ g.text ++ (keyword ++ g'.text ++ r) := by
    rw [hs]
    simp
  obtain ⟨u', hl, rfl⟩ := exists_of_openTest_eq hgap
  have := List.length_pos_iff.mpr g.nonempty
  refine ⟨u', hl, by simp, ?_, ?_⟩ <;> simp only [List.length_append] <;> omega

omit hp in
lemma trim_openTest (u : Text) : (openTest p q u).trim = openTest p q u.trimEnd := by
  obtain ⟨b, hb⟩ := u.exists_trimEnd_append
  have hwhole : openTest p q u = openTest p q u.trimEnd ++ b.text := by
    rw [openTest, openTest, List.append_assoc _ u.trimEnd, ← hb]
  rw [hwhole]
  exact Text.trim_between (isTrimmed_openTest (Text.getLast?_trimEnd u)) .none b

/-- Nor does a condition that starts with such an atom and mentions the variable nowhere else. -/
lemma holds_parse_openTest (hu : ∀ k : Quote, k.char ∉ u) (hlen : u.length ≤ p.text.length)
    (hv : v ≠ .string []) (hv' : v' ≠ .string []) :
    (parse (openTest p q u)).holds (alone p v) = (parse (openTest p q u)).holds (alone p v') := by
  induction hs : openTest p q u using parse_induction generalizing u with
  | joined keyword s l r hsplit hparse ihl _ =>
    subst hs
    rw [trim_openTest] at hsplit
    obtain ⟨u', rfl, hfront, hlt, hr⟩ := exists_of_splitKeyword?_openTest hsplit
    have hu' := hfront.trans u.trimEnd_prefix
    have hle := u.trimEnd_prefix.length_le
    refine holds_congr_of_joined hparse
      (ihl (fun k hk => hu k (hu'.subset hk)) (by omega) rfl) ?_
    exact ignores_holds (avoids_parse r (by omega)) _ _ agreeOff_alone
  | atom s _ _ hparse =>
    subst hs
    rw [hparse, trim_openTest]
    exact holds_parseAtom_openTest hp (fun k hk => hu k (u.trimEnd_prefix.subset hk))
      (Text.getLast?_trimEnd u) hv hv'

end Torn

section Long

/-- A name of more than `n` characters. -/
def longName (n : ℕ) : Variable where
  text := 'p' :: List.replicate n 'p'
  simple := by simp [Text.isSimplePath, Text.isWordOf, show Text.isWordChar 'p' = true by decide]
  ne_and := by simp
  ne_or := by simp
  ne_true := by simp
  ne_false := by simp
  ne_null := by simp
  ne_numeral k h := by
    have := k.mem_text (c := 'p') (by simp [h])
    revert this
    decide

lemma quotedTest_eq_openTest (p : Variable) (q : Quote) (s : Text) :
    quotedTest p .none .eq .none q s = openTest p q (s ++ [q.char]) := by
  simp [quotedTest, openTest, Quote.wrap, Blank.none]

/-- A side of a comparison whose quoted text is split does not tell that text from null. -/
lemma holds_quotedTest_side {s : Text} (hs : ∀ q : Quote, q.char ∉ s) (hne : s ≠ []) (q : Quote)
    {keyword l r : Text}
    (h : splitKeyword? keyword (quotedTest (longName s.length) .none .eq .none q s) =
      some (l, r)) :
    (parse l).holds (alone (longName s.length) (.string s)) =
        (parse l).holds (alone (longName s.length) .null) ∧
      (parse r).holds (alone (longName s.length) (.string s)) =
        (parse r).holds (alone (longName s.length) .null) := by
  rw [quotedTest_eq_openTest] at h
  obtain ⟨u, rfl, hfront, hlt, hr⟩ := exists_of_splitKeyword?_openTest h
  have hlen : (longName s.length).text.length = s.length + 1 := by simp [longName]
  rw [List.length_append, List.length_singleton] at hlt hr
  have hu : u <+: s :=
    List.prefix_of_prefix_length_le hfront (List.prefix_append s _) (by omega)
  refine ⟨holds_parse_openTest (by simp [longName]) (fun k hk => hs k (hu.subset hk)) (by omega)
    (by simpa using hne) (by simp), ?_⟩
  exact ignores_holds (avoids_parse r (by omega)) _ _ agreeOff_alone

/-- A text in which `and` or `or` stands is not told from null by a variable with a long name. -/
lemma holds_quotedTest_longName {s : Text} (hs : ∀ q : Quote, q.char ∉ s) (q : Quote)
    (h : standsIn "and".toList s = true ∨ standsIn "or".toList s = true) :
    conditionHolds (quotedTest (longName s.length) .none .eq .none q s)
        (alone (longName s.length) (.string s)) =
      conditionHolds (quotedTest (longName s.length) .none .eq .none q s)
        (alone (longName s.length) .null) := by
  have hne : s ≠ [] := by
    rintro rfl
    rcases h with h | h <;> cases h
  have htrimmed := isTrimmed_quotedTest (longName s.length) .none .eq .none q s
  have hstands {keyword : Text} (hkeyword : Text.IsWord keyword)
      (hbare : ∀ c ∈ keyword.head?, IsBare c) (h : standsIn keyword s = true)
      (hnone : splitKeyword? keyword (quotedTest (longName s.length) .none .eq .none q s) = none) :
      False := by
    have := splitKeyword?_isSome hkeyword htrimmed
      (by rw [standsIn_quotedTest hkeyword hbare, h])
    rw [hnone] at this
    cases this
  rw [conditionHolds, conditionHolds]
  cases hs' : quotedTest (longName s.length) .none .eq .none q s using parse_induction with
  | joined keyword t l r hsplit hparse _ _ =>
    rw [← hs', htrimmed.trim_eq] at hsplit
    have hsides := holds_quotedTest_side hs hne q hsplit
    exact holds_congr_of_joined hparse hsides.1 hsides.2
  | atom t hand hor _ =>
    rw [← hs', htrimmed.trim_eq] at hand hor
    rcases h with h | h
    · exact (hstands isWord_and isBare_and h hand).elim
    · exact (hstands isWord_or isBare_or h hor).elim

lemma standsIn_of_verbatim {s : Text} (hs : ∀ q : Quote, q.char ∉ s) (h : Verbatim s) :
    standsIn "and".toList s = false ∧ standsIn "or".toList s = false := by
  have hp : '.' ∉ (longName s.length).text := by simp [longName]
  have htrue := (h (longName s.length) .none .none .single _).1.mpr (valueAt?_alone hp)
  have hnull := (h (longName s.length) .none .none .single (alone (longName s.length) .null)).1
  rw [valueAt?_alone hp] at hnull
  rw [← Bool.not_eq_true, ← Bool.not_eq_true, ← not_or]
  intro hstands
  rw [holds_quotedTest_longName hs .single hstands] at htrue
  cases Option.some.inj (hnull.mp htrue)

end Long

/-- A text without quotes is compared as it is just when neither `and` nor `or` stands in it. -/
theorem verbatim_iff {s : Text} (hs : ∀ q : Quote, q.char ∉ s) :
    Verbatim s ↔ standsIn "and".toList s = false ∧ standsIn "or".toList s = false :=
  ⟨standsIn_of_verbatim hs, fun h => verbatim_of_standsIn h.1 h.2⟩

theorem verbatim_operators : Verbatim "android >= oracle is not empty".toList :=
  (verbatim_iff fun q => by cases q <;> decide).mpr ⟨by decide, by decide⟩

/-- The title is the text in the quotes, and yet the two sides of `and` are read as conditions. -/
theorem conditionHolds_rockAndRoll :
    conditionHolds "title == 'rock and roll'".toList
      [("title".toList, .string "rock and roll".toList)] = false := by
  have hsplit : splitKeyword? "and".toList "title == 'rock and roll'".toList =
      some ("title == 'rock".toList, "roll'".toList) := by decide
  have hright : parse "roll'".toList = .constant false := by
    rw [parse_atom (Text.isTrimmed_of_trim_eq (by decide)) (by decide) (by decide)]
    rfl
  rw [conditionHolds, parse_both (Text.isTrimmed_of_trim_eq (by decide)) hsplit, hright, holds,
    holds, Bool.and_false]

end Stencil.Grammar
