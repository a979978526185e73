import Stencil.Outline
import Stencil.Proofs.Brackets
import Stencil.Proofs.TokenStream

/-! The constructs of a text by their tokens. Every matched pair of tokens is a construct of the
outline with its span and the span of its body, and two constructs of one kind lie apart or one
lies in the body of the other. -/
namespace Stencil

lemma Symbol.exists_of_tag? {y : Symbol} (h : y.tag?.isSome = true) :
    ∃ t written, y = .tag t written := by
  cases y with
  | char c => cases h
  | tag t written => exact ⟨t, written, rfl⟩

namespace Token

/-- The byte behind the token. -/
def stop (t : Token) : ℕ := t.start + t.length

/-- The token as a symbol, of which only the tag counts. -/
def symbol (t : Token) : Symbol := .tag t.tag []

/-- The token of a symbol that stands at the given byte and line. -/
def ofSymbol (start line : ℕ) (y : Symbol) : Token :=
  ⟨y.tag?.getD .other, start, y.text.byteSize, line⟩

lemma locate_append (start line : ℕ) (l m : List Symbol) :
    locate start line (l ++ m) = locate start line l ++
      locate (start + (Symbol.textOf l).byteSize) (line + (Symbol.textOf l).count '\n') m := by
  induction l generalizing start line with
  | nil => rfl
  | cons y l ih =>
    rw [Symbol.textOf_cons, Text.byteSize_append, List.count_append, ← Nat.add_assoc,
      ← Nat.add_assoc]
    cases y with
    | char c =>
      have hchar (l : List Symbol) := locate_map_char start line [c] l
      simp only [List.map_cons, List.map_nil, List.singleton_append] at hchar
      rw [List.cons_append, hchar, hchar, ih]
      rfl
    | tag t written =>
      rw [List.cons_append, locate, locate, ih]
      rfl

lemma locate_cons {y : Symbol} (h : y.tag?.isSome = true) (start line : ℕ) (l : List Symbol) :
    locate start line (y :: l) = ofSymbol start line y ::
      locate (start + y.text.byteSize) (line + y.text.count '\n') l := by
  obtain ⟨t, written, rfl⟩ := Symbol.exists_of_tag? h
  rfl

end Token

/-- The tags among symbols, without the text that they were written as. -/
def bare (l : List Symbol) : List Symbol := l.filterMap fun y => y.tag?.map fun t => .tag t []

@[simp] lemma bare_char (c : Char) (l : List Symbol) : bare (.char c :: l) = bare l := rfl

@[simp] lemma bare_tag (t : Tag) (written : Text) (l : List Symbol) :
    bare (.tag t written :: l) = .tag t [] :: bare l := rfl

lemma bare_append (l m : List Symbol) : bare (l ++ m) = bare l ++ bare m := List.filterMap_append

lemma length_bare (l : List Symbol) : (bare l).length = Outline.tagCount l := by
  induction l with
  | nil => rfl
  | cons y l ih =>
    cases y with
    | char c =>
      rw [bare_char, ih, Outline.tagCount, Outline.tagCount,
        List.countP_cons_of_neg (by simp [Symbol.tag?])]
    | tag t written =>
      rw [bare_tag, List.length_cons, ih, Outline.tagCount, Outline.tagCount,
        List.countP_cons_of_pos rfl]

lemma map_symbol_locate (start line : ℕ) (l : List Symbol) :
    (Token.locate start line l).map Token.symbol = bare l := by
  induction l generalizing start line with
  | nil => rfl
  | cons y l ih =>
    cases y with
    | char c => exact ih _ _
    | tag t written =>
      rw [Token.locate, List.map_cons, ih]
      rfl

lemma length_locate (start line : ℕ) (l : List Symbol) :
    (Token.locate start line l).length = Outline.tagCount l := by
  rw [← length_bare, ← map_symbol_locate start line, List.length_map]

lemma Pair.opens_tag (p : Pair) (t : Tag) (a b : Text) :
    p.opens (.tag t a) = p.opens (.tag t b) := by
  cases t <;> rfl

lemma Pair.closes_tag (p : Pair) (t : Tag) (a b : Text) :
    p.closes (.tag t a) = p.closes (.tag t b) := by
  cases t <;> rfl

lemma Pair.tag?_of_opens {p : Pair} {y : Symbol} (h : p.opens y = true) : y.tag?.isSome = true := by
  cases y with
  | char c => cases h
  | tag t written => rfl

lemma Pair.tag?_of_closes {p : Pair} {y : Symbol} (h : p.closes y = true) :
    y.tag?.isSome = true := by
  cases y with
  | char c => cases h
  | tag t written => rfl

section
variable {p : Pair}

lemma Descends.bare {depth : ℕ} {l : List Symbol} (h : Descends p depth l) :
    Descends p depth (bare l) := by
  induction h with
  | nil => exact .nil
  | @opener _ y _ hopen _ ih =>
    cases y with
    | char c => cases hopen
    | tag t written => exact .opener (p.opens_tag t [] written ▸ hopen) ih
  | @closer _ y _ hclose _ ih =>
    cases y with
    | char c => cases hclose
    | tag t written => exact .closer (p.closes_tag t [] written ▸ hclose) ih
  | @neutral _ y _ hopen hclose _ ih =>
    cases y with
    | char c => exact ih
    | tag t written =>
      exact .neutral (p.opens_tag t [] written ▸ hopen) (p.closes_tag t [] written ▸ hclose) ih

lemma surplus_bare (l : List Symbol) : surplus p (bare l) = surplus p l := by
  induction l with
  | nil => rfl
  | cons y l ih =>
    cases y with
    | char c => exact ih
    | tag t written =>
      rw [bare_tag, surplus, surplus, ih, p.opens_tag t [] written, p.closes_tag t [] written]

/-- The walk to a closer goes from tag to tag. -/
lemma splitClose?_bare (l : List Symbol) :
    (splitClose? p 0 (bare l)).map (fun found => found.1.length) =
      (splitClose? p 0 l).map fun found => Outline.tagCount found.1 := by
  cases hfound : splitClose? p 0 l with
  | none =>
    have hsome := isSome_splitClose? p 0 l
    rw [hfound, ← surplus_bare, ← isSome_splitClose?] at hsome
    have hnone : splitClose? p 0 (bare l) = none := by simpa using hsome.symm
    rw [hnone]
    rfl
  | some found =>
    obtain ⟨body, closer, after⟩ := found
    obtain ⟨rfl, hclose⟩ := eq_append_of_splitClose? hfound
    cases closer with
    | char c => cases hclose
    | tag t written =>
      have hbody := (descends_of_splitClose? hfound).bare
      rw [p.closes_tag t written []] at hclose
      rw [bare_append, bare_tag, hbody.splitClose?_eq hclose]
      exact congrArg some (length_bare body)

end

/-- An opening token and the token that closes it. -/
structure TokenPair where
  opener : Token
  closer : Token

namespace TokenPair

def whole (x : TokenPair) : Span := ⟨x.opener.start, x.closer.stop⟩

def body (x : TokenPair) : Span := ⟨x.opener.stop, x.closer.start⟩

/-- The spans of the construct, under its name if it is a block. -/
def span (x : TokenPair) : BlockSpan := ⟨Outline.blockName x.opener.symbol, x.whole, x.body⟩

/-- The tokens of a construct that stands at the given byte and line. -/
def ofConstruct (start line : ℕ) (c : Construct) : TokenPair :=
  let front := c.opener.text ++ Symbol.textOf c.body
  ⟨.ofSymbol start line c.opener,
    .ofSymbol (start + front.byteSize) (line + front.count '\n') c.closer⟩

section
variable (start line : ℕ) (c : Construct)

@[simp] lemma opener_stop_ofConstruct :
    (ofConstruct start line c).opener.stop = start + c.opener.text.byteSize := rfl

@[simp] lemma closer_start_ofConstruct : (ofConstruct start line c).closer.start =
    start + c.opener.text.byteSize + (Symbol.textOf c.body).byteSize := by
  simp [ofConstruct, Token.ofSymbol, Nat.add_assoc]

@[simp] lemma closer_stop_ofConstruct : (ofConstruct start line c).closer.stop =
    start + c.opener.text.byteSize + (Symbol.textOf c.body).byteSize + c.closer.text.byteSize := by
  rw [Token.stop, closer_start_ofConstruct]
  rfl

lemma whole_ofConstruct : (ofConstruct start line c).whole = Outline.wholeSpan start c := by
  refine congrArg (Span.mk start) ?_
  simp [Outline.byteSize_eq, Construct.symbols, Nat.add_assoc]

lemma body_ofConstruct : (ofConstruct start line c).body = ⟨start + c.opener.text.byteSize,
    start + c.opener.text.byteSize + Outline.byteSize c.body⟩ := by
  simp [body, Outline.byteSize_eq]

lemma span_ofConstruct : (ofConstruct start line c).span = Outline.blockSpan start c := by
  have hname : Outline.blockName (Token.ofSymbol start line c.opener).symbol =
      Outline.blockName c.opener := by
    cases c.opener with
    | char c => rfl
    | tag t written => cases t <;> rfl
  rw [span, whole_ofConstruct, body_ofConstruct]
  exact congrArg (BlockSpan.mk · _ _) hname

end
end TokenPair

/-- The construct that the token numbered `i` opens, if it opens one that is closed. -/
def matchedAt? (p : Pair) (ts : List Token) (i : ℕ) : Option TokenPair :=
  ts[i]?.bind fun opener =>
    (if p.opens opener.symbol then closerAt? p (ts.map Token.symbol) i else none).bind fun j =>
      ts[j]?.map fun closer => ⟨opener, closer⟩

/-- All matched constructs of one kind, in the order of their openers. -/
def matched (p : Pair) (ts : List Token) : List TokenPair :=
  (List.range ts.length).filterMap (matchedAt? p ts)

section
variable {p : Pair}

lemma closerAt?_cons_succ (y : Symbol) (l : List Symbol) (i : ℕ) :
    closerAt? p (y :: l) (i + 1) = (closerAt? p l i).map (· + 1) := by
  rw [closerAt?, closerAt?, Option.map_map, List.drop_succ_cons]
  congr 1
  funext found
  simp only [Function.comp_apply]
  omega

lemma matchedAt?_cons_succ (t : Token) (ts : List Token) (i : ℕ) :
    matchedAt? p (t :: ts) (i + 1) = matchedAt? p ts i := by
  unfold matchedAt?
  rw [List.map_cons, closerAt?_cons_succ, List.getElem?_cons_succ]
  congr 1
  funext opener
  split
  · cases closerAt? p (ts.map Token.symbol) i <;> rfl
  · rfl

lemma matched_cons (t : Token) (ts : List Token) :
    matched p (t :: ts) = (matchedAt? p (t :: ts) 0).toList ++ matched p ts := by
  rw [matched, List.length_cons, List.range_succ_eq_map, List.filterMap_cons, List.filterMap_map]
  have htail : matchedAt? p (t :: ts) ∘ Nat.succ = matchedAt? p ts := by
    funext i
    exact matchedAt?_cons_succ t ts i
  rw [htail]
  cases matchedAt? p (t :: ts) 0 <;> rfl


lemma opens_ofSymbol {y : Symbol} (h : y.tag?.isSome = true) (start line : ℕ) :
    p.opens (Token.ofSymbol start line y).symbol = p.opens y := by
  obtain ⟨t, written, rfl⟩ := Symbol.exists_of_tag? h
  exact p.opens_tag t [] written

lemma closes_ofSymbol {y : Symbol} (h : y.tag?.isSome = true) (start line : ℕ) :
    p.closes (Token.ofSymbol start line y).symbol = p.closes y := by
  obtain ⟨t, written, rfl⟩ := Symbol.exists_of_tag? h
  exact p.closes_tag t [] written

/-- The construct that a symbol opens in front of others, by its tokens. -/
def pairAt? (p : Pair) (start line : ℕ) (y : Symbol) (rest : List Symbol) : Option TokenPair :=
  (if p.opens y then splitClose? p 0 rest else none).map fun (body, closer, _) =>
    .ofConstruct start line ⟨y, body, closer⟩

lemma matchedAt?_zero {y : Symbol} (h : y.tag?.isSome = true) (start line : ℕ)
    (rest : List Symbol) :
    matchedAt? p (Token.locate start line (y :: rest)) 0 = pairAt? p start line y rest := by
  have hcloser : closerAt? p (bare (y :: rest)) 0 =
      (splitClose? p 0 rest).map fun found => 1 + Outline.tagCount found.1 := by
    have hbare : (bare (y :: rest)).drop 1 = bare rest := by
      cases y with
      | char c => cases h
      | tag t written => rfl
    rw [closerAt?, Nat.zero_add, hbare]
    have := congrArg (Option.map (1 + ·)) (splitClose?_bare (p := p) rest)
    rwa [Option.map_map, Option.map_map] at this
  unfold matchedAt? pairAt?
  rw [map_symbol_locate, hcloser, Token.locate_cons h, List.getElem?_cons_zero]
  rw [Option.bind_some, opens_ofSymbol h]
  by_cases hopen : p.opens y = true
  · rw [if_pos hopen, if_pos hopen]
    cases hfound : splitClose? p 0 rest with
    | none => rfl
    | some found =>
      obtain ⟨body, closer, after⟩ := found
      obtain ⟨rfl, hclose⟩ := eq_append_of_splitClose? hfound
      have htoken := Token.locate_cons (Pair.tag?_of_closes hclose)
        (start + y.text.byteSize + (Symbol.textOf body).byteSize)
        (line + y.text.count '\n' + (Symbol.textOf body).count '\n') after
      rw [Token.locate_append, htoken]
      simp [TokenPair.ofConstruct, Nat.add_comm 1, Nat.add_assoc,
        ← length_locate (start + y.text.byteSize) (line + y.text.count '\n') body]
  · rw [if_neg hopen, if_neg hopen]
    rfl

/-- The constructs of a list are the one at its first symbol and those of the rest. -/
lemma matched_locate_cons (start line : ℕ) (y : Symbol) (rest : List Symbol) :
    matched p (Token.locate start line (y :: rest)) = (pairAt? p start line y rest).toList ++
      matched p (Token.locate (start + y.text.byteSize) (line + y.text.count '\n') rest) := by
  cases htag : y.tag?.isSome with
  | true => rw [Token.locate_cons htag, matched_cons, ← Token.locate_cons htag, matchedAt?_zero htag]
  | false =>
    cases y with
    | char c =>
      have := Token.locate_map_char start line [c] rest
      rw [List.map_singleton, List.singleton_append] at this
      rw [this]
      rfl
    | tag t written => cases htag

lemma pairAt?_of_opens_eq_false {y : Symbol} (h : p.opens y = false) (start line : ℕ)
    (rest : List Symbol) : pairAt? p start line y rest = none := by
  rw [pairAt?, h]
  rfl

lemma pairAt?_eq_some {start line : ℕ} {y : Symbol} {rest : List Symbol} {x : TokenPair}
    (h : pairAt? p start line y rest = some x) : ∃ body closer after,
      rest = body ++ closer :: after ∧ p.opens y = true ∧ Descends p 0 body ∧
        p.closes closer = true ∧ x = .ofConstruct start line ⟨y, body, closer⟩ := by
  obtain ⟨⟨body, closer, after⟩, hfound, rfl⟩ := Option.map_eq_some_iff.mp h
  split at hfound
  · rename_i hopen
    obtain ⟨happ, hclose⟩ := eq_append_of_splitClose? hfound
    exact ⟨body, closer, after, happ, hopen, descends_of_splitClose? hfound, hclose, rfl⟩
  · cases hfound

/-- A matched pair of tokens delimits a construct. -/
lemma exists_of_mem_matched {start line : ℕ} {l : List Symbol} {x : TokenPair}
    (h : x ∈ matched p (Token.locate start line l)) : ∃ before c after line',
      l = before ++ c.symbols ++ after ∧ p.opens c.opener = true ∧
        x = .ofConstruct (start + (Symbol.textOf before).byteSize) line' c := by
  induction l generalizing start line with
  | nil => cases h
  | cons y l ih =>
    rw [matched_locate_cons] at h
    rcases List.mem_append.mp h with h | h
    · obtain ⟨body, closer, after, rfl, hopen, -, -, rfl⟩ := pairAt?_eq_some (Option.mem_toList.mp h)
      exact ⟨[], ⟨y, body, closer⟩, after, line, by simp [Construct.symbols], hopen, rfl⟩
    · obtain ⟨before, c, after, line', rfl, hopen, rfl⟩ := ih h
      exact ⟨y :: before, c, after, line', rfl, hopen, by simp [Nat.add_assoc]⟩

lemma matched_locate_append (start line : ℕ) (l m : List Symbol) :
    ∃ first, matched p (Token.locate start line (l ++ m)) = first ++
      matched p (Token.locate (start + (Symbol.textOf l).byteSize)
        (line + (Symbol.textOf l).count '\n') m) := by
  induction l generalizing start line with
  | nil => exact ⟨[], rfl⟩
  | cons y l ih =>
    obtain ⟨first, hfirst⟩ := ih (start + y.text.byteSize) (line + y.text.count '\n')
    refine ⟨(pairAt? p start line y (l ++ m)).toList ++ first, ?_⟩
    rw [List.cons_append, matched_locate_cons, hfirst]
    simp [Nat.add_assoc]

/-- A construct that begins in the body of another one ends there. -/
lemma mem_matched_append {depth start line : ℕ} {body rest : List Symbol} {x : TokenPair}
    (hbody : Descends p depth body) (h : x ∈ matched p (Token.locate start line (body ++ rest))) :
    (start ≤ x.opener.start ∧ x.closer.stop ≤ start + (Symbol.textOf body).byteSize) ∨
      ∃ line', x ∈ matched p
        (Token.locate (start + (Symbol.textOf body).byteSize) line' rest) := by
  have hskip (start : ℕ) {y : Symbol} {l : List Symbol}
      (h : (start + y.text.byteSize ≤ x.opener.start ∧
          x.closer.stop ≤ start + y.text.byteSize + (Symbol.textOf l).byteSize) ∨
        ∃ line', x ∈ matched p
          (Token.locate (start + y.text.byteSize + (Symbol.textOf l).byteSize) line' rest)) :
      (start ≤ x.opener.start ∧ x.closer.stop ≤ start + (Symbol.textOf (y :: l)).byteSize) ∨
        ∃ line', x ∈ matched p
          (Token.locate (start + (Symbol.textOf (y :: l)).byteSize) line' rest) := by
    rw [Symbol.textOf_cons, Text.byteSize_append, ← Nat.add_assoc]
    exact h.imp_left fun h => ⟨by omega, h.2⟩
  induction hbody generalizing start line with
  | nil => exact .inr ⟨line, h⟩
  | @opener depth y l hopen hl ih =>
    rw [List.cons_append, matched_locate_cons] at h
    rcases List.mem_append.mp h with h | h
    · obtain ⟨inner, closer, after, rfl, hinner, hclose⟩ := hl.exists_closer (Nat.succ_pos _)
      have hfound : splitClose? p 0 (inner ++ closer :: (after ++ rest)) =
          some (inner, closer, after ++ rest) := hinner.splitClose?_eq hclose
      rw [pairAt?, if_pos hopen, List.append_assoc, List.cons_append, hfound] at h
      obtain rfl := List.mem_singleton.mp h
      refine .inl ⟨le_rfl, ?_⟩
      simp only [TokenPair.closer_stop_ofConstruct, Symbol.textOf_cons, Symbol.textOf_append,
        Text.byteSize_append]
      omega
    · exact hskip start (ih h)
  | @closer depth y l hclose hl ih =>
    rw [List.cons_append, matched_locate_cons,
      pairAt?_of_opens_eq_false (Pair.opens_of_closes hclose)] at h
    exact hskip start (ih h)
  | @neutral depth y l hopen _ hl ih =>
    rw [List.cons_append, matched_locate_cons, pairAt?_of_opens_eq_false hopen] at h
    exact hskip start (ih h)

lemma le_start_of_mem_matched {start line : ℕ} {l : List Symbol} {x : TokenPair}
    (h : x ∈ matched p (Token.locate start line l)) : start ≤ x.opener.start := by
  obtain ⟨before, c, after, line', -, -, rfl⟩ := exists_of_mem_matched h
  exact Nat.le_add_right _ _

/-- Two constructs of which the first begins first: they lie apart, or the second lies in the
body of the first. -/
def TokenPair.Laminar (x y : TokenPair) : Prop :=
  x.closer.stop ≤ y.opener.start ∨ x.opener.stop ≤ y.opener.start ∧ y.closer.stop ≤ x.closer.start

/-- Behind a construct come those in its body, and then those behind it. -/
lemma laminar_of_mem_matched {start line start' line' : ℕ} {c : Construct} {after : List Symbol}
    {x : TokenPair} (hbody : Descends p 0 c.body) (hclose : p.closes c.closer = true)
    (hstart : start' = start + c.opener.text.byteSize)
    (h : x ∈ matched p (Token.locate start' line' (c.body ++ c.closer :: after))) :
    (TokenPair.ofConstruct start line c).Laminar x := by
  rw [TokenPair.Laminar, TokenPair.opener_stop_ofConstruct, TokenPair.closer_start_ofConstruct,
    TokenPair.closer_stop_ofConstruct, ← hstart]
  rcases mem_matched_append hbody h with hinside | ⟨line'', h⟩
  · exact .inr hinside
  · rw [matched_locate_cons, pairAt?_of_opens_eq_false (Pair.opens_of_closes hclose)] at h
    exact .inl (le_start_of_mem_matched h)

lemma pairwise_matched (start line : ℕ) (l : List Symbol) :
    (matched p (Token.locate start line l)).Pairwise TokenPair.Laminar := by
  induction l generalizing start line with
  | nil => exact .nil
  | cons y l ih =>
    rw [matched_locate_cons]
    refine List.pairwise_append.mpr ⟨?_, ih _ _, fun x hx z hz => ?_⟩
    · cases pairAt? p start line y l <;> simp
    · obtain ⟨body, closer, after, rfl, -, hbody, hclose, rfl⟩ :=
        pairAt?_eq_some (Option.mem_toList.mp hx)
      exact laminar_of_mem_matched hbody hclose rfl hz

/-- A token is a tag among the symbols. -/
lemma exists_of_getElem?_locate {start line i : ℕ} {l : List Symbol} {t : Token}
    (h : (Token.locate start line l)[i]? = some t) : ∃ before written rest line',
      l = before ++ .tag t.tag written :: rest ∧ Outline.tagCount before = i ∧
        t = .ofSymbol (start + (Symbol.textOf before).byteSize) line' (.tag t.tag written) := by
  induction l generalizing start line i with
  | nil => simp [Token.locate] at h
  | cons y l ih =>
    cases y with
    | char c =>
      obtain ⟨before, written, rest, line', rfl, hcount, ht⟩ := ih h
      refine ⟨.char c :: before, written, rest, line', rfl, hcount, ?_⟩
      rw [ht]
      simp [Symbol.text, Token.ofSymbol, Symbol.tag?, Nat.add_assoc]
    | tag tag written =>
      cases i with
      | zero =>
        obtain rfl : _ = t := Option.some.inj h
        exact ⟨[], written, l, line, rfl, rfl, rfl⟩
      | succ i =>
        obtain ⟨before, other, rest, line', rfl, hcount, ht⟩ := ih h
        refine ⟨.tag tag written :: before, other, rest, line', rfl, ?_, ?_⟩
        · rw [← hcount, Outline.tagCount, List.countP_cons_of_pos rfl]
          rfl
        · rw [ht]
          simp [Symbol.text, Token.ofSymbol, Symbol.tag?, Nat.add_assoc]

lemma getElem?_locate_append (start line : ℕ) (before rest : List Symbol) (t : Tag)
    (written : Text) : ∃ line',
      (Token.locate start line (before ++ .tag t written :: rest))[Outline.tagCount before]? =
        some (.ofSymbol (start + (Symbol.textOf before).byteSize) line' (.tag t written)) := by
  refine ⟨line + (Symbol.textOf before).count '\n', ?_⟩
  rw [Token.locate_append, ← length_locate start line, List.getElem?_append_right le_rfl,
    Nat.sub_self]
  rfl

/-- Among the tokens the walk from a tag ends at the token of the closer. -/
lemma closerAt?_locate (start line : ℕ) (before rest : List Symbol) (t : Tag) (written : Text) :
    closerAt? p ((Token.locate start line (before ++ .tag t written :: rest)).map Token.symbol)
        (Outline.tagCount before) =
      (splitClose? p 0 rest).map fun found =>
        Outline.tagCount before + 1 + Outline.tagCount found.1 := by
  have hdrop : (bare (before ++ .tag t written :: rest)).drop (Outline.tagCount before + 1) =
      bare rest := by
    rw [bare_append, bare_tag, ← length_bare, ← List.drop_drop, List.drop_left]
    rfl
  rw [map_symbol_locate, closerAt?, hdrop]
  have := congrArg (Option.map (Outline.tagCount before + 1 + ·)) (splitClose?_bare (p := p) rest)
  rwa [Option.map_map, Option.map_map] at this

end
end Stencil
