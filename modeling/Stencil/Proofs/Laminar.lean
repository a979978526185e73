import Stencil.Proofs.Spans

/-! The outline of a text by its tokens. Its blocks and loops are the matched pairs of tokens; main
statement: they form a laminar family, of which the outermost come one behind the other. -/
namespace Stencil

/-- The span begins and ends between characters of the text, and not behind its end. -/
def Span.IsCut (sp : Span) (s : Text) : Prop :=
  ∃ before inner after, s = before ++ inner ++ after ∧
    sp = ⟨before.byteSize, before.byteSize + inner.byteSize⟩

namespace Outline
variable {p : Pair}

/-- The outline of symbols that begin at the first byte. -/
def ofSymbols (l : List Symbol) : Outline where
  pairs := matchesFrom 0 0 l
  topBlocks := (topLevel .block l).map fun (start, c) => blockSpan start c
  allBlocks := allBlocksFrom 0 l
  loops := (topLevel .loop l).map fun (start, c) => wholeSpan start c
  visible := visibleFrom 0 (Piece.split .loop l)

lemma allBlocksFrom_eq (start line : ℕ) (l : List Symbol) :
    allBlocksFrom start l = (matched .block (Token.locate start line l)).map TokenPair.span := by
  induction l generalizing start line with
  | nil => rfl
  | cons y l ih =>
    rw [allBlocksFrom, matched_locate_cons, List.map_append, ← ih]
    congr 1
    by_cases hopen : Pair.opens .block y = true
    · rw [if_pos hopen, pairAt?, if_pos hopen, construct?]
      cases splitClose? .block 0 l with
      | none => rfl
      | some found => simp [TokenPair.span_ofConstruct]
    · rw [if_neg hopen, pairAt?, if_neg hopen]
      rfl

lemma le_of_mem_locateConstructs {start : ℕ} {pieces : List Piece} {e : ℕ × Construct}
    (h : e ∈ locateConstructs start pieces) : start ≤ e.1 := by
  induction pieces generalizing start with
  | nil => cases h
  | cons piece pieces ih =>
    cases piece with
    | single y => exact (Nat.le_add_right _ _).trans (ih h)
    | construct c =>
      rcases List.mem_cons.mp h with rfl | h
      · exact le_rfl
      · exact (Nat.le_add_right _ _).trans (ih h)

/-- The outermost constructs come one behind the other. -/
lemma pairwise_locateConstructs (start : ℕ) (pieces : List Piece) :
    (locateConstructs start pieces).Pairwise fun e e' => (wholeSpan e.1 e.2).stop ≤ e'.1 := by
  induction pieces generalizing start with
  | nil => exact .nil
  | cons piece pieces ih =>
    cases piece with
    | single y => exact ih _
    | construct c => exact List.pairwise_cons.mpr ⟨fun e he => le_of_mem_locateConstructs he, ih _⟩

/-- The outermost constructs are constructs, in their order. -/
lemma locateConstructs_sublist (start line : ℕ) (l : List Symbol) :
    ((locateConstructs start (Piece.split p l)).map fun e => blockSpan e.1 e.2).Sublist
      ((matched p (Token.locate start line l)).map TokenPair.span) := by
  induction l using Piece.split_induction (p := p) generalizing start line with
  | nil => exact .slnil
  | single y l _ ih =>
    rw [locateConstructs, matched_locate_cons, List.map_append]
    exact (ih _ _).trans (List.sublist_append_right _ _)
  | construct opener body closer after hopen _ hfound ih =>
    rw [locateConstructs, List.map_cons, matched_locate_cons, pairAt?, if_pos hopen, hfound]
    have happ : body ++ closer :: after = (body ++ [closer]) ++ after := by simp
    obtain ⟨first, hfirst⟩ := matched_locate_append (p := p) (start + opener.text.byteSize)
      (line + opener.text.count '\n') (body ++ [closer]) after
    rw [happ, hfirst]
    have hstart : start + byteSize (Construct.symbols ⟨opener, body, closer⟩) =
        start + opener.text.byteSize + (Symbol.textOf (body ++ [closer])).byteSize := by
      simp [byteSize_eq, Construct.symbols, Nat.add_assoc]
    rw [hstart]
    simp only [Option.map_some, Option.toList_some, List.singleton_append, List.map_cons,
      TokenPair.span_ofConstruct, List.map_append]
    exact ((ih _ _).trans (List.sublist_append_right _ _)).cons_cons _

/-- Every construct lies in one of the outermost. -/
lemma exists_mem_locateConstructs {start line : ℕ} {l : List Symbol} {x : TokenPair}
    (h : x ∈ matched p (Token.locate start line l)) :
    ∃ e ∈ locateConstructs start (Piece.split p l),
      e.1 ≤ x.whole.start ∧ x.whole.stop ≤ (wholeSpan e.1 e.2).stop := by
  induction l using Piece.split_induction (p := p) generalizing start line with
  | nil => cases h
  | single y l hnone ih =>
    have hpair : pairAt? p start line y l = none := by
      unfold pairAt?
      split
      · rename_i hopen
        rw [hnone hopen]
        rfl
      · rfl
    rw [matched_locate_cons, hpair] at h
    exact ih h
  | construct opener body closer after hopen hclose hfound ih =>
    rw [matched_locate_cons, pairAt?, if_pos hopen, hfound] at h
    have hstop : (wholeSpan start ⟨opener, body, closer⟩).stop =
        start + opener.text.byteSize + (Symbol.textOf body).byteSize + closer.text.byteSize := by
      simp [wholeSpan, byteSize_eq, Construct.symbols, Nat.add_assoc]
    rcases List.mem_cons.mp h with rfl | h
    · refine ⟨_, List.mem_cons_self, le_rfl, ?_⟩
      rw [TokenPair.whole_ofConstruct]
    · rcases mem_matched_append (descends_of_splitClose? hfound) h with ⟨hfirst, hlast⟩ | ⟨line', h⟩
      · refine ⟨_, List.mem_cons_self, (Nat.le_add_right _ _).trans hfirst, ?_⟩
        rw [hstop]
        exact hlast.trans (Nat.le_add_right _ _)
      · rw [matched_locate_cons, pairAt?_of_opens_eq_false (Pair.opens_of_closes hclose)] at h
        obtain ⟨e, he, hfirst, hlast⟩ := ih h
        refine ⟨e, List.mem_cons_of_mem _ ?_, hfirst, hlast⟩
        change e ∈ locateConstructs (wholeSpan start ⟨opener, body, closer⟩).stop _
        rw [hstop]
        exact he

lemma mem_matchesFrom_iff {start index : ℕ} {l : List Symbol} {m : Match} :
    m ∈ matchesFrom start index l ↔ ∃ before y rest, l = before ++ y :: rest ∧
      match? (start + (Symbol.textOf before).byteSize) (index + tagCount before) y rest =
        some m := by
  induction l generalizing start index with
  | nil => simp [matchesFrom]
  | cons s l ih =>
    have hcount (before : List Symbol) : index + tagCount [s] + tagCount before =
        index + tagCount (s :: before) := by
      rw [Nat.add_assoc, tagCount, tagCount, tagCount, ← List.countP_append, List.singleton_append]
    rw [matchesFrom, List.mem_append, Option.mem_toList, ih]
    constructor
    · rintro (h | ⟨before, y, rest, rfl, h⟩)
      · exact ⟨[], s, l, rfl, h⟩
      · refine ⟨s :: before, y, rest, rfl, ?_⟩
        rwa [hcount, Nat.add_assoc, ← Text.byteSize_append, ← Symbol.textOf_cons] at h
    · rintro ⟨before, y, rest, happ, h⟩
      cases before with
      | nil =>
        obtain ⟨rfl, rfl⟩ := List.cons.inj happ
        exact .inl h
      | cons s' before =>
        obtain ⟨rfl, rfl⟩ := List.cons.inj happ
        refine .inr ⟨before, y, rest, rfl, ?_⟩
        rwa [hcount, Nat.add_assoc, ← Text.byteSize_append, ← Symbol.textOf_cons]

section
variable {start index i : ℕ} {closer : Option ℕ} {y : Symbol} {rest : List Symbol}

lemma match?_eq_loop_iff : match? start index y rest = some (.loop i closer) ↔
    Pair.opens .loop y = true ∧ index = i ∧
      (splitClose? .loop 0 rest).map (fun found => index + 1 + tagCount found.1) = closer := by
  cases y with
  | char c => simp [match?]
  | tag t written =>
    cases t <;> simp [match?, Pair.opens, construct?, Option.map_map, Function.comp_def]

lemma match?_eq_block_iff : match? start index y rest = some (.block i closer) ↔
    Pair.opens .block y = true ∧ index = i ∧
      (splitClose? .block 0 rest).map (fun found => index + 1 + tagCount found.1) = closer := by
  cases y with
  | char c => simp [match?]
  | tag t written =>
    cases t <;> simp [match?, Pair.opens, construct?, Option.map_map, Function.comp_def]

/-- An opener among symbols, said by the tokens. -/
lemma exists_opener_iff (start line : ℕ) (l : List Symbol) : (∃ before y rest,
      l = before ++ y :: rest ∧ p.opens y = true ∧ tagCount before = i ∧
        (splitClose? p 0 rest).map (fun found => tagCount before + 1 + tagCount found.1) = closer) ↔
    BeginsAt p ((Token.locate start line l).map Token.symbol) i ∧
      closerAt? p ((Token.locate start line l).map Token.symbol) i = closer := by
  constructor
  · rintro ⟨before, y, rest, rfl, hopen, rfl, rfl⟩
    obtain ⟨t, written, rfl⟩ := Symbol.exists_of_tag? (Pair.tag?_of_opens hopen)
    obtain ⟨line', ht⟩ := getElem?_locate_append start line before rest t written
    refine ⟨⟨_, by rw [List.getElem?_map, ht]; rfl, p.opens_tag t written [] ▸ hopen⟩, ?_⟩
    rw [closerAt?_locate]
  · rintro ⟨⟨y, hy, hopen⟩, rfl⟩
    rw [List.getElem?_map] at hy
    obtain ⟨t, ht, rfl⟩ := Option.map_eq_some_iff.mp hy
    obtain ⟨before, written, rest, line', rfl, rfl, -⟩ := exists_of_getElem?_locate ht
    exact ⟨before, _, rest, rfl, p.opens_tag t.tag [] written ▸ hopen, rfl,
      (closerAt?_locate start line before rest t.tag written).symm⟩

lemma mem_matchesFrom_loop_iff (start line : ℕ) (l : List Symbol) :
    .loop i closer ∈ matchesFrom start 0 l ↔
      BeginsAt .loop ((Token.locate start line l).map Token.symbol) i ∧
        closerAt? .loop ((Token.locate start line l).map Token.symbol) i = closer := by
  simp only [mem_matchesFrom_iff, match?_eq_loop_iff, Nat.zero_add]
  exact exists_opener_iff start line l

lemma mem_matchesFrom_block_iff (start line : ℕ) (l : List Symbol) :
    .block i closer ∈ matchesFrom start 0 l ↔
      BeginsAt .block ((Token.locate start line l).map Token.symbol) i ∧
        closerAt? .block ((Token.locate start line l).map Token.symbol) i = closer := by
  simp only [mem_matchesFrom_iff, match?_eq_block_iff, Nat.zero_add]
  exact exists_opener_iff start line l

end
end Outline

lemma TokenPair.isCut_of_mem_matched {p : Pair} {line : ℕ} {l : List Symbol} {x : TokenPair}
    (h : x ∈ matched p (Token.locate 0 line l)) :
    x.whole.IsCut (Symbol.textOf l) ∧ x.body.IsCut (Symbol.textOf l) ∧
      x.whole.start ≤ x.body.start ∧ x.body.stop ≤ x.whole.stop := by
  obtain ⟨before, c, after, line', rfl, -, rfl⟩ := exists_of_mem_matched h
  refine ⟨⟨Symbol.textOf before, Symbol.textOf c.symbols, Symbol.textOf after, by simp, ?_⟩,
    ⟨Symbol.textOf before ++ c.opener.text, Symbol.textOf c.body,
      c.closer.text ++ Symbol.textOf after, by simp [Construct.symbols], ?_⟩, ?_, ?_⟩
  · rw [whole_ofConstruct, Outline.wholeSpan, Outline.byteSize_eq, Nat.zero_add]
  · rw [body_ofConstruct, Outline.byteSize_eq, Nat.zero_add, Text.byteSize_append]
  · rw [whole_ofConstruct, body_ofConstruct]
    exact Nat.le_add_right _ _
  · simp [whole, body]

/-- What is known of an outline by the tokens of the text: the loops and blocks are the matched
pairs of tokens. Of one kind, the outermost come one behind the other, and any two lie apart or
one in the body of the other. The text can be cut at all of them. -/
structure Outline.IsLaminar (o : Outline) (ts : List Token) (s : Text) : Prop where
  loopPairs : ∀ i closer, .loop i closer ∈ o.pairs ↔
    BeginsAt .loop (ts.map Token.symbol) i ∧ closerAt? .loop (ts.map Token.symbol) i = closer
  blockPairs : ∀ i closer, .block i closer ∈ o.pairs ↔
    BeginsAt .block (ts.map Token.symbol) i ∧ closerAt? .block (ts.map Token.symbol) i = closer
  allBlocks : o.allBlocks = (matched .block ts).map TokenPair.span
  laminar : (matched .block ts).Pairwise TokenPair.Laminar
  outermost : o.topBlocks.Sublist o.allBlocks
  outermost_apart : o.topBlocks.Pairwise fun a b => a.whole.stop ≤ b.whole.start
  outermost_cover : ∀ b ∈ o.allBlocks, ∃ top ∈ o.topBlocks,
    top.whole.start ≤ b.whole.start ∧ b.whole.stop ≤ top.whole.stop
  loops : o.loops.Sublist ((matched .loop ts).map TokenPair.whole)
  loops_apart : o.loops.Pairwise fun a b => a.stop ≤ b.start
  loops_cover : ∀ x ∈ matched .loop ts, ∃ region ∈ o.loops,
    region.start ≤ x.whole.start ∧ x.whole.stop ≤ region.stop
  blocks_cut : ∀ b ∈ o.allBlocks, b.whole.IsCut s ∧ b.body.IsCut s ∧
    b.whole.start ≤ b.body.start ∧ b.body.stop ≤ b.whole.stop
  loops_cut : ∀ region ∈ o.loops, region.IsCut s

lemma Outline.isLaminar_ofSymbols (l : List Symbol) :
    (Outline.ofSymbols l).IsLaminar (Token.locate 0 1 l) (Symbol.textOf l) := by
  have hblocks : (ofSymbols l).allBlocks =
      (matched .block (Token.locate 0 1 l)).map TokenPair.span := allBlocksFrom_eq 0 1 l
  have hloops : (ofSymbols l).loops.Sublist
      ((matched .loop (Token.locate 0 1 l)).map TokenPair.whole) := by
    have := (locateConstructs_sublist (p := .loop) 0 1 l).map BlockSpan.whole
    rw [List.map_map, List.map_map] at this
    exact this
  refine ⟨fun i closer => mem_matchesFrom_loop_iff 0 1 l,
    fun i closer => mem_matchesFrom_block_iff 0 1 l, hblocks, pairwise_matched 0 1 l, ?_,
    List.pairwise_map.mpr (pairwise_locateConstructs _ _), fun b hb => ?_, hloops,
    List.pairwise_map.mpr (pairwise_locateConstructs _ _), fun x hx => ?_, fun b hb => ?_,
    fun region hregion => ?_⟩
  · rw [hblocks]
    exact locateConstructs_sublist 0 1 l
  · rw [hblocks] at hb
    obtain ⟨x, hx, rfl⟩ := List.mem_map.mp hb
    obtain ⟨e, he, hcover⟩ := exists_mem_locateConstructs hx
    exact ⟨_, List.mem_map_of_mem he, hcover⟩
  · obtain ⟨e, he, hcover⟩ := exists_mem_locateConstructs hx
    exact ⟨_, List.mem_map_of_mem he, hcover⟩
  · rw [hblocks] at hb
    obtain ⟨x, hx, rfl⟩ := List.mem_map.mp hb
    exact TokenPair.isCut_of_mem_matched hx
  · obtain ⟨x, hx, rfl⟩ := List.mem_map.mp (hloops.subset hregion)
    exact (TokenPair.isCut_of_mem_matched hx).1

/-- The walk to a closer ends where, for the first time, more have closed than opened. Matched
constructs of one kind lie apart or one inside the other, no two share a closer, and what opens in
a matched construct closes in it. So the loops and blocks of every text form a laminar family, and
the text is cut at them in order. -/
theorem closers_laminar :
    (∀ (p : Pair) (l : List Symbol) (i : ℕ),
      (∀ j, closerAt? p l i = some j ↔ IsLeast {j | Outcloses p l i j} j) ∧
      (closerAt? p l i = none ↔ ∀ j, ¬Outcloses p l i j)) ∧
    (∀ (p : Pair) (l : List Symbol) (i i' j : ℕ), BeginsAt p l i → BeginsAt p l i' →
      closerAt? p l i = some j →
      (∀ j', i < i' → closerAt? p l i' = some j' → j < i' ∨ j' < j) ∧
      (closerAt? p l i' = some j → i = i') ∧
      (i < i' → i' < j → ∃ j', closerAt? p l i' = some j' ∧ j' < j)) ∧
    (∀ l, (Outline.ofSymbols l).IsLaminar (Token.locate 0 1 l) (Symbol.textOf l)) ∧
    ∀ s, (Outline.ofText s).IsLaminar (tokens s) s := by
  refine ⟨fun p l i => ⟨fun j => closerAt?_eq_some_iff, closerAt?_eq_none_iff⟩,
    fun p l i i' j hi hi' hj => ⟨fun j' hlt hj' => ?_, fun hj' => ?_, fun hlt hltj => ?_⟩,
    Outline.isLaminar_ofSymbols, fun s => ?_⟩
  · exact lt_or_lt_of_closerAt? hlt hi' hj hj'
  · exact eq_of_closerAt?_eq hi hi' hj hj'
  · exact exists_closerAt?_of_lt hj hlt hltj hi'
  · have := Outline.isLaminar_ofSymbols (Scan.symbols s)
    rwa [Scan.textOf_symbols, ← tokens_eq_locate] at this

/-- The inner of two blocks closes in the outer one, although closers are left over. -/
theorem closers_laminar_chapter :
    let l := (tokens "{% block a %}{% block b %}x{% endblock %}{% endblock %}{% endblock %}".toList).map
      Token.symbol
    BeginsAt .block l 0 ∧ BeginsAt .block l 1 ∧ closerAt? .block l 0 = some 3 ∧
      ∃ j', closerAt? .block l 1 = some j' ∧ j' < 3 := by
  intro l
  have houter : BeginsAt .block l 0 := ⟨.tag (.openBlock ['a']) [], by decide +kernel, rfl⟩
  have hinner : BeginsAt .block l 1 := ⟨.tag (.openBlock ['b']) [], by decide +kernel, rfl⟩
  have hcloser : closerAt? .block l 0 = some 3 := by decide +kernel
  exact ⟨houter, hinner, hcloser, (closers_laminar.2.1 .block l 0 1 3 houter hinner hcloser).2.2
    (by decide) (by decide)⟩

end Stencil
