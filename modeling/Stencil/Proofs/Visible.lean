import Stencil.Proofs.Branches
import Stencil.Proofs.Reading

/-! The tokens outside the loops of a text. Main statement: what the passes before the loops cut
out of a text, by these tokens alone, holds each loop whole or does not touch it. -/
namespace Stencil

/-- The span holds all of a region or none of it. -/
def Span.Spares (sp region : Span) : Prop :=
  (sp.start ≤ region.start ∧ region.stop ≤ sp.stop) ∨
    sp.stop ≤ region.start ∨ region.stop ≤ sp.start

/-- The byte does not part a region in two. -/
def Span.Misses (region : Span) (byte : ℕ) : Prop := byte ≤ region.start ∨ region.stop ≤ byte

lemma Span.spares_of_misses {sp region : Span} (hstart : region.Misses sp.start)
    (hstop : region.Misses sp.stop) : sp.Spares region := by
  unfold Misses at hstart hstop
  unfold Spares
  omega

/-- The bytes of a text that one of the regions holds. -/
def Span.hold (regions : List Span) (byte : ℕ) : Bool :=
  regions.any fun region => region.start ≤ byte && byte < region.stop

lemma Span.hold_eq_false_iff {regions : List Span} {byte : ℕ} : hold regions byte = false ↔
    ∀ region ∈ regions, byte < region.start ∨ region.stop ≤ byte := by
  rw [hold, List.any_eq_false]
  refine forall₂_congr fun region _ => ?_
  rw [Bool.and_eq_true, decide_eq_true_eq, decide_eq_true_eq]
  omega

lemma Span.hold_cons (region : Span) (regions : List Span) (byte : ℕ) :
    hold (region :: regions) byte =
      ((region.start ≤ byte && byte < region.stop) || hold regions byte) := List.any_cons

namespace Token
variable {start line : ℕ} {l : List Symbol} {t : Token}

lemma exists_tag_of_mem_locate (h : t ∈ locate start line l) : ∃ before written rest line',
    l = before ++ .tag t.tag written :: rest ∧
      t = .ofSymbol (start + (Symbol.textOf before).byteSize) line' (.tag t.tag written) := by
  obtain ⟨i, hi⟩ := List.mem_iff_getElem?.mp h
  obtain ⟨before, written, rest, line', happ, -, ht⟩ := exists_of_getElem?_locate hi
  exact ⟨before, written, rest, line', happ, ht⟩

lemma bounds_of_mem_locate (h : t ∈ locate start line l) :
    start ≤ t.start ∧ t.stop ≤ start + (Symbol.textOf l).byteSize := by
  obtain ⟨before, written, rest, line', rfl, ht⟩ := exists_tag_of_mem_locate h
  have hstart : t.start = start + (Symbol.textOf before).byteSize := congrArg Token.start ht
  have hlength : t.length = (Symbol.tag t.tag written).text.byteSize := congrArg Token.length ht
  rw [stop, hstart, hlength, Symbol.textOf_append, Symbol.textOf_cons, Text.byteSize_append,
    Text.byteSize_append]
  omega

lemma start_lt_stop_of_mem_locate (hl : ∀ y ∈ l, y.text ≠ []) (h : t ∈ locate start line l) :
    t.start < t.stop := by
  obtain ⟨before, written, rest, line', rfl, ht⟩ := exists_tag_of_mem_locate h
  have hpos : 0 < written.byteSize := by
    cases written with
    | nil => exact absurd rfl (hl (.tag t.tag []) (by simp))
    | cons c written => exact Nat.add_pos_left c.utf8Size_pos _
  rw [ht]
  exact Nat.lt_add_of_pos_right hpos

end Token

namespace Outline
variable {start line : ℕ} {pieces : List Piece}

lemma locate_cons_construct (start line : ℕ) (c : Construct) (pieces : List Piece) :
    Token.locate start line ((Piece.construct c :: pieces).flatMap Piece.withoutTags) =
      Token.locate (start + byteSize c.symbols) (line + c.text.count '\n')
        (pieces.flatMap Piece.withoutTags) := by
  rw [List.flatMap_cons, Piece.withoutTags, Token.locate_map_char, byteSize_eq]
  rfl

/-- A token that is left when the constructs are turned into plain text touches none of them. -/
lemma apart_of_mem_locate {t : Token} {e : ℕ × Construct}
    (ht : t ∈ Token.locate start line (pieces.flatMap Piece.withoutTags))
    (he : e ∈ locateConstructs start pieces) :
    t.stop ≤ e.1 ∨ (wholeSpan e.1 e.2).stop ≤ t.start := by
  induction pieces generalizing start line with
  | nil => cases he
  | cons piece pieces ih =>
    cases piece with
    | single y =>
      rw [List.flatMap_cons, Piece.withoutTags, Token.locate_append, Symbol.textOf_cons,
        Symbol.textOf_nil, List.append_nil] at ht
      rcases List.mem_append.mp ht with ht | ht
      · have hstop := (Token.bounds_of_mem_locate ht).2
        rw [Symbol.textOf_cons, Symbol.textOf_nil, List.append_nil] at hstop
        have he' : e ∈ locateConstructs (start + y.text.byteSize) pieces := he
        exact .inl (hstop.trans (le_of_mem_locateConstructs he'))
      · exact ih ht he
    | construct c =>
      rw [locate_cons_construct] at ht
      rcases List.mem_cons.mp he with rfl | he
      · exact .inr (Token.bounds_of_mem_locate ht).1
      · exact ih ht he

lemma visibleFrom_eq (start line : ℕ) (pieces : List Piece) :
    visibleFrom start pieces =
      (Token.locate start line (pieces.flatMap Piece.withoutTags)).map Token.start := by
  induction pieces generalizing start line with
  | nil => rfl
  | cons piece pieces ih =>
    cases piece with
    | single y =>
      rw [visibleFrom, ih _ (line + y.text.count '\n'), List.flatMap_cons, Piece.withoutTags]
      cases y with
      | char c =>
        have := Token.locate_map_char start line [c] (pieces.flatMap Piece.withoutTags)
        rw [List.map_singleton] at this
        rw [this]
        rfl
      | tag t written => rfl
    | construct c => rw [visibleFrom, locate_cons_construct, ih]

/-- The tokens that are left when the constructs are turned into plain text are those that start
outside all of the constructs. -/
lemma locate_withoutTags (start line : ℕ) (pieces : List Piece)
    (hpieces : ∀ y ∈ pieces.flatMap Piece.symbols, y.text ≠ []) :
    Token.locate start line (pieces.flatMap Piece.withoutTags) =
      (Token.locate start line (pieces.flatMap Piece.symbols)).filter fun t =>
        !Span.hold ((locateConstructs start pieces).map fun e => wholeSpan e.1 e.2) t.start := by
  induction pieces generalizing start line with
  | nil => rfl
  | cons piece pieces ih =>
    have hrest (y : Symbol) (hy : y ∈ pieces.flatMap Piece.symbols) : y.text ≠ [] :=
      hpieces y (by rw [List.flatMap_cons]; exact List.mem_append_right _ hy)
    have hhere {t : Token} (ht : t ∈ Token.locate start line piece.symbols) : t.start < t.stop :=
      Token.start_lt_stop_of_mem_locate
        (fun y hy => hpieces y (by rw [List.flatMap_cons]; exact List.mem_append_left _ hy)) ht
    rw [List.flatMap_cons (f := Piece.symbols), Token.locate_append, List.filter_append]
    cases piece with
    | single y =>
      have hsymbols : (Piece.single y).symbols = [y] := rfl
      have hsize : Symbol.textOf [y] = y.text := by
        rw [Symbol.textOf_cons, Symbol.textOf_nil, List.append_nil]
      rw [List.flatMap_cons, Piece.withoutTags, Token.locate_append, ih _ _ hrest, hsymbols, hsize]
      rw [hsymbols] at hhere
      have hkept : (Token.locate start line [y]).filter (fun t =>
          !Span.hold ((locateConstructs start (.single y :: pieces)).map
            fun e => wholeSpan e.1 e.2) t.start) = Token.locate start line [y] := by
        refine List.filter_eq_self.mpr fun t ht => ?_
        rw [Bool.not_eq_true', Span.hold_eq_false_iff]
        intro region hregion
        obtain ⟨e, he, rfl⟩ := List.mem_map.mp hregion
        have hstop := (Token.bounds_of_mem_locate ht).2
        rw [hsize] at hstop
        have he' : e ∈ locateConstructs (start + y.text.byteSize) pieces := he
        exact .inl ((hhere ht).trans_le (hstop.trans (le_of_mem_locateConstructs he')))
      rw [hkept]
      rfl
    | construct c =>
      have hsymbols : (Piece.construct c).symbols = c.symbols := rfl
      rw [locate_cons_construct, ih _ _ hrest, hsymbols, byteSize_eq]
      rw [hsymbols] at hhere
      have hhidden : (Token.locate start line c.symbols).filter (fun t =>
          !Span.hold ((locateConstructs start (.construct c :: pieces)).map
            fun e => wholeSpan e.1 e.2) t.start) = [] := by
        refine List.filter_eq_nil_iff.mpr fun t ht => ?_
        obtain ⟨hstart, hstop⟩ := Token.bounds_of_mem_locate ht
        have hlt := (hhere ht).trans_le hstop
        simp [locateConstructs, Span.hold_cons, wholeSpan, byteSize_eq, hstart, hlt]
      rw [hhidden, List.nil_append]
      refine List.filter_congr fun t ht => ?_
      have hstart := (Token.bounds_of_mem_locate ht).1
      have hafter : ¬t.start < start + (Symbol.textOf c.symbols).byteSize := Nat.not_lt.mpr hstart
      simp [locateConstructs, Span.hold_cons, wholeSpan, byteSize_eq, hafter]

end Outline

section
variable {l : List Symbol} {region : Span}

/-- A token outside the loops parts none of them. -/
lemma misses_of_mem_locate {line : ℕ} {t : Token} (ht : t ∈ Token.locate 0 line (hideLoops l))
    (hregion : region ∈ (Outline.ofSymbols l).loops) :
    region.Misses t.start ∧ region.Misses t.stop := by
  obtain ⟨e, he, rfl⟩ := List.mem_map.mp hregion
  rw [hideLoops_eq] at ht
  have hle : t.start ≤ t.stop := Nat.le_add_right _ _
  rcases Outline.apart_of_mem_locate ht he with h | h
  · exact ⟨.inl (hle.trans h), .inl h⟩
  · exact ⟨.inr h, .inr (h.trans hle)⟩

lemma mem_of_mem_matched {p : Pair} {ts : List Token} {x : TokenPair} (h : x ∈ matched p ts) :
    x.opener ∈ ts ∧ x.closer ∈ ts := by
  obtain ⟨i, -, hi⟩ := List.mem_filterMap.mp h
  obtain ⟨opener, hopener, hi⟩ := Option.bind_eq_some_iff.mp hi
  obtain ⟨j, -, hj⟩ := Option.bind_eq_some_iff.mp hi
  obtain ⟨closer, hcloser, rfl⟩ := Option.map_eq_some_iff.mp hj
  exact ⟨List.mem_of_getElem? hopener, List.mem_of_getElem? hcloser⟩

/-- Blocks made of the tokens outside the loops. -/
lemma spares_of_mem_blocks {b : BlockSpan}
    (hb : b ∈ (Outline.ofSymbols (hideLoops l)).allBlocks)
    (hregion : region ∈ (Outline.ofSymbols l).loops) :
    b.whole.Spares region ∧ b.body.Spares region := by
  have hblocks := (Outline.isLaminar_ofSymbols (hideLoops l)).allBlocks
  obtain ⟨x, hx, rfl⟩ := List.mem_map.mp (hblocks ▸ hb)
  obtain ⟨hopener, hcloser⟩ := mem_of_mem_matched hx
  have hfirst := misses_of_mem_locate hopener hregion
  have hlast := misses_of_mem_locate hcloser hregion
  exact ⟨Span.spares_of_misses hfirst.1 hlast.2, Span.spares_of_misses hfirst.2 hlast.1⟩

/-- Every branch begins where the first one does or behind a header, and ends in front of a
header or where the last one does. -/
lemma ends_of_mem_branches {condition : Option Text} {start stop : ℕ} {headers : List Token}
    {b : Option Text × Span} (h : b ∈ branches condition start headers stop) :
    (b.2.start = start ∨ ∃ t ∈ headers, b.2.start = t.stop) ∧
      (b.2.stop = stop ∨ ∃ t ∈ headers, b.2.stop = t.start) := by
  induction headers generalizing condition start with
  | nil =>
    obtain rfl := List.mem_singleton.mp h
    exact ⟨.inl rfl, .inl rfl⟩
  | cons t headers ih =>
    rcases List.mem_cons.mp h with rfl | h
    · exact ⟨.inl rfl, .inr ⟨t, List.mem_cons_self, rfl⟩⟩
    · obtain ⟨hstart, hstop⟩ := ih h
      refine ⟨.inr ?_, hstop.imp_right fun ⟨u, hu, heq⟩ => ⟨u, List.mem_cons_of_mem t hu, heq⟩⟩
      rcases hstart with heq | ⟨u, hu, heq⟩
      · exact ⟨t, List.mem_cons_self, heq⟩
      · exact ⟨u, List.mem_cons_of_mem t hu, heq⟩

lemma mem_of_mem_between {α : Type} {l : List α} {i j : ℕ} {x : α} (h : x ∈ between l i j) :
    x ∈ l :=
  List.mem_of_mem_take (List.mem_of_mem_drop h)

/-- Conditionals made of the tokens outside the loops. -/
lemma spares_of_mem_conditionals {i j : ℕ} {clauses : List (Option Text × Span)}
    (h : .conditional i (some (j, clauses)) ∈ (Outline.ofSymbols (hideLoops l)).pairs) :
    ∃ opener closer, (Token.locate 0 1 (hideLoops l))[i]? = some opener ∧
      (Token.locate 0 1 (hideLoops l))[j]? = some closer ∧
      ∀ region ∈ (Outline.ofSymbols l).loops, Span.Spares ⟨opener.start, closer.stop⟩ region ∧
        ∀ b ∈ clauses, b.2.Spares region := by
  obtain ⟨opener, closer, condition, hopener, hcloser, -, -, rfl, -⟩ :=
    exists_of_mem_matchesFrom h 1
  refine ⟨opener, closer, hopener, hcloser, fun region hregion => ?_⟩
  have hfirst := misses_of_mem_locate (List.mem_of_getElem? hopener) hregion
  have hlast := misses_of_mem_locate (List.mem_of_getElem? hcloser) hregion
  refine ⟨Span.spares_of_misses hfirst.1 hlast.2, fun b hb => ?_⟩
  have hheader {t : Token} (ht : t ∈ branchHeaders (between (Token.locate 0 1 (hideLoops l)) i j)) :
      region.Misses t.start ∧ region.Misses t.stop :=
    misses_of_mem_locate (mem_of_mem_between ((branchHeaders_sublist _).subset ht)) hregion
  obtain ⟨hstart, hstop⟩ := ends_of_mem_branches hb
  refine Span.spares_of_misses ?_ ?_
  · rcases hstart with heq | ⟨t, ht, heq⟩
    · exact heq ▸ hfirst.2
    · exact heq ▸ (hheader ht).2
  · rcases hstop with heq | ⟨t, ht, heq⟩
    · exact heq ▸ hlast.1
    · exact heq ▸ (hheader ht).1

end

/-- The tokens that are left when the loops of a text are hidden are those that start outside all
loops, and none of them touches a loop. Each block with its body, and each conditional with all
its branches, found by these tokens alone, holds every loop whole or lies apart from it. -/
theorem loops_unsplit (s : Text) :
    let regions := (Outline.ofText s).loops
    let visible := Token.locate 0 1 (hideLoops (Scan.symbols s))
    let o := Outline.ofSymbols (hideLoops (Scan.symbols s))
    visible = (tokens s).filter (fun t => !Span.hold regions t.start) ∧
    (Outline.ofText s).visible = visible.map Token.start ∧
    (∀ t ∈ visible, ∀ region ∈ regions, t.stop ≤ region.start ∨ region.stop ≤ t.start) ∧
    (∀ b ∈ o.topBlocks ++ o.allBlocks, ∀ region ∈ regions,
      b.whole.Spares region ∧ b.body.Spares region) ∧
    ∀ i j clauses, .conditional i (some (j, clauses)) ∈ o.pairs →
      ∃ opener closer, visible[i]? = some opener ∧ visible[j]? = some closer ∧
        ∀ region ∈ regions, Span.Spares ⟨opener.start, closer.stop⟩ region ∧
          ∀ b ∈ clauses, b.2.Spares region := by
  intro regions visible o
  refine ⟨?_, ?_, fun t ht region hregion => ?_, fun b hb region hregion => ?_,
    fun i j clauses h => spares_of_mem_conditionals h⟩
  · have := Outline.locate_withoutTags 0 1 (Piece.split .loop (Scan.symbols s)) fun y hy =>
      Scan.text_ne_nil_of_mem_symbols (by rwa [Piece.flatMap_symbols_split] at hy)
    rw [Piece.flatMap_symbols_split, ← hideLoops_eq, ← tokens_eq_locate] at this
    exact this
  · have := Outline.visibleFrom_eq 0 1 (Piece.split .loop (Scan.symbols s))
    rwa [← hideLoops_eq] at this
  · obtain ⟨e, he, rfl⟩ := List.mem_map.mp hregion
    exact Outline.apart_of_mem_locate (by rwa [← hideLoops_eq]) he
  · refine spares_of_mem_blocks ?_ hregion
    rcases List.mem_append.mp hb with hb | hb
    · exact (Outline.isLaminar_ofSymbols _).outermost.subset hb
    · exact hb

/-- The closer of a block inside a loop is not seen, so that the block holds the loop. -/
theorem loops_unsplit_block :
    let s := "{% block a %}{% for x in xs %}{% endblock %}{% endfor %}{% endblock %}".toList
    (Outline.ofText s).loops = [⟨13, 56⟩] ∧
      (Outline.ofSymbols (hideLoops (Scan.symbols s))).allBlocks =
        [⟨['a'], ⟨0, 70⟩, ⟨13, 56⟩⟩] ∧ Span.Spares ⟨13, 56⟩ ⟨13, 56⟩ := by
  intro s
  have hloops : (Outline.ofText s).loops = [⟨13, 56⟩] := by decide +kernel
  have hblocks : (Outline.ofSymbols (hideLoops (Scan.symbols s))).allBlocks =
      [⟨['a'], ⟨0, 70⟩, ⟨13, 56⟩⟩] := by decide +kernel
  refine ⟨hloops, hblocks, ?_⟩
  have := (loops_unsplit s).2.2.2.1 ⟨['a'], ⟨0, 70⟩, ⟨13, 56⟩⟩
    (by rw [hblocks]; exact List.mem_append_right _ List.mem_cons_self) ⟨13, 56⟩
    (by rw [hloops]; exact List.mem_cons_self)
  exact this.2

end Stencil
