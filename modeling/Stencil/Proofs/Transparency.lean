import Stencil.Proofs.Ceiling
import Stencil.Proofs.Flat
import Stencil.Proofs.Settled

/-! An inclusion between plain texts. The included template is rendered one level down, from its
own directory and with the passed variables laid over the others, which is what a call for that
template does under a ceiling one lower. Main statement: the outcome is that of the call, with the
plain texts around the content. -/
namespace Stencil

namespace Scan

/-- A text without braces closes nothing that stands open before it. -/
lemma splitCloser?_append_eq_none {d : Delimiter} {s b : Text} (hs : splitCloser? d s = none)
    (hb : '}' ∉ b) : splitCloser? d (s ++ b) = none := by
  refine Option.eq_none_iff_forall_ne_some.mpr fun ⟨content, after⟩ hfound => ?_
  have happ := splitCloser?_eq_some hfound
  rw [← List.singleton_append, ← List.append_assoc, List.append_eq_append_iff] at happ
  rcases happ with ⟨t, -, rfl⟩ | ⟨t, rfl, ht⟩
  · simp at hb
  · cases t with
    | nil =>
      rw [List.nil_append] at ht
      exact hb (ht ▸ List.mem_cons_self)
    | cons c t =>
      obtain ⟨rfl, -⟩ := List.cons.inj ht
      rw [List.append_assoc, List.singleton_append] at hs
      have := splitCloser?_eq_none_of_suffix (List.suffix_append _ _) hs
      rw [splitCloser?_closer] at this
      cases this

lemma leadingTag?_eq_none_of_isTagless {c : Char} {s : Text} (h : Text.IsTagless (c :: s)) :
    leadingTag? (c :: s) = none := by
  refine Option.eq_none_iff_forall_ne_some.mpr fun ⟨d, content, after⟩ hfound => ?_
  have := h (finished d content) (by rw [symbols_eq_leftmost, leftmost_of_tag hfound]; simp)
  cases this

/-- A text without braces makes no tag of what stands before it. -/
lemma leadingTag?_append_eq_none {c : Char} {s b : Text} (hs : leadingTag? (c :: s) = none)
    (hb : b.IsPlain) : leadingTag? (c :: (s ++ b)) = none := by
  by_cases hc : c = '{'
  · subst hc
    cases s with
    | nil =>
      cases b with
      | nil => rfl
      | cons e b =>
        have he := hb e List.mem_cons_self
        simp only [List.mem_cons, List.not_mem_nil, or_false, not_or] at he
        simp [leadingTag?, Delimiter.ofOpenChar?, he]
    | cons e s =>
      cases hd : Delimiter.ofOpenChar? e with
      | none => simp [leadingTag?, hd]
      | some d =>
        obtain rfl := Delimiter.ofOpenChar?_eq_some_iff.mp hd
        have hclose : '}' ∉ b := fun hmem => hb _ hmem (by simp)
        rw [leadingTag?_opener, Option.map_eq_none_iff] at hs
        rw [List.cons_append, leadingTag?_opener, splitCloser?_append_eq_none hs hclose]
        rfl
  · exact leadingTag?_of_ne hc _

end Scan

lemma Text.trim_space_cons {s : Text} (h : s.IsTrimmed) : Text.trim (' ' :: s) = s := by
  have hstart : Text.trimStart (' ' :: s) = Text.trimStart s := by
    simp [Text.trimStart, show Text.isWhite ' ' = true by decide]
  rw [Text.trim, hstart]
  exact h.trim_eq

namespace Text.IsTagless

lemma tail {c : Char} {s : Text} (h : IsTagless (c :: s)) : s.IsTagless := by
  have hlead := Scan.leadingTag?_eq_none_of_isTagless h
  intro y hy
  refine h y ?_
  rw [Scan.symbols_eq_leftmost] at hy ⊢
  rw [Scan.leftmost_of_char hlead]
  exact List.mem_cons_of_mem _ hy

/-- No tag of the text ends in a text without braces, and none starts there. -/
lemma append_right {s b : Text} (h : s.IsTagless) (hb : b.IsPlain) : (s ++ b).IsTagless := by
  induction s with
  | nil =>
    intro y hy
    rw [List.nil_append, hb.reads.symbols_eq] at hy
    obtain ⟨c, -, rfl⟩ := List.mem_map.mp hy
    rfl
  | cons c s ih =>
    have hlead := Scan.leadingTag?_append_eq_none (Scan.leadingTag?_eq_none_of_isTagless h) hb
    intro y hy
    rw [List.cons_append, Scan.symbols_eq_leftmost, Scan.leftmost_of_char hlead,
      ← Scan.symbols_eq_leftmost] at hy
    cases List.mem_cons.mp hy with
    | inl hy => exact hy ▸ rfl
    | inr hy => exact ih h.tail y hy

lemma append_left {s a : Text} (h : s.IsTagless) (ha : a.IsPlain) : (a ++ s).IsTagless := by
  intro y hy
  rw [ha.reads s] at hy
  rcases List.mem_append.mp hy with hy | hy
  · obtain ⟨c, -, rfl⟩ := List.mem_map.mp hy
    rfl
  · exact h y hy

end Text.IsTagless

lemma Text.IsPlain.markerFree {s : Text} (h : s.IsPlain) : Whitespace.MarkerFree s := by
  apply Whitespace.Mark.markerFree_of_scan
  have hscan := h.free.scan_eq [] Whitespace.Mark.safeStart_nil
  intro m hm
  rw [List.append_nil] at hscan
  rw [hscan] at hm
  rcases List.mem_append.mp hm with hm | hm
  · obtain ⟨c, -, rfl⟩ := List.mem_map.mp hm
    exact ⟨c, rfl⟩
  · cases hm

/-- A tag that includes a template and passes variables. -/
def includeTag (reference literal : Text) : Text :=
  writeTag .control ("include \"".toList ++ reference ++ "\" with ".toList ++ literal)

/-- What an including tag can name and pass on: the literal stands between braces, and nothing in
them ends the tag or trims around it. -/
structure Includable (reference literal : Text) : Prop where
  nonempty : reference ≠ []
  quote : '"' ∉ reference
  percent : '%' ∉ reference
  markers : Whitespace.MarkerFree reference
  opens : literal.head? = some '{'
  closes : literal.getLast? = some '}'
  literalPercent : '%' ∉ literal
  literalMarkers : Whitespace.MarkerFree literal

namespace Includable
variable {reference literal : Text} (h : Includable reference literal)
include h

lemma isTrimmed_cons_append {c : Char} (hc : Text.isWhite c = false) (s : Text) :
    Text.IsTrimmed (c :: s ++ literal) := by
  refine ⟨fun x hx => ?_, fun x hx => ?_⟩
  · obtain rfl : c = x := by simpa using hx
    exact hc
  · rw [List.getLast?_append, h.closes] at hx
    obtain rfl : '}' = x := by simpa using hx
    decide

lemma isTrimmed_literal : Text.IsTrimmed literal := by
  obtain ⟨s, rfl⟩ := List.head?_eq_some_iff.mp h.opens
  refine ⟨by simp; decide, fun x hx => ?_⟩
  rw [h.closes] at hx
  obtain rfl : '}' = x := by simpa using hx
  decide

lemma readInsert?_eq : Tag.readInsert? ('"' :: (reference ++ '"' :: (" with ".toList ++ literal))) =
    some (.insert reference (some literal)) := by
  have hsplit := Text.splitFirst?_append (p := (· == '"')) (a := reference)
    (fun c hc => by simpa using fun h' : c = '"' => h.quote (h' ▸ hc)) (c := '"') rfl
    (" with ".toList ++ literal)
  have htail : Text.trim (" with ".toList ++ literal) = "with ".toList ++ literal :=
    Text.trim_space_cons (h.isTrimmed_cons_append (c := 'w') (by decide) "ith ".toList)
  have hquoted : QuotedList.splitQuoted?
      ('"' :: (reference ++ '"' :: (" with ".toList ++ literal))) =
        some (reference, "with ".toList ++ literal) := by
    rw [QuotedList.splitQuoted?, hsplit, ← htail]
    cases hr : reference with
    | nil => exact absurd hr h.nonempty
    | cons c rest => rfl
  have hobject : Text.after? "with".toList ("with ".toList ++ literal) = some (' ' :: literal) :=
    Text.after?_eq_some_iff.mpr rfl
  have hliteral : Text.trim (' ' :: literal) = literal :=
    Text.trim_space_cons h.isTrimmed_literal
  have hwhite : Text.startsWhite (' ' :: literal) = true :=
    show Text.isWhite ' ' = true by decide
  have hne : ("with ".toList ++ literal).isEmpty = false := rfl
  rw [Tag.readInsert?, hquoted]
  simp only [Option.bind_eq_bind, Option.bind_some, hne, hobject, hliteral, hwhite, h.opens,
    h.closes, Bool.false_eq_true, if_false, beq_self_eq_true, Bool.and_self, if_true]

lemma reads : Scan.Reads (includeTag reference literal)
    [.tag (.insert reference (some literal)) (includeTag reference literal)] := by
  have hinner : "include \"".toList ++ reference ++ "\" with ".toList ++ literal =
      "include".toList ++ ' ' :: ('"' :: (reference ++ '"' :: (" with ".toList ++ literal))) := by
    simp
  have hquoted : '"' :: (reference ++ "\" with ".toList) ++ literal =
      '"' :: (reference ++ '"' :: (" with ".toList ++ literal)) := by simp
  have htrim := h.isTrimmed_cons_append (c := '"') (by decide) (reference ++ "\" with ".toList)
  have hread := h.readInsert?_eq
  rw [hquoted] at htrim
  have hcontent : '%' ∉ ' ' :: ("include".toList ++
      ' ' :: ('"' :: (reference ++ '"' :: (" with ".toList ++ literal)))) ++ [' '] := by
    simp [h.percent, h.literalPercent]
  have hinclude : Text.IsTrimmed ("include".toList ++
      ' ' :: ('"' :: (reference ++ '"' :: (" with ".toList ++ literal)))) := by
    have := h.isTrimmed_cons_append (c := 'i') (by decide)
      ("nclude \"".toList ++ reference ++ "\" with ".toList)
    simpa using this
  rw [includeTag, hinner]
  generalize '"' :: (reference ++ '"' :: (" with ".toList ++ literal)) = quoted at *
  have hkeyword := splitKeyword_append "include".toList rfl quoted
  rw [htrim.trim_eq] at hkeyword
  have htag : Tag.ofControl ("include".toList ++ ' ' :: quoted) =
      .insert reference (some literal) := by
    rw [Tag.ofControl, hkeyword]
    simp [hread]
  rw [← htag, ← tagSymbol_control hinclude, ← text_tagSymbol]
  exact Scan.Reads.finished_of_closeChar hcontent

lemma markerFree {b : Text} (hb : b.IsPlain) :
    Whitespace.MarkerFree (includeTag reference literal ++ b) := by
  have happ : includeTag reference literal ++ b = ['{', '%'] ++ ' ' :: ("include ".toList ++ '"' ::
      (reference ++ '"' :: (" with".toList ++ ' ' :: (literal ++ ' ' :: '%' :: '}' :: b)))) := by
    simp [includeTag, writeTag, Delimiter.openChar, Delimiter.closeChar]
  have hspace : ∀ d : Delimiter, ∀ m ∈ d.markers, ' ' ∉ m := by rintro (_ | _ | _) <;> decide
  have hquote : ∀ d : Delimiter, ∀ m ∈ d.markers, '"' ∉ m := by rintro (_ | _ | _) <;> decide
  have hopen : Whitespace.MarkerFree ['{', '%'] := by rintro (_ | _ | _) <;> decide
  have hinclude : Whitespace.MarkerFree "include ".toList := by rintro (_ | _ | _) <;> decide
  have hwith : Whitespace.MarkerFree " with".toList := by rintro (_ | _ | _) <;> decide
  have hclose : Whitespace.MarkerFree ('%' :: '}' :: b) :=
    (hb.markerFree.cons_of_ne (by decide) (by decide)).cons_of_ne (by decide) (by decide)
  rw [happ]
  exact hopen.append_cons (hinclude.append_cons (h.markers.append_cons (hwith.append_cons
    (h.literalMarkers.append_cons hclose hspace) hspace) hquote) hquote) hspace

end Includable

namespace Renderer
variable {r : Renderer} {fragment : Expansion} {ctx : Context}

lemma concatMap_expandInsert_char (expand : Expansion) (s : Text) :
    Rendering.concatMap (r.expandInsert expand ctx) (s.map .char) = .done s := by
  rw [Rendering.concatMap_map]
  refine (Rendering.concatMap_pure (fun c => [c]) s).trans ?_
  rw [List.flatMap_singleton']

/-- No pass finds anything in a tagless text. -/
lemma passes_of_isTagless {s : Text} (h : s.IsTagless) :
    (r.expandBlocks fragment ctx (Scan.symbols s) >>= r.finish fragment ctx) = .done s := by
  have hinserts : r.expandInserts fragment ctx (Scan.symbols s) = .done (Scan.symbols s) := by
    rw [expandInserts_symbols, h.idle.hideLoops_eq, h.symbols_eq, concatMap_expandInsert_char]
    exact congrArg Rendering.done h.symbols_eq
  have hbody := expandBody_of_idle (r := r) h.idle fragment fragment ctx
  rw [expandBody_eq, dropTags, h.any_eq_false, if_neg Bool.false_ne_true, hinserts,
    Rendering.done_bind, h.flatMap_printed] at hbody
  exact hbody

variable {reference literal a b : Text}

/-- The symbols of an inclusion between two texts without tags. -/
def symbolsAround (reference literal a b : Text) : List Symbol :=
  a.map .char ++ [.tag (.insert reference (some literal)) (includeTag reference literal)] ++
    b.map .char

lemma mem_symbolsAround {y : Symbol} (hy : y ∈ symbolsAround reference literal a b) :
    (∃ c, y = .char c) ∨
      y = .tag (.insert reference (some literal)) (includeTag reference literal) := by
  simp only [symbolsAround, List.mem_append, List.mem_map, List.mem_singleton] at hy
  rcases hy with (⟨c, -, rfl⟩ | hy) | ⟨c, -, rfl⟩
  · exact .inl ⟨c, rfl⟩
  · exact .inr hy
  · exact .inl ⟨c, rfl⟩

lemma any_symbolsAround {p : Tag → Bool} (hp : p (.insert reference (some literal)) = false) :
    ((symbolsAround reference literal a b).any fun y => y.tag?.any p) = false := by
  refine List.any_eq_false.mpr fun y hy => ?_
  rcases mem_symbolsAround hy with ⟨c, rfl⟩ | rfl <;> simp [Symbol.tag?, hp]

lemma parent?_symbolsAround : parent? (symbolsAround reference literal a b) = none := by
  refine List.findSome?_eq_none_iff.mpr fun y hy => ?_
  rcases mem_symbolsAround hy with ⟨c, rfl⟩ | rfl <;> rfl

lemma hideLoops_symbolsAround :
    hideLoops (symbolsAround reference literal a b) = symbolsAround reference literal a b := by
  rw [hideLoops, if_neg]
  rw [Bool.not_eq_true, Pair.occursIn, List.any_eq_false]
  intro y hy
  rcases mem_symbolsAround ((List.dropWhile_suffix _).subset hy) with ⟨c, rfl⟩ | rfl <;>
    simp [Pair.closes]

section
variable (h : Includable reference literal) (ha : a.IsPlain) (hb : b.IsPlain)
include h ha hb

lemma symbols_around :
    Scan.symbols (a ++ includeTag reference literal ++ b) = symbolsAround reference literal a b :=
  ((ha.reads.append h.reads).append hb.reads).symbols_eq

lemma read_around (hstrip : r.options.whitespace.lstripBlocks = false)
    (htrim : r.options.whitespace.trimBlocks = false) :
    r.read (a ++ includeTag reference literal ++ b) = symbolsAround reference literal a b := by
  have hscan : Whitespace.Mark.scan (a ++ includeTag reference literal ++ b) =
      (a ++ includeTag reference literal ++ b).map .char := by
    have hstart : Whitespace.Mark.SafeStart (includeTag reference literal ++ b) :=
      Whitespace.Mark.safeStart_cons (c := '{') (by decide) _
    rw [List.append_assoc, ha.free.scan_eq _ hstart,
      Whitespace.Mark.scan_of_markerFree (h.markerFree hb), ← List.map_append]
  have hcomments := any_symbolsAround (a := a) (b := b) (p := isComment)
    (show isComment (.insert reference (some literal)) = false from rfl)
  rw [← symbols_around h ha hb] at hcomments
  rw [Renderer.read, preprocess, Whitespace.applyMarkers_of_scan hscan, Whitespace.applyGlobal,
    hstrip, htrim, if_neg Bool.false_ne_true, if_neg Bool.false_ne_true,
    Symbol.textWithout_of_none hcomments, Scan.textOf_symbols, symbols_around h ha hb]

/-- The pass over the inclusions puts in what the inclusion prints, and reads the whole again. -/
lemma run_expandInserts_around {expand : Expansion} {read : Text → Except Text Text}
    {used : List Text} {content : Text}
    (hinsert : (r.expandInsert expand ctx
      (.tag (.insert reference (some literal)) (includeTag reference literal))).run read =
        ⟨used, .ok content⟩) :
    (r.expandInserts expand ctx (symbolsAround reference literal a b)).run read =
      ⟨used, .ok (Scan.symbols (a ++ content ++ b))⟩ := by
  rw [← symbols_around h ha hb, expandInserts_symbols, symbols_around h ha hb,
    hideLoops_symbolsAround, Rendering.run_bind, symbolsAround, List.append_assoc,
    Rendering.run_concatMap_append, Rendering.run_concatMap_append, concatMap_expandInsert_char,
    concatMap_expandInsert_char, Rendering.run_concatMap_cons, hinsert]
  simp [Rendering.Outcome.andThen, Rendering.Outcome.behind]

/-- An inclusion between plain texts prints them around what the included template prints, if no
tag is in that. -/
lemma run_template_includeTag (hstrip : r.options.whitespace.lstripBlocks = false)
    (htrim : r.options.whitespace.trimBlocks = false) (level : ℕ)
    (read : Text → Except Text Text) {used : List Text} {content : Text}
    (hcontent : content.IsTagless)
    (hrun : (r.consult reference ctx.directory fun found =>
      r.template level ⟨ctx.vars.overlay (Locals.read literal ctx.vars),
        Location.directory found.1⟩ found.2).run read = ⟨used, .ok content⟩) :
    (r.template (level + 1) ctx (a ++ includeTag reference literal ++ b)).run read =
      ⟨used, .ok (a ++ content ++ b)⟩ := by
  have hinserts : (r.expandInserts (r.template level) ctx
      (symbolsAround reference literal a b)).run read =
        ⟨used, .ok (Scan.symbols (a ++ content ++ b))⟩ :=
    run_expandInserts_around h ha hb hrun
  rw [template, read_around h ha hb hstrip htrim]
  simp only [parent?_symbolsAround]
  rw [expandBody_eq, dropTags, any_symbolsAround rfl, if_neg Bool.false_ne_true,
    Rendering.run_bind, hinserts, Rendering.Outcome.andThen,
    passes_of_isTagless ((hcontent.append_left ha).append_right hb)]
  simp [Rendering.Outcome.behind]

end

end Renderer

/-- Under a ceiling one higher, an inclusion between plain texts gives what the call for the
included template with the passed variables gives, and the plain texts around it. -/
theorem Store.perform_includeTag (store : Store) (options : Options)
    (hstrip : options.whitespace.lstripBlocks = false)
    (htrim : options.whitespace.trimBlocks = false) (baseDirectory : Text) (vars : Fields)
    (ceiling : ℕ) {reference literal a b content : Text} {files : List Text}
    (h : Includable reference literal) (ha : a.IsPlain) (hb : b.IsPlain)
    (hcontent : content.IsTagless)
    (hfile : store.perform (.file reference) (vars.overlay (Locals.read literal vars))
      { options with maxDepth := ceiling } baseDirectory = .ok ⟨content, files⟩) :
    store.perform (.text (a ++ includeTag reference literal ++ b) none) vars
      { options with maxDepth := ceiling + 1 } baseDirectory =
        .ok ⟨a ++ content ++ b, files⟩ := by
  let r : Renderer := { Renderer.inMemory options with baseDirectory }
  have hflat : r.ResolvesFlat := Renderer.resolvesFlat_inMemory options baseDirectory
  have hrelated := Renderer.related_withCeiling hflat store.read ceiling (ceiling + 1)
  have hcut := hrelated.consult reference baseDirectory fun found =>
    (hrelated.levelsRelated (ceiling + 1) 0).template
      ⟨vars.overlay (Locals.read literal vars), Location.directory found.1⟩ found.2
  obtain ⟨hresult, hsorted⟩ := Rendered.ofOutcome_eq_ok.mp hfile
  rcases hcut with hcut | ⟨hcut, -⟩
  · cases hcut.symm.trans hresult
  · have hfound := hcut.symm.trans (congrArg (Rendering.Outcome.mk _) hresult)
    have hrun : ((r.withCeiling (ceiling + 1)).template (ceiling + 2) ⟨vars, baseDirectory⟩
        (a ++ includeTag reference literal ++ b)).run store.read = ⟨_, .ok (a ++ content ++ b)⟩ :=
      Renderer.run_template_includeTag h ha hb hstrip htrim (ceiling + 1) store.read hcontent hfound
    exact Rendered.ofOutcome_eq_ok.mpr ⟨congrArg Rendering.Outcome.result hrun,
      (congrArg (fun o => Rendered.sorted o.used) hrun).trans hsorted⟩

/-- A card that is included with a name, and one more inclusion inside it. -/
def cards : Store := .ofList
  [("cards/card.yapl".toList, "Dear {{ name }}, ".toList ++
      writeTag .control "include \"greeting\"".toList),
    ("cards/greeting.yapl".toList, "hello {{ name }}{{ year }}".toList)]

theorem Store.perform_cards :
    let literal := "{ name: friend, year: 7 }".toList
    let vars : Fields := [("friend".toList, .string "Ann".toList)]
    let source := "To: ".toList ++ includeTag "cards/card".toList literal ++ "!".toList
    cards.perform (.text source none) vars { maxDepth := 2, whitespace := .disabled } =
        .ok ⟨"To: Dear Ann, hello Ann7!".toList,
          ["cards/card.yapl".toList, "cards/greeting.yapl".toList]⟩ := by
  intro literal vars source
  have h : Includable "cards/card".toList literal := by
    refine ⟨by decide, by decide, by decide, ?_, by decide, by decide, by decide, ?_⟩ <;>
      rintro (_ | _ | _) <;> decide
  have hcontent : Text.IsTagless "Dear Ann, hello Ann7".toList := by decide +kernel
  have hplain : Text.IsPlain "To: ".toList ∧ Text.IsPlain "!".toList := by decide
  exact cards.perform_includeTag { whitespace := .disabled } rfl rfl [] vars 1 h hplain.1 hplain.2
    hcontent (by decide +kernel)

end Stencil
