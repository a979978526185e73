import Stencil.Condition
import Stencil.Proofs.Spacing

/-! Where the reader of conditions splits a text. Keywords count only between white space, and so
only as whole words; an operator counts wherever it first fits. Main statements: a text is split at
the first of its words that is the keyword, and a comparison behind its left operand. -/
namespace Stencil

namespace Comparison

/-- The characters that operators are made of. -/
def isOperatorChar (c : Char) : Bool := c == '>' || c == '<' || c == '=' || c == '!'

lemma symbol_ne_nil (op : Comparison) : op.symbol ≠ [] := by cases op <;> simp [symbol]

lemma isOperatorChar_of_mem {op : Comparison} {c : Char} (hc : c ∈ op.symbol) :
    isOperatorChar c = true := by
  have h : op.symbol.all isOperatorChar = true := by cases op <;> rfl
  exact List.all_eq_true.mp h c hc

lemma isWhite_of_isOperatorChar {c : Char} (hc : isOperatorChar c = true) :
    Text.isWhite c = false := by
  simp only [isOperatorChar, Bool.or_eq_true, beq_iff_eq] at hc
  rcases hc with ((rfl | rfl) | rfl) | rfl <;> decide

end Comparison

namespace Condition

section Keyword
variable {keyword s : Text}

/-- Whether the keyword leads the text, with white space behind it. -/
def leads (keyword s : Text) : Bool := (Text.after? keyword s).any Text.startsWhite

/-- Whether the keyword stands in the text with white space on both sides. -/
def standsIn (keyword : Text) : Text → Bool
  | [] => false
  | c :: s => (Text.isWhite c && leads keyword s) || standsIn keyword s

lemma leads_iff : leads keyword s = true ↔
    ∃ d rest, s = keyword ++ d :: rest ∧ Text.isWhite d = true := by
  rw [leads, Option.any_eq_true]
  constructor
  · rintro ⟨rest, h, hwhite⟩
    cases rest with
    | nil => cases hwhite
    | cons d rest => exact ⟨d, rest, Text.after?_eq_some_iff.mp h, hwhite⟩
  · rintro ⟨d, rest, h, hwhite⟩
    exact ⟨d :: rest, Text.after?_eq_some_iff.mpr h, hwhite⟩

lemma standsIn_iff : standsIn keyword s = true ↔
    ∃ before c after, s = before ++ c :: after ∧ Text.isWhite c = true ∧
      leads keyword after = true := by
  induction s with
  | nil => simp [standsIn]
  | cons c s ih =>
    rw [standsIn, Bool.or_eq_true, Bool.and_eq_true, ih]
    constructor
    · rintro (⟨hc, hs⟩ | ⟨before, d, after, rfl, h⟩)
      · exact ⟨[], c, s, rfl, hc, hs⟩
      · exact ⟨c :: before, d, after, rfl, h⟩
    · rintro ⟨before, d, after, h, hd, hafter⟩
      cases before with
      | nil =>
        obtain ⟨rfl, rfl⟩ := List.cons.inj h
        exact .inl ⟨hd, hafter⟩
      | cons _ before =>
        obtain ⟨rfl, rfl⟩ := List.cons.inj h
        exact .inr ⟨before, d, after, rfl, hd, hafter⟩

/-- No keyword starts in text without white space. -/
lemma standsIn_solid_append {w : Text} (hw : ∀ c ∈ w, Text.isWhite c = false) (s : Text) :
    standsIn keyword (w ++ s) = standsIn keyword s := by
  induction w with
  | nil => rfl
  | cons c w ih =>
    rw [List.cons_append, standsIn, hw c List.mem_cons_self, ih fun d hd =>
      hw d (List.mem_cons_of_mem c hd)]
    rfl

variable (hkeyword : Text.IsWord keyword)
include hkeyword

lemma head?_of_leads (h : leads keyword s = true) : s.head? = keyword.head? := by
  obtain ⟨d, rest, rfl, -⟩ := leads_iff.mp h
  exact List.head?_append_of_ne_nil _ hkeyword.1

lemma leads_of_white {c : Char} (hc : Text.isWhite c = true) (s : Text) :
    leads keyword (c :: s) = false := by
  rw [Bool.eq_false_iff]
  intro h
  have hhead := head?_of_leads hkeyword h
  have := hkeyword.2 c (List.mem_of_mem_head? hhead.symm)
  rw [hc] at this
  cases this

/-- A keyword that stands behind a blank leads what follows it, or stands in that. -/
lemma standsIn_blank_append {g : Text} (hg : ∀ c ∈ g, Text.isWhite c = true) (s : Text) :
    standsIn keyword (g ++ s) = ((!g.isEmpty && leads keyword s) || standsIn keyword s) := by
  induction g with
  | nil => rfl
  | cons c g ih =>
    rw [List.cons_append, standsIn, hg c List.mem_cons_self,
      ih fun d hd => hg d (List.mem_cons_of_mem c hd)]
    cases g with
    | nil => simp
    | cons d g =>
      have := leads_of_white hkeyword (hg d (by simp)) (g ++ s)
      simp [this]

lemma standsIn_blank {g : Text} (hg : ∀ c ∈ g, Text.isWhite c = true) :
    standsIn keyword g = false := by
  have h := standsIn_blank_append hkeyword hg []
  have hnil : leads keyword [] = false := by
    rw [Bool.eq_false_iff]
    intro hnil
    obtain ⟨d, rest, heq, -⟩ := leads_iff.mp hnil
    simp at heq
  rw [List.append_nil, hnil] at h
  simpa [standsIn] using h

/-- A keyword that leads a word is this word. -/
lemma eq_of_leads_append {w t : Text} (hw : ∀ c ∈ w, Text.isWhite c = false)
    (ht : ∀ c ∈ t.head?, Text.isWhite c = true) (h : leads keyword (w ++ t) = true) :
    keyword = w := by
  obtain ⟨d, rest, heq, hd⟩ := leads_iff.mp h
  have htake := congrArg (List.takeWhile fun c => !Text.isWhite c) heq
  rw [List.takeWhile_append_of_pos (by simpa using hw),
    List.takeWhile_append_of_pos (by simpa using hkeyword.2)] at htake
  have hnil : t.takeWhile (fun c => !Text.isWhite c) = [] := by
    cases t with
    | nil => rfl
    | cons c t => simp [ht c rfl]
  simpa [hnil, hd] using htake.symm

/-- Where white space stands behind a text, what leads it does not reach beyond. -/
lemma leads_append_gap (u : Text) (g : Gap) (t : Text) :
    leads keyword (u ++ (g.text ++ t)) = leads keyword (u ++ g.text) := by
  obtain ⟨c, g', hg, hc⟩ := g.exists_cons
  rw [hg, Bool.eq_iff_iff, leads_iff, leads_iff]
  constructor
  · rintro ⟨d, rest, h, hd⟩
    rw [List.cons_append, List.append_eq_append_iff] at h
    rcases h with ⟨x, hk, hx⟩ | ⟨x, hu, hx⟩
    · cases x with
      | nil => exact ⟨c, g', by simp_all, hc⟩
      | cons e x =>
        obtain ⟨rfl, -⟩ := List.cons.inj hx
        have := hkeyword.2 c (by simp [hk])
        rw [hc] at this
        cases this
    · cases x with
      | nil => exact ⟨c, g', by simp_all, hc⟩
      | cons e x =>
        obtain ⟨rfl, -⟩ := List.cons.inj hx
        exact ⟨d, x ++ c :: g', by simp [hu], hd⟩
  · rintro ⟨d, rest, h, hd⟩
    exact ⟨d, rest ++ t, by rw [← List.append_assoc, h]; simp, hd⟩

/-- A keyword that is none of the words does not stand among them. -/
lemma standsIn_spells (hs : Text.Spells (· ≠ keyword) s) {g : Text}
    (hg : ∀ c ∈ g, Text.isWhite c = true) :
    standsIn keyword (s ++ g) = false ∧ leads keyword (s ++ g) = false := by
  induction hs with
  | word hw hne =>
    constructor
    · rw [standsIn_solid_append hw.2, standsIn_blank hkeyword hg]
    · rw [Bool.eq_false_iff]
      intro h
      exact hne (eq_of_leads_append hkeyword hw.2
        (fun c hc => hg c (List.mem_of_mem_head? hc)) h).symm
  | cons hw hne g' hs ih =>
    obtain ⟨hstands, hleads⟩ := ih
    rw [List.append_assoc, List.append_assoc]
    constructor
    · rw [standsIn_solid_append hw.2, standsIn_blank_append hkeyword g'.white, hstands, hleads]
      simp
    · rw [Bool.eq_false_iff]
      intro h
      refine hne (eq_of_leads_append hkeyword hw.2 (fun c hc => ?_) h).symm
      rw [List.head?_append_of_ne_nil _ g'.nonempty] at hc
      exact g'.white c (List.mem_of_mem_head? hc)

omit hkeyword in
lemma leads_of_afterKeyword? {right : Text} (h : afterKeyword? keyword s = some right) :
    s.startsWhite = true ∧ leads keyword s.trimStart = true := by
  unfold afterKeyword? at h
  split at h
  · rename_i hwhite
    obtain ⟨rest, hrest, h⟩ := Option.bind_eq_some_iff.mp h
    split at h
    · rename_i hright
      refine ⟨hwhite, ?_⟩
      rw [leads, hrest]
      exact (Bool.and_eq_true_iff.mp hright).1
    · cases h
  · cases h

omit hkeyword in
lemma standsIn_of_leads (hwhite : s.startsWhite = true)
    (hleads : leads keyword s.trimStart = true) : standsIn keyword s = true := by
  induction s with
  | nil => cases hwhite
  | cons c s ih =>
    have hc : Text.isWhite c = true := hwhite
    have htrim : Text.trimStart (c :: s) = Text.trimStart s := by
      simp [Text.trimStart, hc]
    rw [htrim] at hleads
    rw [standsIn, hc]
    by_cases hs : Text.startsWhite s = true
    · simp [ih hs hleads]
    · have hstart : Text.trimStart s = s := by
        refine Text.trimStart_of_head fun d hd => ?_
        obtain ⟨t, rfl⟩ := List.head?_eq_some_iff.mp hd
        simpa [Text.startsWhite] using hs
      rw [hstart] at hleads
      simp [hleads]

omit hkeyword in
lemma splitKeyword?_eq_none (h : standsIn keyword s = false) : splitKeyword? keyword s = none := by
  induction s with
  | nil => rfl
  | cons c s ih =>
    rw [standsIn, Bool.or_eq_false_iff] at h
    have hafter : afterKeyword? keyword s = none := by
      cases hs : afterKeyword? keyword s with
      | none => rfl
      | some right =>
        obtain ⟨hwhite, hleads⟩ := leads_of_afterKeyword? hs
        rw [standsIn_of_leads hwhite hleads] at h
        cases h.2
    rw [splitKeyword?, hafter, ih h.2]
    rfl

lemma afterKeyword?_append (g g' : Gap) {t : Text} (ht : Text.IsTrimmed t) (hne : t ≠ []) :
    afterKeyword? keyword (g.text ++ (keyword ++ (g'.text ++ t))) = some t := by
  have htrim : Text.trimStart (g.text ++ (keyword ++ (g'.text ++ t))) =
      keyword ++ (g'.text ++ t) := by
    rw [Text.trimStart_append g.white]
    refine Text.trimStart_of_head fun d hd => ?_
    rw [List.head?_append_of_ne_nil _ hkeyword.1] at hd
    exact hkeyword.2 d (List.mem_of_mem_head? hd)
  rw [afterKeyword?, if_pos (g.startsWhite_append _), htrim, Text.after?_eq_some_iff.mpr rfl]
  simp [g'.startsWhite_append, Text.trimStart_before ht, hne]

/-- A keyword that does not stand in a text does not come first behind the text's start. -/
lemma afterKeyword?_append_eq_none (hs : s ≠ [])
    (hlast : ∀ c ∈ s.getLast?, Text.isWhite c = false) (g : Gap) (t : Text)
    (h : standsIn keyword (s ++ g.text) = false) :
    afterKeyword? keyword (s ++ (g.text ++ t)) = none := by
  cases hafter : afterKeyword? keyword (s ++ (g.text ++ t)) with
  | none => rfl
  | some right =>
    -- the keyword would lead what stands in the text behind this place
    obtain ⟨hwhite, hleads⟩ := leads_of_afterKeyword? hafter
    have hne : (Text.trimStart s).isEmpty = false := by
      rw [List.isEmpty_eq_false_iff, Ne, Text.trimStart, List.dropWhile_eq_nil_iff]
      intro hblank
      have hwhite := hblank _ (List.getLast_mem hs)
      rw [hlast _ (List.getLast?_eq_getLast_of_ne_nil hs)] at hwhite
      cases hwhite
    have htrim (x : Text) : Text.trimStart (s ++ x) = Text.trimStart s ++ x := by
      rw [Text.trimStart, List.dropWhile_append, ← Text.trimStart, hne]
      rfl
    have hstart : Text.startsWhite (s ++ g.text) = true := by
      obtain ⟨c, u, rfl⟩ := List.exists_cons_of_ne_nil hs
      exact hwhite
    rw [htrim, leads_append_gap hkeyword, ← htrim] at hleads
    rw [standsIn_of_leads hstart hleads] at h
    cases h

/-- A text is split behind its part in which the keyword does not stand. -/
lemma splitKeyword?_append (hs : s ≠ []) (hlast : ∀ c ∈ s.getLast?, Text.isWhite c = false)
    (g g' : Gap) {t : Text} (ht : Text.IsTrimmed t) (hne : t ≠ [])
    (h : standsIn keyword (s ++ g.text) = false) :
    splitKeyword? keyword (s ++ g.text ++ keyword ++ g'.text ++ t) = some (s, t) := by
  induction s with
  | nil => exact absurd rfl hs
  | cons c s ih =>
    rw [List.cons_append, List.cons_append, List.cons_append, List.cons_append, splitKeyword?]
    by_cases hnil : s = []
    · subst hnil
      simp only [List.nil_append, List.append_assoc, afterKeyword?_append hkeyword g g' ht hne]
    · have hstands : standsIn keyword (s ++ g.text) = false := by
        rw [List.cons_append, standsIn, Bool.or_eq_false_iff] at h
        exact h.2
      have hlast' : ∀ e ∈ s.getLast?, Text.isWhite e = false := by
        intro e he
        apply hlast e
        rwa [← List.singleton_append, List.getLast?_append_of_ne_nil _ hnil]
      have hnone := afterKeyword?_append_eq_none hkeyword hnil hlast' g
        (keyword ++ (g'.text ++ t)) hstands
      have hassoc : s ++ g.text ++ keyword ++ g'.text ++ t =
          s ++ (g.text ++ (keyword ++ (g'.text ++ t))) := by simp
      rw [hassoc, hnone, ← hassoc, ih hnil hlast' hstands]
      rfl

omit hkeyword in
lemma exists_of_splitKeyword? {l r : Text} (h : splitKeyword? keyword s = some (l, r)) :
    ∃ g g' : Gap, s = l ++ g.text ++ keyword ++ g'.text ++ r := by
  induction s generalizing l with
  | nil => cases h
  | cons c s ih =>
    rw [splitKeyword?] at h
    cases hafter : afterKeyword? keyword s with
    | some right =>
      rw [hafter] at h
      obtain ⟨rfl, rfl⟩ : [c] = l ∧ right = r := by simpa using h
      unfold afterKeyword? at hafter
      split at hafter
      · rename_i hwhite
        obtain ⟨rest, hrest, hright⟩ := Option.bind_eq_some_iff.mp hafter
        split at hright
        · rename_i hgap
          obtain ⟨g, hg⟩ := Gap.exists_of_startsWhite hwhite
          obtain ⟨g', hg'⟩ := Gap.exists_of_startsWhite (Bool.and_eq_true_iff.mp hgap).1
          rw [Option.some.inj hright] at hg'
          refine ⟨g, g', ?_⟩
          rw [hg, Text.after?_eq_some_iff.mp hrest, hg']
          simp
        · cases hright
      · cases hafter
    | none =>
      rw [hafter] at h
      obtain ⟨⟨l', r'⟩, hsplit, hlr⟩ := Option.map_eq_some_iff.mp h
      obtain ⟨rfl, rfl⟩ := Prod.mk.inj hlr
      obtain ⟨g, g', rfl⟩ := ih hsplit
      exact ⟨g, g', by simp⟩

lemma splitKeyword?_cons_isSome (hlast : ∀ c ∈ s.getLast?, Text.isWhite c = false)
    (h : standsIn keyword s = true) (d : Char) :
    (splitKeyword? keyword (d :: s)).isSome = true := by
  induction s generalizing d with
  | nil => cases h
  | cons c s ih =>
    rw [splitKeyword?]
    cases hafter : afterKeyword? keyword (c :: s) with
    | some right => rfl
    | none =>
      have hlast' : ∀ e ∈ s.getLast?, Text.isWhite e = false := fun e he =>
        hlast e (by rw [List.getLast?_cons, Option.mem_def.mp he]; rfl)
      rw [standsIn, Bool.or_eq_true, Bool.and_eq_true] at h
      rcases h with ⟨hc, hleads⟩ | h
      · -- the keyword fits here, so that the text would be split at this place
        exfalso
        obtain ⟨e, rest, rfl, he⟩ := leads_iff.mp hleads
        have htrim : Text.trimStart (c :: (keyword ++ e :: rest)) = keyword ++ e :: rest := by
          have hstart := Text.trimStart_append (a := [c]) (by simpa using hc)
            (keyword ++ e :: rest)
          rw [← List.singleton_append, hstart]
          refine Text.trimStart_of_head fun x hx => ?_
          rw [List.head?_append_of_ne_nil _ hkeyword.1] at hx
          exact hkeyword.2 x (List.mem_of_mem_head? hx)
        have hne : Text.trimStart (e :: rest) ≠ [] := by
          rw [Ne, Text.trimStart, List.dropWhile_eq_nil_iff]
          intro hwhite
          have hend : (e :: rest).getLast? = some ((e :: rest).getLast (by simp)) :=
            List.getLast?_eq_getLast_of_ne_nil _
          have := hlast' _ (by rw [List.getLast?_append_of_ne_nil _ (by simp)]; exact hend)
          rw [hwhite _ (List.getLast_mem _)] at this
          cases this
        have hrest : Text.startsWhite (e :: rest) = true := he
        have hwhite : Text.startsWhite (c :: (keyword ++ e :: rest)) = true := hc
        rw [afterKeyword?, if_pos hwhite, htrim, Text.after?_eq_some_iff.mpr rfl] at hafter
        simp [hrest, hne] at hafter
      · simp [ih hlast' h c]

/-- A text without white space at its ends is split if the keyword stands in it. -/
lemma splitKeyword?_isSome (hs : Text.IsTrimmed s) (h : standsIn keyword s = true) :
    (splitKeyword? keyword s).isSome = true := by
  cases s with
  | nil => cases h
  | cons c s =>
    rw [standsIn, hs.1 c rfl] at h
    refine splitKeyword?_cons_isSome hkeyword (fun d hd => hs.2 d ?_) h c
    rw [List.getLast?_cons, Option.mem_def.mp hd]
    rfl

end Keyword

section Test
variable {s test : Text}

lemma isWord_is : Text.IsWord "is".toList := by decide

lemma isWord_not : Text.IsWord "not".toList := by decide

lemma dropGap?_append (hs : ∀ c ∈ s.getLast?, Text.isWhite c = false) (g : Gap) :
    dropGap? (s ++ g.text) = some s := by
  have hlen := List.length_pos_iff.mpr g.nonempty
  rw [dropGap?, Text.trimEnd_append hs g.white, if_pos (by simpa using hlen)]

lemma exists_of_dropGap? {front : Text} (h : dropGap? s = some front) :
    ∃ g : Gap, s = front ++ g.text := by
  unfold dropGap? at h
  split at h
  · rename_i hlt
    obtain rfl := Option.some.inj h
    obtain ⟨b, hs⟩ := Text.exists_trimEnd_append s
    have hne : b.text ≠ [] := by
      intro hnil
      rw [hnil, List.append_nil] at hs
      exact absurd (congrArg List.length hs) hlt.ne'
    exact ⟨⟨b, hne⟩, hs⟩
  · cases h

lemma before?_eq_none {ending : Text} (h : s.getLast? ≠ ending.getLast?) (hne : ending ≠ []) :
    Text.before? ending s = none := by
  cases hb : Text.before? ending s with
  | none => rfl
  | some front =>
    rw [Text.before?_eq_some_iff.mp hb, List.getLast?_append_of_ne_nil _ hne] at h
    exact absurd rfl h

/-- A test of a path is split into the path and whether `not` is there. -/
lemma splitTest?_append {path : Text} (hpath : Text.IsTrimmed path) (hne : path ≠ []) (g : Gap)
    (negation : Option Gap) (last : Gap) :
    splitTest? test (path ++ g.text ++ "is".toList ++
      (negation.elim [] fun n => n.text ++ "not".toList) ++ last.text ++ test) =
        some (path, negation.isSome) := by
  have hpathGap : dropGap? (path ++ g.text) = some path := dropGap?_append hpath.2 g
  have hback : Text.before? "is".toList (path ++ g.text ++ "is".toList) = some (path ++ g.text) :=
    Text.before?_eq_some_iff.mpr rfl
  have hempty : path.isEmpty = false := by simpa using hne
  have htest := fun front => Text.before?_eq_some_iff.mpr (rfl : front ++ test = front ++ test)
  rw [splitTest?, htest]
  cases negation with
  | none =>
    have hnot : Text.before? "not".toList (path ++ g.text ++ "is".toList) = none :=
      before?_eq_none (by simp [List.getLast?_append]) (by simp)
    have hlast : dropGap? (path ++ g.text ++ "is".toList ++ [] ++ last.text) =
        some (path ++ g.text ++ "is".toList) := by
      rw [List.append_nil]
      exact dropGap?_append (Text.nonwhite_append isWord_is.isTrimmed.2 isWord_is.1 _) last
    simp only [Option.elim, Option.bind_some, hlast, Option.bind_eq_bind, hnot, Option.bind_none,
      hback, hpathGap, hempty, Option.isSome_none]
    rfl
  | some n =>
    have hnot : Text.before? "not".toList
        (path ++ g.text ++ "is".toList ++ (n.text ++ "not".toList)) =
          some (path ++ g.text ++ "is".toList ++ n.text) :=
      Text.before?_eq_some_iff.mpr (by simp)
    have hlast : dropGap? (path ++ g.text ++ "is".toList ++ (n.text ++ "not".toList) ++ last.text) =
        some (path ++ g.text ++ "is".toList ++ (n.text ++ "not".toList)) :=
      dropGap?_append (Text.nonwhite_append
        (Text.nonwhite_append isWord_not.isTrimmed.2 isWord_not.1 _) (by simp) _) last
    have hgap : dropGap? (path ++ g.text ++ "is".toList ++ n.text) =
        some (path ++ g.text ++ "is".toList) :=
      dropGap?_append (Text.nonwhite_append isWord_is.isTrimmed.2 isWord_is.1 _) n
    simp only [Option.elim, Option.bind_some, hlast, Option.bind_eq_bind, hnot, hgap,
      hback, hpathGap, hempty, Option.isSome_some]
    rfl

/-- Only a text of this form is split as a test. -/
lemma exists_of_splitTest? {path : Text} {negated : Bool}
    (h : splitTest? test s = some (path, negated)) :
    ∃ (g : Gap) (negation : Option Gap) (last : Gap),
      s = path ++ g.text ++ "is".toList ++ (negation.elim [] fun n => n.text ++ "not".toList) ++
        last.text ++ test ∧ negation.isSome = negated := by
  rw [splitTest?] at h
  obtain ⟨front, hfront, h⟩ := Option.bind_eq_some_iff.mp h
  obtain ⟨whole, hwhole, hgap⟩ := Option.bind_eq_some_iff.mp hfront
  obtain ⟨last, rfl⟩ := exists_of_dropGap? hgap
  have hs := Text.before?_eq_some_iff.mp hwhole
  have hpath {before : Text} {b : Bool}
      (h : ((Text.before? "is".toList before).bind dropGap?).bind
        (fun path => if path.isEmpty then none else some (path, b)) = some (path, negated)) :
      ∃ g : Gap, before = path ++ g.text ++ "is".toList ∧ b = negated := by
    obtain ⟨y, hy, h⟩ := Option.bind_eq_some_iff.mp h
    obtain ⟨x, hx, hgap⟩ := Option.bind_eq_some_iff.mp hy
    obtain ⟨g, rfl⟩ := exists_of_dropGap? hgap
    split at h
    · cases h
    · cases h
      exact ⟨g, Text.before?_eq_some_iff.mp hx, rfl⟩
  cases hnot : (Text.before? "not".toList front).bind dropGap? with
  | some before =>
    rw [hnot] at h
    obtain ⟨g, rfl, rfl⟩ := hpath h
    obtain ⟨x, hx, hgap⟩ := Option.bind_eq_some_iff.mp hnot
    obtain ⟨n, rfl⟩ := exists_of_dropGap? hgap
    refine ⟨g, some n, last, ?_, rfl⟩
    rw [hs, Text.before?_eq_some_iff.mp hx]
    simp
  | none =>
    rw [hnot] at h
    obtain ⟨g, rfl, rfl⟩ := hpath h
    exact ⟨g, none, last, by rw [hs]; simp, rfl⟩

lemma splitTest?_word (hs : ∀ c ∈ s, Text.isWhite c = false) : splitTest? test s = none := by
  cases hsplit : splitTest? test s with
  | none => rfl
  | some split =>
    obtain ⟨g, negation, last, rfl, -⟩ := exists_of_splitTest? hsplit
    obtain ⟨c, t, hg, hc⟩ := g.exists_cons
    rw [hs c (by simp [hg])] at hc
    cases hc

lemma splitTest?_of_getLast (h : s.getLast? ≠ test.getLast?) (hne : test ≠ []) :
    splitTest? test s = none := by
  rw [splitTest?, before?_eq_none h hne]
  rfl

end Test

section Operator
open Comparison

variable {s l r : Text}

lemma operatorAt?_eq_none (h : ∀ c ∈ (Text.trimStart s).head?, isOperatorChar c = false) :
    operatorAt? s = none := by
  rw [operatorAt?, List.findSome?_eq_none_iff]
  intro op _
  cases hafter : Text.after? op.symbol (Text.trimStart s) with
  | none => rfl
  | some rest =>
    obtain ⟨c, symbol, hsymbol⟩ := List.exists_cons_of_ne_nil op.symbol_ne_nil
    have hhead : (Text.trimStart s).head? = some c := by
      rw [Text.after?_eq_some_iff.mp hafter, hsymbol]
      rfl
    have hc := Comparison.isOperatorChar_of_mem (hsymbol ▸ List.mem_cons_self : c ∈ op.symbol)
    rw [h c hhead] at hc
    cases hc

/-- The right side of a comparison as it can stand behind any operator. -/
structure IsRightSide (r : Text) : Prop where
  trimmed : Text.IsTrimmed r
  nonempty : r ≠ []
  head : r.head? ≠ some '='

lemma operatorAt?_append (b : Blank) (op : Comparison) (a : Blank) (hr : IsRightSide r) :
    operatorAt? (b.text ++ op.symbol ++ a.text ++ r) = some (op, r) := by
  have hstart : Text.trimStart (b.text ++ op.symbol ++ a.text ++ r) =
      op.symbol ++ (a.text ++ r) := by
    rw [List.append_assoc, List.append_assoc, Text.trimStart_append b.white]
    refine Text.trimStart_of_head fun c hc => ?_
    rw [List.head?_append_of_ne_nil _ op.symbol_ne_nil] at hc
    exact isWhite_of_isOperatorChar (Comparison.isOperatorChar_of_mem (List.mem_of_mem_head? hc))
  have htrim : Text.trim (a.text ++ r) = r := Text.trim_before hr.trimmed a
  have hblank : Text.isBlank (a.text ++ r) = false := by
    rw [Bool.eq_false_iff]
    intro hblank
    obtain ⟨c, r', rfl⟩ := List.exists_cons_of_ne_nil hr.nonempty
    have hc := List.all_eq_true.mp hblank c (by simp)
    rw [hr.trimmed.1 c rfl] at hc
    cases hc
  obtain ⟨c, t, ht, hc⟩ : ∃ c t, a.text ++ r = c :: t ∧ c ≠ '=' := by
    cases ha : a.text with
    | nil =>
      obtain ⟨c, r', rfl⟩ := List.exists_cons_of_ne_nil hr.nonempty
      exact ⟨c, r', rfl, by simpa using hr.head⟩
    | cons c a' =>
      refine ⟨c, a' ++ r, rfl, ?_⟩
      rintro rfl
      have := a.white '=' (ha ▸ List.mem_cons_self)
      revert this
      decide
  have hne : ¬ '=' = c := Ne.symm hc
  rw [operatorAt?, hstart]
  rw [ht] at htrim hblank ⊢
  cases op <;> simp [Comparison.all, Comparison.symbol, Text.after?, hne, htrim, hblank]

lemma splitComparison?_append (hl : Text.IsWord l) (hop : ∀ c ∈ l, isOperatorChar c = false)
    (b : Blank) (op : Comparison) (a : Blank) (hr : IsRightSide r) :
    splitComparison? (l ++ (b.text ++ op.symbol ++ a.text ++ r)) = some (l, op, r) := by
  induction l with
  | nil => exact absurd rfl hl.1
  | cons c l ih =>
    rw [List.cons_append, splitComparison?]
    cases l with
    | nil =>
      rw [List.nil_append, operatorAt?_append b op a hr]
    | cons d l =>
      have hd : operatorAt? (d :: l ++ (b.text ++ op.symbol ++ a.text ++ r)) = none := by
        refine operatorAt?_eq_none fun e he => ?_
        rw [Text.trimStart_of_head (by simpa using hl.2 d (by simp))] at he
        obtain rfl : d = e := by simpa using he
        exact hop d (by simp)
      rw [hd, ih ⟨by simp, fun e he => hl.2 e (List.mem_cons_of_mem c he)⟩
        fun e he => hop e (List.mem_cons_of_mem c he)]
      rfl

lemma splitComparison?_eq_none (hop : ∀ c ∈ s, isOperatorChar c = false) :
    splitComparison? s = none := by
  induction s with
  | nil => rfl
  | cons c s ih =>
    have hnone : operatorAt? s = none := by
      refine operatorAt?_eq_none fun d hd => hop d (List.mem_cons_of_mem c ?_)
      exact (List.dropWhile_suffix Text.isWhite).subset (List.mem_of_mem_head? hd)
    rw [splitComparison?, hnone, ih fun d hd => hop d (List.mem_cons_of_mem c hd)]
    rfl

/-- Behind what stands on the left of a comparison comes the operator with the right side. -/
lemma exists_of_splitComparison? {op : Comparison} (h : splitComparison? s = some (l, op, r)) :
    ∃ rest, s = l ++ rest ∧ operatorAt? rest = some (op, r) := by
  induction s generalizing l with
  | nil => cases h
  | cons c s ih =>
    rw [splitComparison?] at h
    cases hop : operatorAt? s with
    | some found =>
      rw [hop] at h
      obtain ⟨rfl, rfl⟩ : [c] = l ∧ found = (op, r) := by simpa using h
      exact ⟨s, rfl, hop⟩
    | none =>
      rw [hop] at h
      obtain ⟨⟨l', op', r'⟩, hsplit, heq⟩ := Option.map_eq_some_iff.mp h
      obtain ⟨rfl, rfl, rfl⟩ : c :: l' = l ∧ op' = op ∧ r' = r := by simpa using heq
      obtain ⟨rest, rfl, hrest⟩ := ih hsplit
      exact ⟨rest, rfl, hrest⟩

/-- The right side is what is left of the text behind the operator when it is trimmed. -/
lemma exists_of_operatorAt? {op : Comparison} (h : operatorAt? s = some (op, r)) :
    ∃ rest : Text, s.trimStart = op.symbol ++ rest ∧ r = rest.trim := by
  obtain ⟨other, -, h⟩ := List.exists_of_findSome?_eq_some h
  obtain ⟨rest, hrest, h⟩ := Option.bind_eq_some_iff.mp h
  split at h
  · cases h
  · obtain ⟨rfl, rfl⟩ := Prod.mk.inj (Option.some.inj h)
    exact ⟨rest, Text.after?_eq_some_iff.mp hrest, rfl⟩

/-- A comparison with a single word on its right is no test. -/
lemma splitTest?_comparison {test : Text} (htest : ∀ c ∈ test, isOperatorChar c = false)
    (front : Text) {x : Char} (hx : isOperatorChar x = true) (a : Blank)
    (hr : ∀ c ∈ r, Text.isWhite c = false) :
    splitTest? test (front ++ x :: (a.text ++ r)) = none := by
  cases hsplit : splitTest? test (front ++ x :: (a.text ++ r)) with
  | none => rfl
  | some split =>
    exfalso
    -- the test's front ends with `is` or `not`
    obtain ⟨left, g, hs, hlast⟩ : ∃ (left : Text) (g : Gap),
        front ++ x :: (a.text ++ r) = left ++ g.text ++ test ∧
          (left.getLast? = some 's' ∨ left.getLast? = some 't') := by
      obtain ⟨g, negation, last, hs, -⟩ := exists_of_splitTest? hsplit
      refine ⟨_, last, hs, ?_⟩
      cases negation with
      | none => exact .inl (by simp [List.getLast?_append])
      | some n => exact .inr (by simp [List.getLast?_append, List.getLast?_cons])
    have hxs : x ≠ 's' ∧ x ≠ 't' := by
      constructor <;> (rintro rfl; revert hx; decide)
    have hleft : left.getLast? ≠ some x := by
      rcases hlast with h | h <;> rw [h] <;> simp [hxs.1.symm, hxs.2.symm]
    have hs : (front ++ [x]) ++ (a.text ++ r) = left ++ (g.text ++ test) := by
      simpa using hs
    rcases List.append_eq_append_iff.mp hs with ⟨y, hy, hrest⟩ | ⟨y, hy, hrest⟩
    · -- the operator stands in the test's front, and a word behind it holds the gap
      have hwhite : ∀ c ∈ left.getLast?, Text.isWhite c = false := by
        intro c hc
        rcases hlast with h | h <;> rw [h] at hc <;> cases hc <;> decide
      cases y using List.reverseRecOn with
      | nil => exact hleft (by simp [hy])
      | append_singleton y z =>
        have hz : Text.isWhite z = false := by
          refine hwhite z ?_
          rw [hy, ← List.append_assoc]
          exact List.getLast?_concat
        rcases List.append_eq_append_iff.mp hrest with ⟨u, -, hu⟩ | ⟨u, hu, -⟩
        · obtain ⟨c, g', hg, hc⟩ := g.exists_cons
          rw [hr c (by simp [hu, hg])] at hc
          cases hc
        · rw [a.white z (by simp [hu])] at hz
          cases hz
    · -- the operator stands in the gap or in the word of the test
      cases y using List.reverseRecOn with
      | nil => exact hleft (by rw [← List.append_nil left, ← hy]; simp)
      | append_singleton y z =>
        obtain ⟨rfl, rfl⟩ : front = left ++ y ∧ x = z := by
          rw [← List.append_assoc] at hy
          simpa using List.append_inj' hy rfl
        have hmem : x ∈ g.text ++ test := by rw [hrest]; simp
        rcases List.mem_append.mp hmem with h | h
        · have := g.white x h
          rw [isWhite_of_isOperatorChar hx] at this
          cases this
        · rw [htest x h] at hx
          cases hx

end Operator

section Parse
variable {s l r : Text}

/-- The reader sees its text without the white space around it. -/
lemma parse_eq (s : Text) : parse s =
    match splitKeyword? "and".toList s.trim with
    | some (left, right) => .both (parse left) (parse right)
    | none =>
      match splitKeyword? "or".toList s.trim with
      | some (left, right) => .either (parse left) (parse right)
      | none => parseAtom s.trim := by
  rw [parse]
  split
  · rename_i hand
    rw [hand]
  · rename_i hand
    rw [hand]
    split
    · rename_i hor
      rw [hor]
    · rename_i hor
      rw [hor]

lemma parse_trim {t : Text} (h : s.trim = t.trim) : parse s = parse t := by
  rw [parse_eq s, parse_eq t, h]

lemma parse_both (hs : s.IsTrimmed) (h : splitKeyword? "and".toList s = some (l, r)) :
    parse s = .both (parse l) (parse r) := by
  rw [parse_eq, hs.trim_eq, h]

lemma parse_either (hs : s.IsTrimmed) (hand : splitKeyword? "and".toList s = none)
    (h : splitKeyword? "or".toList s = some (l, r)) : parse s = .either (parse l) (parse r) := by
  rw [parse_eq, hs.trim_eq, hand, h]

lemma parse_atom (hs : s.IsTrimmed) (hand : splitKeyword? "and".toList s = none)
    (hor : splitKeyword? "or".toList s = none) : parse s = parseAtom s := by
  rw [parse_eq, hs.trim_eq, hand, hor]

/-- What the sides of a split condition pass on to it, and what atoms have, every condition has. -/
lemma parse_induction {motive : Text → Prop}
    (joined : ∀ keyword s l r : Text, splitKeyword? keyword s.trim = some (l, r) →
      parse s = .both (parse l) (parse r) ∨ parse s = .either (parse l) (parse r) →
      motive l → motive r → motive s)
    (atom : ∀ s : Text, splitKeyword? "and".toList s.trim = none →
      splitKeyword? "or".toList s.trim = none → parse s = parseAtom s.trim → motive s)
    (s : Text) : motive s := by
  induction hn : s.length using Nat.strong_induction_on generalizing s with
  | _ n ih =>
    subst hn
    have hparts {keyword l r : Text} (hsplit : splitKeyword? keyword s.trim = some (l, r)) :
        motive l ∧ motive r := by
      obtain ⟨hl, hr⟩ := length_of_splitKeyword?_trim hsplit
      exact ⟨ih _ hl l rfl, ih _ hr r rfl⟩
    have hparse := parse_eq s
    split at hparse
    · rename_i l r hand
      exact joined _ s l r hand (.inl hparse) (hparts hand).1 (hparts hand).2
    · rename_i hand
      split at hparse
      · rename_i l r hor
        exact joined _ s l r hor (.inr hparse) (hparts hor).1 (hparts hor).2
      · rename_i hor
        exact atom s hand hor hparse

/-- Contexts that the sides of a split condition do not tell apart, it does not tell apart. -/
lemma holds_congr_of_joined {c left right : Condition} {vars vars' : Fields}
    (hc : c = .both left right ∨ c = .either left right)
    (hleft : left.holds vars = left.holds vars') (hright : right.holds vars = right.holds vars') :
    c.holds vars = c.holds vars' := by
  rcases hc with rfl | rfl <;> rw [holds, holds, hleft, hright]

/-- A comparison is read as one if its text is no test. -/
lemma parseAtom_comparison (hl : Text.IsWord l)
    (hop : ∀ c ∈ l, Comparison.isOperatorChar c = false) (b : Blank) (op : Comparison) (a : Blank)
    (hr : IsRightSide r)
    (hdefined : splitTest? "defined".toList (l ++ (b.text ++ op.symbol ++ a.text ++ r)) = none)
    (hempty : splitTest? "empty".toList (l ++ (b.text ++ op.symbol ++ a.text ++ r)) = none) :
    parseAtom (l ++ (b.text ++ op.symbol ++ a.text ++ r)) = .compare l op r := by
  rw [parseAtom, hdefined, hempty, splitComparison?_append hl hop b op a hr]
  simp only [hl.isTrimmed.trim_eq]

/-- A word without operators is a constant or a path. -/
lemma parseAtom_word (hs : ∀ c ∈ s, Text.isWhite c = false)
    (hop : ∀ c ∈ s, Comparison.isOperatorChar c = false) :
    parseAtom s =
      if s = "true".toList then .constant true
      else if s = "false".toList then .constant false
      else if s.isSimplePath then .truthy s
      else .constant false := by
  rw [parseAtom, splitTest?_word hs, splitTest?_word hs, splitComparison?_eq_none hop]

end Parse

end Condition
end Stencil
