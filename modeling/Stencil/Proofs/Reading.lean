import Stencil.Proofs.Scanning

/-! What the scanner reads, said without its states. The leftmost opener that has a closer of its
own kind behind it makes a tag up to the first such closer; everything else is plain. Neither the
budget nor the kinds taken for hopeless change that. -/
namespace Stencil

namespace Symbol

lemma replace_append (f : Tag → Option Text) (a b : List Symbol) :
    replace f (a ++ b) = replace f a ++ replace f b := by
  induction a with
  | nil => rfl
  | cons y a ih => cases y <;> simp [replace, ih]

@[simp] lemma replace_map_char (f : Tag → Option Text) (s : Text) :
    replace f (s.map .char) = s := by
  induction s with
  | nil => rfl
  | cons c s ih => simp [replace, ih]

lemma textWithout_append (p : Tag → Bool) (a b : List Symbol) :
    textWithout p (a ++ b) = textWithout p a ++ textWithout p b := replace_append _ a b

end Symbol

namespace Scan

/-- The text before the first closer, and the text behind it. -/
def splitCloser? (d : Delimiter) : Text → Option (Text × Text)
  | [] => none
  | [_] => none
  | a :: b :: s =>
    if a = d.closeChar ∧ b = '}' then some ([], s)
    else (splitCloser? d (b :: s)).map fun (content, after) => (a :: content, after)

lemma splitCloser?_eq_some {d : Delimiter} {s content after : Text}
    (h : splitCloser? d s = some (content, after)) :
    s = content ++ d.closeChar :: '}' :: after := by
  induction s generalizing content with
  | nil => simp [splitCloser?] at h
  | cons a s ih =>
    cases s with
    | nil => simp [splitCloser?] at h
    | cons b s =>
      rw [splitCloser?] at h
      split at h
      · rename_i hab
        obtain ⟨rfl, rfl⟩ := hab
        simp only [Option.some.injEq, Prod.mk.injEq] at h
        obtain ⟨rfl, rfl⟩ := h
        rfl
      · obtain ⟨⟨c, t⟩, hs, hc⟩ := Option.map_eq_some_iff.mp h
        simp only [Prod.mk.injEq] at hc
        obtain ⟨rfl, rfl⟩ := hc
        rw [ih hs]
        rfl

lemma splitCloser?_closer (d : Delimiter) (s : Text) :
    splitCloser? d (d.closeChar :: '}' :: s) = some ([], s) := by
  simp [splitCloser?]

/-- A character that does not begin a closer belongs to the content. -/
lemma splitCloser?_cons {d : Delimiter} {c : Char} {s : Text}
    (h : c ≠ d.closeChar ∨ s.head? ≠ some '}') :
    splitCloser? d (c :: s) =
      (splitCloser? d s).map fun (content, after) => (c :: content, after) := by
  cases s with
  | nil => simp [splitCloser?]
  | cons b s =>
    rw [splitCloser?, if_neg]
    rintro ⟨hc, rfl⟩
    simp [hc] at h

/-- Without a closer in a text there is none in a part at its end. -/
lemma splitCloser?_eq_none_of_suffix {d : Delimiter} {s t : Text} (hs : s <:+ t)
    (h : splitCloser? d t = none) : splitCloser? d s = none := by
  induction t with
  | nil =>
    rw [List.suffix_nil.mp hs]
    rfl
  | cons c t ih =>
    rcases List.suffix_cons_iff.mp hs with rfl | hs
    · exact h
    · apply ih hs
      cases t with
      | nil => rfl
      | cons b t =>
        rw [splitCloser?] at h
        split at h
        · cases h
        · simpa using h

/-- The tag at the very start of a text, if there is one: its kind, its content and what follows. -/
def leadingTag? : Text → Option (Delimiter × Text × Text)
  | '{' :: c :: s =>
    (Delimiter.ofOpenChar? c).bind fun d =>
      (splitCloser? d s).map fun (content, after) => (d, content, after)
  | _ => none

lemma leadingTag?_of_ne {c : Char} (hc : c ≠ '{') (s : Text) : leadingTag? (c :: s) = none := by
  unfold leadingTag?
  split
  · simp_all
  · rfl

/-- Behind an opener stands the content up to the first closer. -/
lemma leadingTag?_opener (d : Delimiter) (s : Text) :
    leadingTag? ('{' :: d.openChar :: s) =
      (splitCloser? d s).map fun (content, after) => (d, content, after) := by
  rw [leadingTag?, Delimiter.ofOpenChar?_eq_some_iff.mpr rfl]
  rfl

lemma leadingTag?_eq_some {s content after : Text} {d : Delimiter}
    (h : leadingTag? s = some (d, content, after)) :
    s = '{' :: d.openChar :: content ++ d.closeChar :: '}' :: after := by
  unfold leadingTag? at h
  split at h
  · rename_i c s
    obtain ⟨d', hd, h⟩ := Option.bind_eq_some_iff.mp h
    obtain ⟨⟨x, y⟩, hs, hx⟩ := Option.map_eq_some_iff.mp h
    simp only [Prod.mk.injEq] at hx
    obtain ⟨rfl, rfl, rfl⟩ := hx
    rw [Delimiter.ofOpenChar?_eq_some_iff.mp hd, splitCloser?_eq_some hs]
    rfl
  · cases h

/-- The symbols of a text by the plain rule: a tag where one starts, else a character. -/
def leftmost (s : Text) : List Symbol :=
  match _htag : leadingTag? s with
  | some (d, content, after) => finished d content :: leftmost after
  | none =>
    match s with
    | [] => []
    | c :: s => .char c :: leftmost s
termination_by s.length
decreasing_by
  · rw [leadingTag?_eq_some _htag]
    simp only [List.length_cons, List.length_append]
    omega
  · simp

@[simp] lemma leftmost_nil : leftmost [] = [] := by
  rw [leftmost]
  rfl

lemma leftmost_of_tag {s content after : Text} {d : Delimiter}
    (h : leadingTag? s = some (d, content, after)) :
    leftmost s = finished d content :: leftmost after := by
  rw [leftmost]
  split
  · rename_i h'
    rw [h] at h'
    cases h'
    rfl
  · rename_i h'
    rw [h] at h'
    cases h'

lemma leftmost_of_char {c : Char} {s : Text} (h : leadingTag? (c :: s) = none) :
    leftmost (c :: s) = .char c :: leftmost s := by
  rw [leftmost]
  split
  · rename_i h'
    rw [h] at h'
    cases h'
  · rfl

namespace Hopeless

lemma has_add (h : Hopeless) (d e : Delimiter) : (h.add d).has e = (h.has e || d == e) := by
  cases d <;> cases e <;> simp [has, add]

/-- No opener of a hopeless kind that still comes has a closer. -/
def Sound (h : Hopeless) (s : Text) : Prop :=
  ∀ d, h.has d = true → ∀ rest, '{' :: d.openChar :: rest <:+ s → splitCloser? d rest = none

lemma Sound.suffix {h : Hopeless} {s t : Text} (hs : h.Sound t) (hst : s <:+ t) : h.Sound s :=
  fun d hd rest hrest => hs d hd rest (hrest.trans hst)

/-- A kind whose tag has no closer stays without one for all later openers. -/
lemma Sound.add {h : Hopeless} {d : Delimiter} {content : Text}
    (hs : h.Sound (d.openChar :: content)) (hd : splitCloser? d content = none) :
    (h.add d).Sound (d.openChar :: content) := by
  intro e he rest hrest
  rw [has_add, Bool.or_eq_true] at he
  rcases he with he | he
  · exact hs e he rest hrest
  · obtain rfl : d = e := by simpa using he
    apply splitCloser?_eq_none_of_suffix _ hd
    rcases List.suffix_cons_iff.mp hrest with heq | hsuf
    · rw [List.cons.injEq] at heq
      rw [← heq.2]
      exact List.suffix_cons _ _
    · exact ((List.suffix_cons _ _).trans (List.suffix_cons _ _)).trans hsuf

end Hopeless

namespace State

/-- What a state makes of the rest: an open tag ends at the first closer, or else gives way to
its text. -/
def expected (rest : Text) : State → List Symbol
  | .plain => leftmost rest
  | .brace => leftmost ('{' :: rest)
  | .inside d content resume =>
    match splitCloser? d rest with
    | some (more, after) => finished d (content.reverse ++ more) :: leftmost after
    | none => .char '{' :: leftmost resume
  | .closing d content resume =>
    match splitCloser? d (d.closeChar :: rest) with
    | some (more, after) => finished d (content.reverse ++ more) :: leftmost after
    | none => .char '{' :: leftmost resume

/-- The content of the open tag holds no closer, also not together with what follows it. -/
def Unclosed (d : Delimiter) (content rest : Text) : Prop :=
  splitCloser? d (content ++ rest) =
    (splitCloser? d rest).map fun (more, after) => (content ++ more, after)

/-- Hopeless kinds are hopeless, and an open tag is of another kind, keeps its whole text and has
no closer yet. -/
def Consistent (h : Hopeless) (rest : Text) : State → Prop
  | .plain => h.Sound rest
  | .brace => h.Sound ('{' :: rest)
  | .inside d content resume =>
    h.has d = false ∧ h.Sound resume ∧ resume = d.openChar :: content.reverse ++ rest ∧
      Unclosed d content.reverse rest
  | .closing d content resume =>
    h.has d = false ∧ h.Sound resume ∧
      resume = d.openChar :: content.reverse ++ d.closeChar :: rest ∧
      Unclosed d content.reverse (d.closeChar :: rest)

lemma Consistent.fits {h : Hopeless} {rest : Text} {state : State} (hs : state.Consistent h rest) :
    state.Fits h rest := by
  cases state with
  | plain | brace => trivial
  | inside d content resume => exact ⟨hs.1, hs.2.2.1 ▸ List.suffix_append _ _⟩
  | closing d content resume =>
    exact ⟨hs.1, hs.2.2.1 ▸ (List.suffix_cons _ _).trans (List.suffix_append _ _)⟩

/-- One more character of the content that begins no closer. -/
lemma Unclosed.step {d : Delimiter} {content rest : Text} {c : Char}
    (h : Unclosed d content (c :: rest)) (hc : c ≠ d.closeChar ∨ rest.head? ≠ some '}') :
    Unclosed d (content ++ [c]) rest := by
  unfold Unclosed at *
  rw [List.append_assoc, List.singleton_append, h, splitCloser?_cons hc, Option.map_map]
  congr 1
  funext p
  simp

/-- A tag that is still open at the end of the text shows its kind to be hopeless. -/
lemma Unclosed.sound_add {h : Hopeless} {d : Delimiter} {content rest resume : Text}
    (hu : Unclosed d content rest) (hs : h.Sound resume)
    (hr : resume = d.openChar :: content ++ rest) (hrest : splitCloser? d rest = none) :
    (h.add d).Sound resume := by
  subst hr
  apply hs.add
  change splitCloser? d (content ++ rest) = none
  rw [hu, hrest]
  rfl

end State

/-- The scanner has come to the end of the text. -/
lemma expected_of_next_eq_none {h : Hopeless} {state : State} {rest : Text} {found : List Symbol}
    (hnext : next h state rest = (found, none)) : state.expected rest = found := by
  cases state with
  | plain =>
    cases rest with
    | nil =>
      cases hnext
      exact leftmost_nil
    | cons c rest =>
      simp only [next] at hnext
      split at hnext <;> cases hnext
  | brace =>
    cases rest with
    | nil =>
      cases hnext
      simp [State.expected, leftmost_of_char, leadingTag?]
    | cons c rest =>
      simp only [next] at hnext
      repeat' split at hnext
      all_goals cases hnext
  | inside d content resume =>
    cases rest with
    | nil => cases hnext
    | cons c rest =>
      simp only [next] at hnext
      split at hnext <;> cases hnext
  | closing d content resume =>
    cases rest with
    | nil => cases hnext
    | cons c rest =>
      simp only [next] at hnext
      split at hnext <;> cases hnext

namespace Step
variable {h h' : Hopeless} {state state' : State} {rest rest' : Text} {found : List Symbol}
  (hstep : Step h state rest found h' state' rest')
include hstep

lemma consistent (hs : state.Consistent h rest) : state'.Consistent h' rest' := by
  cases hstep with
  | char _ => exact hs.suffix (List.suffix_cons _ _)
  | brace => exact hs
  | lone _ => exact hs.suffix (List.suffix_cons _ _)
  | opener hd => exact ⟨hd, hs.suffix (List.suffix_cons _ _), rfl, by simp [State.Unclosed]⟩
  | content hc =>
    obtain ⟨hd, hsound, hresume, hunclosed⟩ := hs
    exact ⟨hd, hsound, by simp [hresume], by simpa using hunclosed.step (.inl hc)⟩
  | closer => exact hs
  | tag =>
    obtain ⟨hd, hsound, hresume, hunclosed⟩ := hs
    exact hsound.suffix ((List.suffix_cons _ _).trans (hresume ▸ List.suffix_append_of_suffix
      (List.suffix_cons _ _)))
  | noCloser hc =>
    obtain ⟨hd, hsound, hresume, hunclosed⟩ := hs
    exact ⟨hd, hsound, by simp [hresume], by simpa using hunclosed.step (.inr (by simpa using hc))⟩
  | insideEnd | closingEnd =>
    obtain ⟨-, hsound, hresume, hunclosed⟩ := hs
    exact hunclosed.sound_add hsound hresume rfl

/-- A step makes the symbols that its state lets expect, and leaves the others to be expected. -/
lemma expected_eq (hs : state.Consistent h rest) :
    state.expected rest = found ++ state'.expected rest' := by
  cases hstep with
  | char hc => exact leftmost_of_char (leadingTag?_of_ne hc rest')
  | brace => rfl
  | @lone rest c hc =>
    refine leftmost_of_char ?_
    cases hd : Delimiter.ofOpenChar? c with
    | none => simp [leadingTag?, hd]
    | some d =>
      obtain rfl := Delimiter.ofOpenChar?_eq_some_iff.mp hd
      simp [leadingTag?_opener, hs d (hc d rfl) rest List.suffix_rfl]
  | @opener _ d hd =>
    have htag := leadingTag?_opener d rest'
    simp only [State.expected]
    cases hsplit : splitCloser? d rest' with
    | none =>
      rw [hsplit] at htag
      rw [leftmost_of_char htag]
      rfl
    | some split =>
      rw [hsplit] at htag
      rw [leftmost_of_tag htag]
      rfl
  | @content _ d content resume c hc =>
    simp only [State.expected, splitCloser?_cons (.inl hc)]
    cases splitCloser? d rest' <;> simp
  | closer => rfl
  | @tag _ d content resume =>
    simp only [State.expected, splitCloser?_closer, List.append_nil, List.singleton_append]
  | @noCloser rest d content resume c hc =>
    have hc' : d.closeChar ≠ d.closeChar ∨ (c :: rest).head? ≠ some '}' :=
      .inr (by simpa using hc)
    simp only [State.expected, splitCloser?_cons hc']
    cases splitCloser? d (c :: rest) <;> simp
  | insideEnd | closingEnd => rfl

end Step

/-- What every state makes of the rest of a text when the budget covers its cost. -/
lemma symbolsFrom_eq (n : ℕ) (h : Hopeless) (state : State) (rest : Text)
    (hn : state.cost (fun _ => 1) h rest ≤ n) (hs : state.Consistent h rest) :
    symbolsFrom n h state rest = state.expected rest := by
  induction n generalizing h state rest with
  | zero =>
    have := state.cost_pos (fun _ => 1) h rest
    omega
  | succ n ih =>
    rw [symbolsFrom_succ]
    rcases hnext : next h state rest with ⟨found, _ | ⟨h', state', rest'⟩⟩
    · exact (expected_of_next_eq_none hnext).symm
    · have hstep := step_of_next hnext
      have hcost := hstep.cost_le (fun _ => one_pos) hs.fits
      rw [hstep.expected_eq hs, ← ih h' state' rest' (by omega) (hstep.consistent hs)]

/-- The scanner reads a text by the plain rule. -/
theorem symbols_eq_leftmost (s : Text) : symbols s = leftmost s := by
  refine symbolsFrom_eq _ _ .plain s (cost_le_budget s) ?_
  · intro d hd
    cases d <;> simp [Hopeless.has] at hd

@[simp] lemma symbols_nil : symbols [] = [] := by simp [symbols_eq_leftmost]

lemma symbols_cons_of_ne {c : Char} (hc : c ≠ '{') (s : Text) :
    symbols (c :: s) = .char c :: symbols s := by
  simp only [symbols_eq_leftmost, leftmost_of_char (leadingTag?_of_ne hc s)]

lemma splitCloser?_of_not_mem (d : Delimiter) {content : Text} (h : '}' ∉ content) (rest : Text) :
    splitCloser? d (content ++ d.closeChar :: '}' :: rest) = some (content, rest) := by
  induction content with
  | nil => exact splitCloser?_closer d rest
  | cons c content ih =>
    simp only [List.mem_cons, not_or] at h
    have hhead : c ≠ d.closeChar ∨
        (content ++ d.closeChar :: '}' :: rest).head? ≠ some '}' := by
      cases content with
      | nil =>
        cases d
        · exact .inl (Ne.symm h.1)
        · exact .inr (by simp [Delimiter.closeChar])
        · exact .inr (by simp [Delimiter.closeChar])
      | cons b content =>
        right
        simpa using fun hb : b = '}' => h.2 (by simp [hb])
    rw [List.cons_append, splitCloser?_cons hhead, ih h.2]
    rfl

/-- A closed text: in front of any other text it is read as it is alone. -/
def Reads (s : Text) (l : List Symbol) : Prop :=
  ∀ rest, symbols (s ++ rest) = l ++ symbols rest

namespace Reads

lemma symbols_eq {s : Text} {l : List Symbol} (h : Reads s l) : symbols s = l := by
  simpa using h []

lemma textOf_eq {s : Text} {l : List Symbol} (h : Reads s l) : Symbol.textOf l = s := by
  rw [← h.symbols_eq, textOf_symbols]

lemma nil : Reads [] [] := fun _ => rfl

lemma append {s t : Text} {l m : List Symbol} (hs : Reads s l) (ht : Reads t m) :
    Reads (s ++ t) (l ++ m) := by
  intro rest
  rw [List.append_assoc, hs, ht, List.append_assoc]

/-- Text without an opening brace is plain, whatever stands around it. -/
lemma of_not_mem {s : Text} (h : '{' ∉ s) : Reads s (s.map .char) := by
  intro rest
  induction s with
  | nil => rfl
  | cons c s ih =>
    simp only [List.mem_cons, not_or] at h
    rw [List.cons_append, symbols_cons_of_ne (Ne.symm h.1), ih h.2]
    rfl

/-- A tag without a closing brace in its content is read as this tag. -/
lemma finished (d : Delimiter) {content : Text} (h : '}' ∉ content) :
    Reads (finished d content).text [finished d content] := by
  intro rest
  have htag : leadingTag? ((Scan.finished d content).text ++ rest) = some (d, content, rest) := by
    have := leadingTag?_opener d (content ++ d.closeChar :: '}' :: rest)
    rw [splitCloser?_of_not_mem d h] at this
    simpa [Scan.finished, Symbol.text] using this
  rw [symbols_eq_leftmost, leftmost_of_tag htag, symbols_eq_leftmost]
  rfl

end Reads

lemma splitCloser?_of_some {d : Delimiter} {s content after : Text}
    (h : splitCloser? d s = some (content, after)) (rest : Text) :
    splitCloser? d (content ++ d.closeChar :: '}' :: rest) = some (content, rest) := by
  induction s generalizing content with
  | nil => simp [splitCloser?] at h
  | cons a s ih =>
    cases s with
    | nil => simp [splitCloser?] at h
    | cons b s =>
      rw [splitCloser?] at h
      split at h
      · simp only [Option.some.injEq, Prod.mk.injEq] at h
        rw [← h.1]
        exact splitCloser?_closer d rest
      · rename_i hab
        obtain ⟨⟨c, t⟩, hs, hc⟩ := Option.map_eq_some_iff.mp h
        simp only [Prod.mk.injEq] at hc
        obtain ⟨rfl, rfl⟩ := hc
        have hhead : (c ++ d.closeChar :: '}' :: rest).head? = some b := by
          have hsplit := congrArg List.head? (splitCloser?_eq_some hs)
          cases c with
          | nil => simpa using hsplit.symm
          | cons x c => simpa using hsplit.symm
        rw [List.cons_append, splitCloser?_cons, ih hs]
        · rfl
        · rw [hhead]
          by_cases ha : a = d.closeChar
          · exact .inr fun hb => hab ⟨ha, Option.some.inj hb⟩
          · exact .inl ha

/-- A tag that is found anywhere is found wherever its text stands. -/
lemma leadingTag?_finished {s content after : Text} {d : Delimiter}
    (h : leadingTag? s = some (d, content, after)) (rest : Text) :
    leadingTag? ((finished d content).text ++ rest) = some (d, content, rest) := by
  have hs := leadingTag?_eq_some h
  have hsplit : splitCloser? d (content ++ d.closeChar :: '}' :: after) =
      some (content, after) := by
    subst hs
    have := leadingTag?_opener d (content ++ d.closeChar :: '}' :: after)
    change leadingTag? ('{' :: d.openChar :: (content ++ d.closeChar :: '}' :: after)) = _ at h
    rw [this] at h
    obtain ⟨⟨c, t⟩, hc, heq⟩ := Option.map_eq_some_iff.mp h
    simp only [Prod.mk.injEq, true_and] at heq
    obtain ⟨rfl, rfl⟩ := heq
    exact hc
  have := leadingTag?_opener d (content ++ d.closeChar :: '}' :: rest)
  rw [splitCloser?_of_some hsplit] at this
  simpa [finished, Symbol.text] using this

lemma reads_of_leadingTag? {s content after : Text} {d : Delimiter}
    (h : leadingTag? s = some (d, content, after)) :
    Reads (finished d content).text [finished d content] := by
  intro rest
  rw [symbols_eq_leftmost, leftmost_of_tag (leadingTag?_finished h rest), symbols_eq_leftmost]
  rfl

/-- A tag at the start of a text stands there also in front of other text. -/
lemma leadingTag?_append {s content after : Text} {d : Delimiter}
    (h : leadingTag? s = some (d, content, after)) (rest : Text) :
    leadingTag? (s ++ rest) = some (d, content, after ++ rest) := by
  have happ : s ++ rest = (finished d content).text ++ (after ++ rest) := by
    rw [leadingTag?_eq_some h]
    simp [finished, Symbol.text]
  rw [happ, leadingTag?_finished h]

/-- A content without the first character of the closer ends at the first closer. -/
lemma splitCloser?_of_closeChar_not_mem {d : Delimiter} {content : Text}
    (h : d.closeChar ∉ content) (rest : Text) :
    splitCloser? d (content ++ d.closeChar :: '}' :: rest) = some (content, rest) := by
  induction content with
  | nil => exact splitCloser?_closer d rest
  | cons c content ih =>
    simp only [List.mem_cons, not_or] at h
    rw [List.cons_append, splitCloser?_cons (.inl (Ne.symm h.1)), ih h.2]
    rfl

/-- A tag without the first character of its closer in its content is read as this tag. -/
lemma Reads.finished_of_closeChar {d : Delimiter} {content : Text} (h : d.closeChar ∉ content) :
    Reads (Scan.finished d content).text [Scan.finished d content] := by
  have htag : leadingTag? ('{' :: d.openChar :: (content ++ [d.closeChar, '}'])) =
      some (d, content, []) := by
    rw [leadingTag?_opener, splitCloser?_of_closeChar_not_mem h]
    rfl
  exact reads_of_leadingTag? htag

/-- What is read is a character or a tag that is read alike wherever it stands. -/
lemma mem_symbols {s : Text} {y : Symbol} (hy : y ∈ symbols s) :
    (∃ c, y = .char c) ∨ ∃ d content, y = finished d content ∧ Reads y.text [y] := by
  rw [symbols_eq_leftmost] at hy
  induction hn : s.length using Nat.strong_induction_on generalizing s with
  | _ n ih =>
    cases htag : leadingTag? s with
    | none =>
      cases s with
      | nil => simp at hy
      | cons c s =>
        rw [leftmost_of_char htag] at hy
        rcases List.mem_cons.mp hy with rfl | hy
        · exact .inl ⟨c, rfl⟩
        · exact ih s.length (by rw [← hn]; simp) hy rfl
    | some found =>
      obtain ⟨d, content, after⟩ := found
      rw [leftmost_of_tag htag] at hy
      rcases List.mem_cons.mp hy with rfl | hy
      · exact .inr ⟨d, content, rfl, reads_of_leadingTag? htag⟩
      · refine ih after.length ?_ hy rfl
        rw [← hn, leadingTag?_eq_some htag]
        simp only [List.length_cons, List.length_append]
        omega

lemma text_ne_nil_of_mem_symbols {s : Text} {y : Symbol} (hy : y ∈ symbols s) :
    y.text ≠ [] := by
  rcases mem_symbols hy with ⟨c, rfl⟩ | ⟨d, content, rfl, -⟩
  · simp [Symbol.text]
  · simp [finished, Symbol.text]

end Scan
end Stencil
