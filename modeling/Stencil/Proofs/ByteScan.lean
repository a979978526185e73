import Stencil.Outline
import Stencil.Proofs.Reading
import Stencil.Proofs.TokenStream
import Stencil.Proofs.Utf8

/-! The naive scan of the bytes of a text: from a byte on, the first opener that has a closer of
its own kind behind it makes a tag up to the first such closer, and so on from the end of the tag.
Main statement: the tokens of a text are those of the naive scan. -/
namespace Stencil

namespace Text

lemma byteSize_eq_zero {s : Text} : s.byteSize = 0 ↔ s = [] := by
  cases s with
  | nil => simp
  | cons c s => simp [c.utf8Size_pos.ne']

/-- Two ways to part a text, of which the second leaves more in front. -/
lemma exists_of_append_eq {a b c d : Text} (h : a ++ b = c ++ d) (hle : a.byteSize ≤ c.byteSize) :
    ∃ x, c = a ++ x ∧ b = x ++ d := by
  rcases List.append_eq_append_iff.mp h with ⟨x, hc, hb⟩ | ⟨x, ha, hd⟩
  · exact ⟨x, hc, hb⟩
  · have hx : x = [] := by
      rw [ha, byteSize_append] at hle
      exact byteSize_eq_zero.mp (by omega)
    exact ⟨[], by simp [ha, hx], by simp [hd, hx]⟩

end Text

namespace Delimiter

lemma openChar_lt (d : Delimiter) : d.openChar.toNat < 0x80 := by cases d <;> decide

lemma closeChar_lt (d : Delimiter) : d.closeChar.toNat < 0x80 := by cases d <;> decide

def openByte : Delimiter → UInt8
  | .value => 0x7B
  | .control => 0x25
  | .comment => 0x23

def closeByte : Delimiter → UInt8
  | .value => 0x7D
  | .control => 0x25
  | .comment => 0x23

lemma openByte_eq (d : Delimiter) : d.openByte = Utf8.ascii d.openChar := by cases d <;> rfl

lemma closeByte_eq (d : Delimiter) : d.closeByte = Utf8.ascii d.closeChar := by cases d <;> rfl

lemma openByte_injective : Function.Injective openByte := by
  intro d e h
  cases d <;> cases e <;> first | rfl | exact absurd h (by decide)

end Delimiter

section NaiveScan
variable (bytes : List UInt8)

/-- The two bytes of an opener stand at byte `i`. -/
def OpensAt (d : Delimiter) (i : ℕ) : Prop :=
  bytes[i]? = some 0x7B ∧ bytes[i+1]? = some d.openByte

/-- The two bytes of a closer stand at byte `j`. -/
def ClosesAt (d : Delimiter) (j : ℕ) : Prop :=
  bytes[j]? = some d.closeByte ∧ bytes[j+1]? = some 0x7D

/-- An opener with a closer of its own kind behind it. -/
def TagAt (i : ℕ) : Prop := ∃ d, OpensAt bytes d i ∧ ∃ j, i+2 ≤ j ∧ ClosesAt bytes d j

/-- The tokens that the naive scan finds from a byte on. -/
inductive NaiveScan : (start : ℕ) → List Token → Prop
  | done {p} (h : ∀ i, p ≤ i → ¬TagAt bytes i) : NaiveScan p []
  | tag {p i j d content rest} (hi : IsLeast {i | p ≤ i ∧ TagAt bytes i} i)
    (hd : OpensAt bytes d i) (hj : IsLeast {j | i+2 ≤ j ∧ ClosesAt bytes d j} j)
    (hcontent : (bytes.take j).drop (i+2) = Utf8.encode content) (hrest : NaiveScan (j+2) rest) :
    NaiveScan p (⟨Tag.ofContent d content, i, j+2-i, 1 + (bytes.take i).count 0x0A⟩ :: rest)

variable {bytes}

lemma OpensAt.unique {d e : Delimiter} {i : ℕ} (hd : OpensAt bytes d i) (he : OpensAt bytes e i) :
    d = e :=
  Delimiter.openByte_injective (Option.some.inj (hd.2.symm.trans he.2))

namespace NaiveScan
variable {p : ℕ} {found other : List Token}

/-- The naive scan leaves no choice. -/
lemma unique (h : NaiveScan bytes p found) (h' : NaiveScan bytes p other) : found = other := by
  induction h generalizing other with
  | done hnone =>
    cases h' with
    | done _ => rfl
    | tag hi => exact absurd hi.1.2 (hnone _ hi.1.1)
  | tag hi hd hj hcontent _ ih =>
    cases h' with
    | done hnone => exact absurd hi.1.2 (hnone _ hi.1.1)
    | tag hi' hd' hj' hcontent' hrest' =>
      obtain rfl := hi.unique hi'
      obtain rfl := hd.unique hd'
      obtain rfl := hj.unique hj'
      obtain rfl := Utf8.encode_injective (hcontent.symm.trans hcontent')
      rw [ih hrest']

/-- Where no tag starts, the scan can start further on. -/
lemma of_le {q : ℕ} (hpq : p ≤ q) (hnone : ∀ i, p ≤ i → i < q → ¬TagAt bytes i)
    (h : NaiveScan bytes q found) : NaiveScan bytes p found := by
  have hle (i : ℕ) (hpi : p ≤ i) (hi : TagAt bytes i) : q ≤ i :=
    not_lt.mp fun hlt => hnone i hpi hlt hi
  cases h with
  | done h => exact .done fun i hpi hi => h i (hle i hpi hi) hi
  | tag hi hd hj hcontent hrest =>
    refine .tag ⟨⟨hpq.trans hi.1.1, hi.1.2⟩, fun i hpi => ?_⟩ hd hj hcontent hrest
    exact hi.2 ⟨hle i hpi.1 hpi.2, hpi.2⟩

end NaiveScan
end NaiveScan

section Text
variable {s before rest : Text} {d : Delimiter} {i j : ℕ}

/-- Two bytes of ASCII characters are these characters in a row. -/
lemma getElem?_encode_pair {a b : Char} (ha : a.toNat < 0x80) (hb : b.toNat < 0x80) :
    (Utf8.encode s)[i]? = some (Utf8.ascii a) ∧ (Utf8.encode s)[i+1]? = some (Utf8.ascii b) ↔
      ∃ before after, s = before ++ a :: b :: after ∧ before.byteSize = i := by
  have hsize : a.utf8Size = 1 := by
    rw [← String.length_utf8EncodeChar, Utf8.utf8EncodeChar_of_lt ha]
    rfl
  rw [Utf8.getElem?_encode_ascii ha, Utf8.getElem?_encode_ascii hb]
  constructor
  · rintro ⟨⟨before, after, rfl, rfl⟩, before', after', hs, hi⟩
    have hbefore : (before ++ [a]).byteSize = before'.byteSize := by simp [hi, hsize]
    obtain ⟨x, hx, hafter⟩ := Text.exists_of_append_eq (a := before ++ [a]) (b := after)
      (by simpa using hs) hbefore.le
    obtain rfl : x = [] := by
      rw [hx, Text.byteSize_append (before ++ [a])] at hbefore
      exact Text.byteSize_eq_zero.mp (by omega)
    exact ⟨before, after', by simpa using hafter, rfl⟩
  · rintro ⟨before, after, rfl, rfl⟩
    exact ⟨⟨before, b :: after, rfl, rfl⟩, before ++ [a], after, by simp, by simp [hsize]⟩

lemma opensAt_iff : OpensAt (Utf8.encode s) d i ↔
    ∃ before after, s = before ++ '{' :: d.openChar :: after ∧ before.byteSize = i := by
  rw [← getElem?_encode_pair (by decide) d.openChar_lt, ← d.openByte_eq]
  rfl

lemma closesAt_iff : ClosesAt (Utf8.encode s) d j ↔
    ∃ before after, s = before ++ d.closeChar :: '}' :: after ∧ before.byteSize = j := by
  rw [← getElem?_encode_pair d.closeChar_lt (by decide), ← d.closeByte_eq]
  rfl

lemma byteSize_opener (d : Delimiter) : Text.byteSize ['{', d.openChar] = 2 := by
  cases d <;> decide

lemma byteSize_closer (d : Delimiter) : Text.byteSize [d.closeChar, '}'] = 2 := by
  cases d <;> decide

open Scan (splitCloser? leadingTag?)

/-- The first closer stands before every other. -/
lemma exists_splitCloser? (d : Delimiter) (content after : Text) :
    ∃ first later, splitCloser? d (content ++ d.closeChar :: '}' :: after) = some (first, later) ∧
      first.byteSize ≤ content.byteSize := by
  induction content with
  | nil => exact ⟨[], after, Scan.splitCloser?_closer d after, le_rfl⟩
  | cons c content ih =>
    by_cases hc : c ≠ d.closeChar ∨ (content ++ d.closeChar :: '}' :: after).head? ≠ some '}'
    · obtain ⟨first, later, hsplit, hle⟩ := ih
      refine ⟨c :: first, later, ?_, by simpa using hle⟩
      rw [List.cons_append, Scan.splitCloser?_cons hc, hsplit]
      rfl
    · push Not at hc
      obtain ⟨rfl, hhead⟩ := hc
      obtain ⟨more, hmore⟩ := List.head?_eq_some_iff.mp hhead
      exact ⟨[], more, by rw [List.cons_append, hmore, Scan.splitCloser?_closer], Nat.zero_le _⟩

/-- The closers behind a part of a text are those that its rest is split at. -/
lemma exists_of_closesAt (hj : before.byteSize ≤ j)
    (h : ClosesAt (Utf8.encode (before ++ rest)) d j) :
    ∃ content after, splitCloser? d rest = some (content, after) ∧
      before.byteSize + content.byteSize ≤ j := by
  obtain ⟨before', after, hs, rfl⟩ := closesAt_iff.mp h
  obtain ⟨x, rfl, rfl⟩ := Text.exists_of_append_eq hs hj
  obtain ⟨content, later, hsplit, hle⟩ := exists_splitCloser? d x after
  exact ⟨content, later, hsplit, by rw [Text.byteSize_append]; omega⟩

lemma closesAt_of_splitCloser? {content after : Text}
    (h : splitCloser? d rest = some (content, after)) :
    ClosesAt (Utf8.encode (before ++ rest)) d (before.byteSize + content.byteSize) := by
  rw [Scan.splitCloser?_eq_some h]
  exact closesAt_iff.mpr ⟨before ++ content, after, by simp, by simp⟩

/-- A tag starts at a byte if the text has a leading tag from there on. -/
lemma tagAt_iff : TagAt (Utf8.encode s) i ↔
    ∃ before rest, s = before ++ rest ∧ before.byteSize = i ∧ (leadingTag? rest).isSome := by
  constructor
  · rintro ⟨d, hd, j, hij, hj⟩
    obtain ⟨before, after, rfl, rfl⟩ := opensAt_iff.mp hd
    refine ⟨before, _, rfl, rfl, ?_⟩
    have hs : before ++ '{' :: d.openChar :: after = (before ++ ['{', d.openChar]) ++ after := by
      simp
    rw [hs] at hj
    obtain ⟨content, later, hsplit, -⟩ := exists_of_closesAt
      (by rw [Text.byteSize_append, byteSize_opener]; exact hij) hj
    rw [Scan.leadingTag?_opener, hsplit]
    rfl
  · rintro ⟨before, rest, rfl, rfl, htag⟩
    obtain ⟨⟨d, content, after⟩, htag⟩ := Option.isSome_iff_exists.mp htag
    have hrest := Scan.leadingTag?_eq_some htag
    refine ⟨d, opensAt_iff.mpr ⟨before, content ++ d.closeChar :: '}' :: after, ?_, rfl⟩,
      before.byteSize + 2 + content.byteSize, by omega, closesAt_iff.mpr
        ⟨before ++ '{' :: d.openChar :: content, after, ?_, ?_⟩⟩
    · rw [hrest]
      simp
    · rw [hrest]
      simp
    · have := byteSize_opener d
      simp only [Text.byteSize_append, Text.byteSize_cons, Text.byteSize_nil] at *
      omega

/-- No tag starts in a character that leads no tag. -/
lemma not_tagAt_char {c : Char} (hc : leadingTag? (c :: rest) = none) (hi : before.byteSize ≤ i)
    (hlt : i < before.byteSize + c.utf8Size) : ¬TagAt (Utf8.encode (before ++ c :: rest)) i := by
  intro h
  obtain ⟨before', rest', hs, rfl, htag⟩ := tagAt_iff.mp h
  obtain ⟨x, rfl, hrest⟩ := Text.exists_of_append_eq hs hi
  cases x with
  | nil =>
    obtain rfl : c :: rest = rest' := hrest
    rw [hc] at htag
    cases htag
  | cons a x =>
    obtain ⟨rfl, -⟩ := List.cons.inj hrest
    simp only [Text.byteSize_append, Text.byteSize_cons] at hlt
    omega

/-- The tag that leads what is left of a text is the next one of the naive scan. -/
lemma naiveScan_tag {content after : Text} {found : List Token}
    (htag : leadingTag? rest = some (d, content, after))
    (h : NaiveScan (Utf8.encode (before ++ rest))
      (before ++ (Scan.finished d content).text).byteSize found) :
    NaiveScan (Utf8.encode (before ++ rest)) before.byteSize
      (⟨Tag.ofContent d content, before.byteSize, (Scan.finished d content).text.byteSize,
        1 + before.count '\n'⟩ :: found) := by
  have hrest := Scan.leadingTag?_eq_some htag
  have hopener := byteSize_opener d
  have hcloser := byteSize_closer d
  have hfront : (before ++ ['{', d.openChar]).byteSize = before.byteSize + 2 := by
    rw [Text.byteSize_append, hopener]
  have hparts : before ++ rest =
      (before ++ ['{', d.openChar]) ++ (content ++ d.closeChar :: '}' :: after) := by
    simp [hrest]
  have hsplit : splitCloser? d (content ++ d.closeChar :: '}' :: after) = some (content, after) := by
    have hleading := Scan.leadingTag?_opener d (content ++ d.closeChar :: '}' :: after)
    rw [hrest] at htag
    obtain ⟨⟨a, b⟩, hab, heq⟩ := Option.map_eq_some_iff.mp (hleading.symm.trans htag)
    cases heq
    exact hab
  have hstop : before.byteSize + 2 + content.byteSize + 2 =
      (before ++ (Scan.finished d content).text).byteSize := by
    simp only [Scan.finished, Symbol.text, List.cons_append, Text.byteSize_append,
      Text.byteSize_cons, Text.byteSize_nil] at *
    omega
  have hlength : before.byteSize + 2 + content.byteSize + 2 - before.byteSize =
      (Scan.finished d content).text.byteSize := by
    rw [hstop, Text.byteSize_append]
    omega
  have hline : ((Utf8.encode (before ++ rest)).take before.byteSize).count 0x0A =
      before.count '\n' := by
    rw [Utf8.take_encode]
    exact Utf8.count_encode (c := '\n') (by decide) before
  rw [← hstop] at h
  rw [← hlength, ← hline]
  refine .tag ⟨⟨le_rfl, tagAt_iff.mpr ⟨before, rest, rfl, rfl, by rw [htag]; rfl⟩⟩,
    fun i hi => hi.1⟩ ?_ ⟨⟨by omega, ?_⟩, fun j hj => ?_⟩ ?_ h
  · exact opensAt_iff.mpr ⟨before, content ++ d.closeChar :: '}' :: after, by simp [hrest], rfl⟩
  · rw [hparts, ← hfront]
    exact closesAt_of_splitCloser? hsplit
  · have hclose := hj.2
    rw [hparts] at hclose
    obtain ⟨first, later, hfirst, hle⟩ := exists_of_closesAt (hfront ▸ hj.1) hclose
    rw [hsplit] at hfirst
    cases hfirst
    rwa [hfront] at hle
  · have htake : before ++ rest =
        (before ++ ['{', d.openChar] ++ content) ++ d.closeChar :: '}' :: after := by
      simp [hrest]
    rw [htake, ← hfront, ← Text.byteSize_append, Utf8.take_encode, Utf8.encode_append,
      ← Utf8.length_encode, List.drop_left]

/-- From any of its places on, a text has the tokens of its naive scan. -/
lemma naiveScan_locate (before rest : Text) :
    NaiveScan (Utf8.encode (before ++ rest)) before.byteSize
      (Token.locate before.byteSize (1 + before.count '\n') (Scan.leftmost rest)) := by
  induction hn : rest.length using Nat.strong_induction_on generalizing before rest with
  | _ n ih =>
    cases htag : leadingTag? rest with
    | none =>
      cases rest with
      | nil =>
        rw [Scan.leftmost_nil]
        refine .done fun i hi h => ?_
        obtain ⟨before', rest', hs, rfl, hlater⟩ := tagAt_iff.mp h
        obtain ⟨x, -, hrest⟩ := Text.exists_of_append_eq hs hi
        rw [(List.append_eq_nil_iff.mp hrest.symm).2] at hlater
        cases hlater
      | cons c rest =>
        have hlater := ih rest.length (by rw [← hn]; simp) (before ++ [c]) rest rfl
        rw [List.append_assoc, List.singleton_append] at hlater
        have hsize : (before ++ [c]).byteSize = before.byteSize + c.utf8Size := by simp
        have hline : 1 + (before ++ [c]).count '\n' =
            if c = '\n' then 1 + before.count '\n' + 1 else 1 + before.count '\n' := by
          rw [List.count_append, List.count_singleton]
          split <;> simp_all [Nat.add_assoc]
        rw [Scan.leftmost_of_char htag, Token.locate, ← hline, ← hsize]
        refine .of_le (by omega) (fun i hi hlt => ?_) hlater
        exact not_tagAt_char htag hi (hsize ▸ hlt)
    | some found =>
      obtain ⟨d, content, after⟩ := found
      have hrest := Scan.leadingTag?_eq_some htag
      have htext : rest = (Scan.finished d content).text ++ after := by
        simp [hrest, Scan.finished, Symbol.text]
      have hlater := ih after.length (by rw [← hn, hrest]; simp; omega)
        (before ++ (Scan.finished d content).text) after rfl
      rw [List.append_assoc, ← htext, List.count_append, ← Nat.add_assoc,
        Text.byteSize_append] at hlater
      rw [Scan.leftmost_of_tag htag]
      exact naiveScan_tag htag (by rw [Text.byteSize_append]; exact hlater)

end Text

namespace Token

/-- A token covers a part of the text that the symbols were read from. -/
lemma exists_of_mem_locate {start line : ℕ} {symbols : List Symbol} {t : Token}
    (h : t ∈ locate start line symbols) : ∃ before written after,
      Symbol.textOf symbols = before ++ written ++ after ∧ t.start = start + before.byteSize ∧
        t.length = written.byteSize := by
  induction symbols generalizing start line with
  | nil => cases h
  | cons symbol symbols ih =>
    cases symbol with
    | char c =>
      obtain ⟨before, written, after, htext, hstart, hlength⟩ := ih h
      exact ⟨c :: before, written, after, by simp [htext, Symbol.text],
        by rw [hstart, Text.byteSize_cons]; omega, hlength⟩
    | tag tag own =>
      rcases List.mem_cons.mp h with rfl | h
      · exact ⟨[], own, Symbol.textOf symbols, by simp [Symbol.text], rfl, rfl⟩
      · obtain ⟨before, written, after, htext, hstart, hlength⟩ := ih h
        exact ⟨own ++ before, written, after, by simp [htext, Symbol.text],
          by rw [hstart, Text.byteSize_append]; omega, hlength⟩

end Token

/-- The tokens of a text are those of the naive scan of its bytes. They start and end between
characters, and the scan that finds them comes to its end within the budget, in at most eight steps
for each byte and eight more. -/
theorem tokens_eq_naiveScan (s : Text) :
    (∀ found, NaiveScan (Utf8.encode s) 0 found ↔ found = tokens s) ∧
    (∀ t ∈ tokens s, ∃ before written after, s = before ++ written ++ after ∧
      t.start = before.byteSize ∧ t.length = written.byteSize) ∧
    ∃ steps ≤ 8*(Utf8.encode s).length + 8,
      Scan.countedFrom (Scan.budget s) {} .plain s = some (Scan.symbols s, steps) := by
  have hscan : NaiveScan (Utf8.encode s) 0 (tokens s) := by
    rw [tokens_eq_locate, Scan.symbols_eq_leftmost]
    exact naiveScan_locate [] s
  refine ⟨fun found => ⟨fun h => h.unique hscan, fun h => h ▸ hscan⟩, fun t ht => ?_, ?_⟩
  · rw [tokens_eq_locate] at ht
    obtain ⟨before, written, after, htext, hstart, hlength⟩ := Token.exists_of_mem_locate ht
    rw [Scan.textOf_symbols] at htext
    exact ⟨before, written, after, htext, by rw [hstart, Nat.zero_add], hlength⟩
  · rw [Utf8.length_encode]
    exact Scan.exists_counted s

end Stencil
