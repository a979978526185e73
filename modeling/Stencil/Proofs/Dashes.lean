import Stencil.Proofs.Settled

/-! Trim markers among other dashes. A marker loses its dash and stays as a delimiter, which reads
as a marker again if another dash stands at it. Main statement: where no two dashes stand at one
delimiter the text that is left holds no marker. -/
namespace Stencil

/-- The ways in which a trim marker of a kind of tag, its dash taken away, leaves a marker: a second
dash, or a dash in the delimiter beside it. -/
def Delimiter.doubledMarkers (d : Delimiter) : List Text :=
  [['{', d.openChar, '-', '-'], ['-', '-', d.closeChar, '}'],
    ['{', '{', '-', d.openChar, '-'], ['-', d.closeChar, '-', '}', '}']]

namespace Whitespace

/-- No two dashes stand at the same delimiter. -/
def DashesApart (s : Text) : Prop := ∀ d : Delimiter, ∀ m ∈ d.doubledMarkers, ¬m <:+: s

namespace Mark

/-- Without their dashes the first marks read as a marker. -/
def clashes : List Mark → Bool
  | .char a :: .char b :: .char c :: _ =>
    a == '{' && opens b && c == '-' || a == '-' && closes b && c == '}'
  | .char a :: .char b :: .closer d :: _ => a == '-' && closes b && d == '}'
  | .char a :: .closer _ :: _ => a == '-'
  | .opener d :: .char b :: rest =>
    b == '-' || d == '{' && opens b && rest.head? == some (.char '-')
  | _ => false

/-- Marks that nowhere clash. -/
inductive Apart : List Mark → Prop
  | nil : Apart []
  | cons {m l} : m.isProper = true → clashes (m :: l) = false → Apart l → Apart (m :: l)

lemma clashes_trimAfter (m : Mark) (l : List Mark) :
    clashes (m :: trimAfter .full l) = clashes (m :: l) := by
  cases l with
  | nil => rfl
  | cons n l =>
    cases n with
    | closer d => cases m <;> rfl
    | opener d => cases m <;> rfl
    | char b =>
      cases l with
      | nil => rfl
      | cons n l => cases m <;> cases n <;> rfl

lemma startsWithOpener_trimBefore (l : List Mark) :
    startsWithOpener (trimBefore l) = true ∨ (trimBefore l).head? = l.head? := by
  fun_induction trimBefore l with
  | case1 => exact .inr rfl
  | case2 c rest _ h _ => exact .inl (by simp_all)
  | case3 | case4 => exact .inr rfl

/-- After a character only the next mark counts. -/
lemma clashes_congr {m : Mark} {b : Char} {l l' : List Mark} (h : l.head? = l'.head?) :
    clashes (m :: .char b :: l) = clashes (m :: .char b :: l') := by
  cases l with
  | nil =>
    cases l' with
    | nil => rfl
    | cons n l' => cases h
  | cons n l =>
    cases l' with
    | nil => cases h
    | cons n' l' =>
      obtain rfl := Option.some.inj h
      cases m <;> cases n <;> rfl

/-- An opener that moves up clashes with nothing before it. -/
lemma clashes_of_startsWithOpener {m : Mark} {l : List Mark} (h : startsWithOpener l = true) :
    clashes (m :: l) = false := by
  unfold startsWithOpener at h
  split at h
  · cases m <;> rfl
  · cases h

lemma clashes_char_of_startsWithOpener {m : Mark} {b : Char} {l l' : List Mark}
    (h : startsWithOpener l = true) (hclash : clashes (m :: .char b :: l') = false) :
    clashes (m :: .char b :: l) = false := by
  unfold startsWithOpener at h
  split at h
  · cases m with
    | char a | closer d => rfl
    | opener d => simp_all [clashes]
  · cases h

lemma clashes_trimBefore {m : Mark} {l : List Mark} (h : clashes (m :: l) = false) :
    clashes (m :: trimBefore l) = false := by
  cases l with
  | nil => exact h
  | cons n l =>
    cases n with
    | opener d | closer d => cases m <;> exact h
    | char b =>
      rw [trimBefore]
      split
      · rename_i hdrop
        exact clashes_of_startsWithOpener (Bool.and_eq_true_iff.mp hdrop).2
      · cases startsWithOpener_trimBefore l with
        | inl hstart => exact clashes_char_of_startsWithOpener hstart h
        | inr hhead => rwa [clashes_congr hhead]

/-- A closer comes from one mark, or from two of which the first is a character. -/
lemma eq_of_closes {l : List Mark} {b : Char} (hb : closes b = true) {rest : Text}
    (hl : l.flatMap text = b :: '}' :: rest) :
    (∃ n l', l = .char b :: n :: l' ∧ (n = .char '}' ∨ n = .closer '}')) ∨
      ∃ l', l = .closer b :: l' := by
  cases l with
  | nil => cases hl
  | cons m l =>
    cases m with
    | opener d =>
      obtain ⟨rfl, -⟩ := List.cons.inj hl
      cases hb
    | closer d =>
      obtain ⟨rfl, -⟩ := List.cons.inj hl
      exact .inr ⟨l, rfl⟩
    | char c =>
      obtain ⟨rfl, hrest⟩ := List.cons.inj hl
      left
      cases l with
      | nil => cases hrest
      | cons n l =>
        cases n with
        | opener d => cases (List.cons.inj hrest).1
        | char e | closer e =>
          obtain ⟨rfl, -⟩ := List.cons.inj hrest
          exact ⟨_, l, rfl, by simp⟩

namespace Apart
variable {l : List Mark}

lemma tail {m : Mark} (h : Apart (m :: l)) : Apart l := by
  cases h
  assumption

/-- Another tail may follow a mark that clashes no more with it. -/
lemma cons_of_imp {m : Mark} {l' : List Mark} (h : Apart (m :: l)) (hl : Apart l')
    (hclash : clashes (m :: l) = false → clashes (m :: l') = false) : Apart (m :: l') := by
  cases h with
  | cons hm hm' _ => exact .cons hm (hclash hm') hl

/-- What a marker takes away stands behind it. -/
lemma trimAfter (h : Apart l) (appetite : Appetite) : Apart (trimAfter appetite l) := by
  have hkeep {m : Mark} {rest : List Mark} (h : Apart (m :: rest))
      (ih : Apart rest → Apart (Mark.trimAfter .full rest)) :
      Apart (m :: Mark.trimAfter .full rest) :=
    h.cons_of_imp (ih h.tail) (by rw [clashes_trimAfter]; exact id)
  fun_induction Mark.trimAfter appetite l with
  | case1 => exact .nil
  | case2 _ _ _ ih | case3 _ _ _ _ ih | case4 _ _ _ _ _ ih | case6 _ _ _ ih => exact ih h.tail
  | case5 _ _ _ _ _ ih | case7 _ _ _ ih | case9 _ _ _ _ _ _ ih => exact hkeep h ih
  | case8 _ _ _ ih => exact h.cons_of_imp (ih h.tail) fun _ => rfl

/-- What a marker takes away stands before it. -/
lemma trimBefore (h : Apart l) : Apart (trimBefore l) := by
  fun_induction Mark.trimBefore l with
  | case1 => exact .nil
  | case2 _ _ _ _ ih => exact ih h.tail
  | case3 _ _ _ _ ih | case4 _ _ _ ih => exact h.cons_of_imp (ih h.tail) clashes_trimBefore

/-- A dash is a character. -/
lemma eq_of_dash (h : Apart l) {rest : Text} (hl : l.flatMap text = '-' :: rest) :
    ∃ l', l = .char '-' :: l' ∧ l'.flatMap text = rest := by
  cases h with
  | nil => cases hl
  | @cons m l hm _ _ =>
    cases m with
    | char c =>
      obtain ⟨rfl, hrest⟩ := List.cons.inj hl
      exact ⟨l, rfl, hrest⟩
    | opener d => cases hl
    | closer d =>
      obtain ⟨rfl, -⟩ := List.cons.inj hl
      cases hm

lemma eq_of_char_dash (h : Apart l) {b : Char} {rest : Text}
    (hl : l.flatMap text = b :: '-' :: rest) : ∃ l', l = .char b :: .char '-' :: l' := by
  cases h with
  | nil => cases hl
  | @cons m l hm _ htail =>
    cases m with
    | char c =>
      obtain ⟨rfl, hrest⟩ := List.cons.inj hl
      obtain ⟨l', rfl, -⟩ := htail.eq_of_dash hrest
      exact ⟨l', rfl⟩
    | opener d =>
      obtain ⟨rfl, -⟩ := List.cons.inj (List.cons.inj hl).2
      cases hm
    | closer d => cases (List.cons.inj (List.cons.inj hl).2).1

/-- Apart from each other, marks make up a text without markers. -/
lemma scan_flatMap_text (h : Apart l) :
    scan (l.flatMap text) = (l.flatMap text).map .char := by
  induction h with
  | nil => rfl
  | @cons m l hm hclash hl ih =>
    rw [List.flatMap_cons, List.map_append, ← ih]
    cases m with
    | char c =>
      apply scan_cons
      · rintro b _ rest hrest ⟨rfl, hb, rfl⟩
        obtain ⟨l', rfl⟩ := hl.eq_of_char_dash hrest
        simp [clashes, hb] at hclash
      · rintro b _ rest hrest ⟨rfl, hb, rfl⟩
        rcases eq_of_closes hb hrest with ⟨n, l', rfl, rfl | rfl⟩ | ⟨l', rfl⟩ <;>
          simp [clashes, hb] at hclash
    | opener d =>
      have hinner : scan (d :: l.flatMap text) = .char d :: scan (l.flatMap text) := by
        apply scan_cons
        · rintro b _ rest hrest ⟨rfl, hb, rfl⟩
          obtain ⟨l', rfl⟩ := hl.eq_of_char_dash hrest
          simp [clashes, hb] at hclash
        · rintro b _ rest - ⟨rfl, -, -⟩
          cases hm
      change scan ('{' :: d :: l.flatMap text) = .char '{' :: .char d :: scan (l.flatMap text)
      rw [scan_cons, hinner]
      · rintro b _ rest hrest ⟨-, -, rfl⟩
        obtain ⟨l', rfl, -⟩ := hl.eq_of_dash (List.cons.inj hrest).2
        simp [clashes] at hclash
      · simp
    | closer d =>
      have hinner : scan ('}' :: l.flatMap text) = .char '}' :: scan (l.flatMap text) :=
        scan_cons (by simp) (by simp)
      change scan (d :: '}' :: l.flatMap text) = .char d :: .char '}' :: scan (l.flatMap text)
      rw [scan_cons, hinner]
      · rintro b _ rest - ⟨rfl, -, -⟩
        cases hm
      · rintro b _ rest - ⟨rfl, -, -⟩
        cases hm

end Apart

/-- Marks of a text clash only where two dashes stand at one delimiter. -/
lemma clashes_scan {s : Text} (h : DashesApart s) : clashes (scan s) = false := by
  rw [Bool.eq_false_iff]
  intro hclash
  generalize hl : scan s = l at hclash
  unfold clashes at hclash
  split at hclash
  · obtain ⟨-, s, rfl, hs⟩ := eq_written_append_of_scan hl
    obtain ⟨-, s, rfl, hs'⟩ := eq_written_append_of_scan hs
    obtain ⟨-, s, rfl, -⟩ := eq_written_append_of_scan hs'
    simp only [Bool.or_eq_true, Bool.and_eq_true, beq_iff_eq] at hclash
    rcases hclash with ⟨⟨rfl, hb⟩, rfl⟩ | ⟨⟨rfl, hb⟩, rfl⟩
    · cases (scan_opener hb s).symm.trans hl
    · cases (scan_closer hb s).symm.trans hl
  · obtain ⟨-, s, rfl, hs⟩ := eq_written_append_of_scan hl
    obtain ⟨-, s, rfl, hs'⟩ := eq_written_append_of_scan hs
    obtain ⟨-, s, rfl, -⟩ := eq_written_append_of_scan hs'
    simp only [Bool.and_eq_true, beq_iff_eq] at hclash
    obtain ⟨⟨rfl, hb⟩, rfl⟩ := hclash
    obtain ⟨d, rfl⟩ := exists_of_closes hb
    exact h d ['-', d.closeChar, '-', '}', '}'] (by simp [Delimiter.doubledMarkers]) ⟨[], s, rfl⟩
  · obtain ⟨-, s, rfl, hs⟩ := eq_written_append_of_scan hl
    obtain ⟨hb, s, rfl, -⟩ := eq_written_append_of_scan hs
    obtain ⟨d, rfl⟩ := exists_of_closes hb
    obtain rfl := beq_iff_eq.mp hclash
    exact h d ['-', '-', d.closeChar, '}'] (by simp [Delimiter.doubledMarkers]) ⟨[], s, rfl⟩
  · obtain ⟨hb, s, rfl, hs⟩ := eq_written_append_of_scan hl
    obtain ⟨-, s, rfl, hs'⟩ := eq_written_append_of_scan hs
    simp only [Bool.or_eq_true, Bool.and_eq_true, beq_iff_eq] at hclash
    rcases hclash with rfl | ⟨⟨rfl, hb'⟩, hdash⟩
    · obtain ⟨d, rfl⟩ := exists_of_opens hb
      exact h d ['{', d.openChar, '-', '-'] (by simp [Delimiter.doubledMarkers]) ⟨[], s, rfl⟩
    · obtain ⟨l, rfl⟩ := List.head?_eq_some_iff.mp hdash
      obtain ⟨-, s, rfl, -⟩ := eq_written_append_of_scan hs'
      obtain ⟨d, rfl⟩ := exists_of_opens hb'
      exact h d ['{', '{', '-', d.openChar, '-'] (by simp [Delimiter.doubledMarkers]) ⟨[], s, rfl⟩
  · cases hclash

lemma apart_scan {s : Text} (h : DashesApart s) : Apart (scan s) := by
  have hclash := clashes_scan h
  induction hl : scan s generalizing s with
  | nil => exact .nil
  | cons m l ih =>
    obtain ⟨hm, rest, rfl, rfl⟩ := eq_written_append_of_scan hl
    have hrest : DashesApart rest :=
      fun d n hn hin => h d n hn (hin.trans (List.suffix_append _ _).isInfix)
    rw [hl] at hclash
    exact .cons hm hclash (ih hrest (clashes_scan hrest) rfl)

end Mark

/-- Markers that are apart from other dashes leave none. -/
lemma markerFree_applyMarkers {s : Text} (h : DashesApart s) : MarkerFree (applyMarkers s) := by
  apply Mark.markerFree_of_scan
  rw [applyMarkers, ((Mark.apart_scan h).trimAfter .full).trimBefore.scan_flatMap_text]
  intro m hm
  obtain ⟨c, -, rfl⟩ := List.mem_map.mp hm
  exact ⟨c, rfl⟩

end Whitespace
end Stencil
