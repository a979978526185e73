import Stencil.Proofs.WrittenTag

/-! White space around and between words. A text is spelled by words if it is these words with
white space between them, and trimming takes away just the white space at its ends. -/
namespace Stencil

namespace Text

lemma trimStart_append {a : Text} (ha : ∀ c ∈ a, isWhite c = true) (s : Text) :
    trimStart (a ++ s) = trimStart s :=
  List.dropWhile_append_of_pos ha

lemma trimEnd_append {a t : Text} (ha : ∀ c ∈ a.getLast?, isWhite c = false)
    (ht : ∀ c ∈ t, isWhite c = true) : trimEnd (a ++ t) = a := by
  have hdrop : t.reverse.dropWhile isWhite = [] :=
    List.dropWhile_eq_nil_iff.mpr fun c hc => ht c (List.mem_reverse.mp hc)
  have htrim := trimEnd_of_getLast ha
  rw [trimEnd_eq] at htrim
  rw [trimEnd_eq, List.reverse_append, List.dropWhile_append, hdrop]
  exact htrim

lemma ne_nil_of_isWordOf {p : Char → Bool} {s : Text} (h : s.isWordOf p = true) : s ≠ [] := by
  rintro rfl
  cases h

lemma of_mem_isWordOf {p : Char → Bool} {s : Text} (h : s.isWordOf p = true) {c : Char}
    (hc : c ∈ s) : p c = true := by
  rw [isWordOf, Bool.and_eq_true, List.all_eq_true] at h
  exact h.2 c hc

lemma isWordOf_of_forall {p : Char → Bool} {s : Text} (hne : s ≠ [])
    (h : ∀ c ∈ s, p c = true) : s.isWordOf p = true := by
  rw [isWordOf, Bool.and_eq_true, List.all_eq_true]
  exact ⟨by simpa using hne, h⟩

/-- A text without white space that is not empty. -/
def IsWord (s : Text) : Prop := s ≠ [] ∧ ∀ c ∈ s, isWhite c = false

instance (s : Text) : Decidable (IsWord s) :=
  decidable_of_iff (s.isWordOf fun c => !isWhite c) (by simp [IsWord, isWordOf])

lemma isWord_of_isWordOf {p : Char → Bool} (hp : ∀ c, p c = true → isWhite c = false) {s : Text}
    (h : s.isWordOf p = true) : IsWord s :=
  ⟨ne_nil_of_isWordOf h, fun c hc => hp c (of_mem_isWordOf h hc)⟩

lemma isWord_of_isSimplePath {path : Text} (h : path.isSimplePath = true) : IsWord path := by
  refine isWord_of_isWordOf (fun c hc => ?_) h
  rcases Bool.or_eq_true_iff.mp hc with hc | hc
  · exact isWhite_of_isWordChar hc
  · obtain rfl := beq_iff_eq.mp hc
    decide

lemma IsWord.isTrimmed {s : Text} (h : IsWord s) : IsTrimmed s :=
  ⟨fun c hc => h.2 c (List.mem_of_mem_head? hc), fun c hc => h.2 c (List.mem_of_getLast? hc)⟩

lemma IsWord.append {s t : Text} (hs : IsWord s) (ht : ∀ c ∈ t, isWhite c = false) :
    IsWord (s ++ t) :=
  ⟨List.append_ne_nil_of_left_ne_nil hs.1 t, fun c hc =>
    (List.mem_append.mp hc).elim (hs.2 c) (ht c)⟩

lemma nonwhite_append {t : Text} (ht : ∀ c ∈ t.getLast?, isWhite c = false) (hne : t ≠ [])
    (s : Text) : ∀ c ∈ (s ++ t).getLast?, isWhite c = false := by
  rwa [List.getLast?_append_of_ne_nil _ hne]

/-- The ends of a text are those of its parts at the ends. -/
lemma IsTrimmed.append {s t : Text} (hs : IsTrimmed s) (hne : s ≠ []) (ht : IsTrimmed t)
    (hne' : t ≠ []) (m : Text) : IsTrimmed (s ++ m ++ t) := by
  constructor
  · intro c hc
    rw [List.append_assoc, List.head?_append_of_ne_nil _ hne] at hc
    exact hs.1 c hc
  · exact nonwhite_append ht.2 hne' _

lemma isTrimmed_enclosed {a b : Char} (ha : isWhite a = false) (hb : isWhite b = false)
    (s : Text) : IsTrimmed (a :: s ++ [b]) := by
  constructor
  · intro c hc
    obtain rfl : a = c := Option.some.inj hc
    exact ha
  · intro c hc
    rw [List.getLast?_concat] at hc
    obtain rfl : b = c := Option.some.inj hc
    exact hb

end Text

/-- White space, or nothing. -/
structure Blank where
  text : Text
  white : ∀ c ∈ text, Text.isWhite c = true

/-- White space of at least one character. -/
structure Gap extends Blank where
  nonempty : text ≠ []

def Blank.none : Blank := ⟨[], by simp⟩

lemma Blank.eq_nil_or_gap (b : Blank) : b.text = [] ∨ ∃ g : Gap, g.text = b.text := by
  by_cases h : b.text = []
  · exact .inl h
  · exact .inr ⟨⟨b, h⟩, rfl⟩

namespace Gap
variable (g : Gap)

lemma exists_cons : ∃ c t, g.text = c :: t ∧ Text.isWhite c = true := by
  obtain ⟨c, t, h⟩ := List.exists_cons_of_ne_nil g.nonempty
  exact ⟨c, t, h, g.white c (h ▸ List.mem_cons_self)⟩

lemma startsWhite_append (s : Text) : Text.startsWhite (g.text ++ s) = true := by
  obtain ⟨c, t, h, hc⟩ := g.exists_cons
  rw [h]
  exact hc

lemma exists_of_startsWhite {s : Text} (h : s.startsWhite = true) :
    ∃ g : Gap, s = g.text ++ s.trimStart := by
  refine ⟨⟨⟨s.takeWhile Text.isWhite, fun c hc => List.mem_takeWhile_imp hc⟩, ?_⟩,
    List.takeWhile_append_dropWhile.symm⟩
  cases s with
  | nil => cases h
  | cons c s =>
    have hc : Text.isWhite c = true := h
    simp [hc]

end Gap

namespace Text

lemma trim_between {s : Text} (h : IsTrimmed s) (a b : Blank) :
    trim (a.text ++ s ++ b.text) = s := by
  rw [trim, List.append_assoc, trimStart_append a.white]
  cases s with
  | nil =>
    have hb : trimStart b.text = [] := List.dropWhile_eq_nil_iff.mpr b.white
    rw [List.nil_append, hb]
    rfl
  | cons c s =>
    rw [trimStart_of_head (by simpa using h.1)]
    exact trimEnd_append h.2 b.white

lemma trim_before {s : Text} (h : IsTrimmed s) (a : Blank) : trim (a.text ++ s) = s := by
  simpa [Blank.none] using trim_between h a .none

lemma trimStart_before {s : Text} (h : IsTrimmed s) (a : Blank) : trimStart (a.text ++ s) = s := by
  rw [trimStart_append a.white, trimStart_of_head h.1]

lemma exists_trimEnd_append (s : Text) : ∃ b : Blank, s = trimEnd s ++ b.text := by
  refine ⟨⟨(s.reverse.takeWhile isWhite).reverse, fun c hc =>
    List.mem_takeWhile_imp (List.mem_reverse.mp hc)⟩, ?_⟩
  rw [trimEnd_eq, ← List.reverse_append, List.takeWhile_append_dropWhile, List.reverse_reverse]

lemma exists_trimStart (s : Text) : ∃ b : Blank, s = b.text ++ s.trimStart :=
  ⟨⟨s.takeWhile isWhite, fun _ hc => List.mem_takeWhile_imp hc⟩,
    List.takeWhile_append_dropWhile.symm⟩

lemma exists_trim (s : Text) : ∃ a b : Blank, s = a.text ++ s.trim ++ b.text := by
  obtain ⟨a, hstart⟩ := s.exists_trimStart
  obtain ⟨b, hend⟩ := exists_trimEnd_append s.trimStart
  refine ⟨a, b, ?_⟩
  rwa [List.append_assoc, trim, ← hend]

lemma trimEnd_prefix (s : Text) : s.trimEnd <+: s := by
  obtain ⟨b, hb⟩ := exists_trimEnd_append s
  exact ⟨b.text, hb.symm⟩

lemma isTrimmed_trim (s : Text) : IsTrimmed s.trim := by
  refine ⟨fun c hc => ?_, getLast?_trimEnd _⟩
  obtain ⟨b, hb⟩ := exists_trimEnd_append s.trimStart
  refine head?_trimStart s c ?_
  rw [trim, Option.mem_def] at hc
  rw [hb, List.head?_append, hc]
  rfl

/-- The text is words of which `P` holds, with white space between them. -/
inductive Spells (P : Text → Prop) : Text → Prop
  | word {w} (hw : IsWord w) (h : P w) : Spells P w
  | cons {w s} (hw : IsWord w) (h : P w) (g : Gap) (hs : Spells P s) : Spells P (w ++ g.text ++ s)

namespace Spells
variable {P Q : Text → Prop} {s t : Text}

lemma mono (hs : Spells P s) (h : ∀ w, P w → Q w) : Spells Q s := by
  induction hs with
  | word hw hp => exact .word hw (h _ hp)
  | cons hw hp g _ ih => exact .cons hw (h _ hp) g ih

lemma append (hs : Spells P s) (g : Gap) (ht : Spells P t) : Spells P (s ++ g.text ++ t) := by
  induction hs with
  | word hw hp => exact .cons hw hp g ht
  | cons hw hp g' _ ih =>
    have := Spells.cons hw hp g' ih
    simpa using this

lemma ne_nil (hs : Spells P s) : s ≠ [] := by
  cases hs with
  | word hw => exact hw.1
  | cons hw _ g _ => exact fun h => hw.1 (by simp_all)

lemma isTrimmed (hs : Spells P s) : IsTrimmed s := by
  induction hs with
  | word hw => exact hw.isTrimmed
  | cons hw _ g hs ih => exact hw.isTrimmed.append hw.1 ih hs.ne_nil g.text

end Spells

end Text
end Stencil
