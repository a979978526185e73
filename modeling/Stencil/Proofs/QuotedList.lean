import Stencil.Proofs.Arguments

/-! The two readers of quoted lists against a written form that neither of them mentions.
Main statement: the reader that checks accepts the written lists and no other trimmed text, and the
reader that collects gives back what was written, or, on any text at all, what stands between the
quotes that it pairs. -/
namespace Stencil

/-- No text that ends in a blank ends in something else than white space. -/
lemma Blank.eq_nil_of_append {s : Text} (b : Blank)
    (h : ∀ c ∈ (s ++ b.text).getLast?, Text.isWhite c = false) : b.text = [] := by
  by_contra hne
  obtain ⟨c, hc⟩ := Option.ne_none_iff_exists'.mp (mt List.getLast?_eq_none_iff.mp hne)
  have hlast : c ∈ (s ++ b.text).getLast? := by rwa [List.getLast?_append_of_ne_nil _ hne]
  have hwhite := b.white c (List.mem_of_getLast? hc)
  exact absurd (h c hlast) (by simp [hwhite])

namespace QuotedList
variable {s rest item : Text} {l : List Text}

section Items
variable {a : Text}

lemma splitFirst?_quote (ha : '"' ∉ a) (s : Text) :
    Text.splitFirst? (· == '"') (a ++ '"' :: s) = some (a, s) :=
  Text.splitFirst?_append (fun c hc => by simpa using fun h : c = '"' => ha (h ▸ hc)) rfl s

lemma splitFirst?_quote_eq_none (ha : '"' ∉ a) : Text.splitFirst? (· == '"') a = none :=
  Text.splitFirst?_eq_none fun c hc => by simpa using fun h : c = '"' => ha (h ▸ hc)

lemma items_of_not_mem (ha : '"' ∉ a) : items a = [] := by
  rw [items]
  split
  · rfl
  · rename_i h
    cases (splitFirst?_quote_eq_none ha).symm.trans h

/-- One round of the loop. -/
lemma items_quote (ha : '"' ∉ a) (s : Text) : items (a ++ '"' :: s) =
    match Text.splitFirst? (· == '"') s with
    | none => []
    | some ([], _) => items s
    | some (c :: item, later) => (c :: item) :: items later := by
  rw [items]
  split
  · rename_i h
    cases (splitFirst?_quote ha s).symm.trans h
  · rename_i h
    obtain ⟨-, rfl⟩ := Prod.mk.inj (Option.some.inj ((splitFirst?_quote ha s).symm.trans h))
    split <;> rename_i h <;> rw [h]

/-- What stands before the first quote is passed over. -/
lemma items_append (ha : '"' ∉ a) (s : Text) : items (a ++ s) = items s := by
  by_cases hs : '"' ∈ s
  · obtain ⟨b, t, rfl, hb⟩ := List.eq_append_cons_of_mem hs
    rw [← List.append_assoc, items_quote (by simp [ha, hb]), items_quote hb]
  · rw [items_of_not_mem hs, items_of_not_mem (by simp [ha, hs])]

/-- Two quotes in a row enclose no item, and the second one may open the next. -/
lemma items_quote_quote (s : Text) : items ('"' :: '"' :: s) = items ('"' :: s) :=
  items_quote List.not_mem_nil ('"' :: s)

lemma items_wrap (hne : item ≠ []) (hquote : '"' ∉ item) (s : Text) :
    items (Quote.double.wrap item ++ s) = item :: items s := by
  have htext : Quote.double.wrap item ++ s = '"' :: (item ++ '"' :: s) := by
    simp [Quote.wrap, Quote.char]
  have hround := items_quote List.not_mem_nil (item ++ '"' :: s)
  rw [splitFirst?_quote hquote] at hround
  obtain ⟨c, item, rfl⟩ := List.exists_cons_of_ne_nil hne
  exact (congrArg items htext).trans hround

end Items

/-- What is read first is a quoted text, and only white space around the rest is lost. -/
lemma eq_of_splitQuoted? (h : splitQuoted? s = some (item, rest)) :
    item ≠ [] ∧ '"' ∉ item ∧ ∃ a b : Blank,
      s = Quote.double.wrap item ++ (a.text ++ rest ++ b.text) := by
  unfold splitQuoted? at h
  split at h
  · rename_i s
    split at h
    · cases h
    · rename_i a t hne hsplit
      obtain ⟨rfl, rfl⟩ : a = item ∧ t.trim = rest := by simpa using h
      obtain ⟨c, hc, rfl, ha⟩ := Text.splitFirst?_eq_some hsplit
      obtain rfl : c = '"' := by simpa using hc
      refine ⟨hne, fun hq => by simpa using ha _ hq, ?_⟩
      obtain ⟨b, b', ht⟩ := t.exists_trim
      exact ⟨b, b', by rw [← ht]; simp [Quote.wrap, Quote.char]⟩
    · cases h
  · cases h

/-- The texts are written one after the other, each between double quotes, with a comma between two
of them and white space on both sides of the comma. -/
inductive Lists : List Text → Text → Prop
  | single {item : Text} (hne : item ≠ []) (hquote : '"' ∉ item) :
      Lists [item] (Quote.double.wrap item)
  | cons {item s : Text} {l : List Text} (hne : item ≠ []) (hquote : '"' ∉ item) (b a : Blank)
      (h : Lists l s) :
      Lists (item :: l) (Quote.double.wrap item ++ (b.text ++ ',' :: (a.text ++ s)))

namespace Lists

lemma ne_nil (h : Lists l s) : s ≠ [] := by
  cases h <;> simp [Quote.wrap]

lemma isTrimmed (h : Lists l s) : s.IsTrimmed := by
  induction h with
  | single => exact Quote.double.isTrimmed_wrap _
  | @cons item s l _ _ b a h ih =>
    have := (Quote.double.isTrimmed_wrap item).append (by simp [Quote.wrap]) ih h.ne_nil
      (b.text ++ ',' :: a.text)
    simpa using this

lemma isList_eq_true (h : Lists l s) : isList s = true := by
  induction h with
  | single hne hquote => exact isList_wrap hne hquote
  | cons hne hquote b a h ih => rwa [isList_wrap_comma hne hquote b a h.isTrimmed h.ne_nil]

lemma items_eq (h : Lists l s) : items s = l := by
  induction h with
  | @single item hne hquote =>
    have := items_wrap hne hquote []
    rwa [List.append_nil, items_of_not_mem List.not_mem_nil] at this
  | @cons item s l hne hquote b a _ ih =>
    have hblank (b : Blank) : '"' ∉ b.text := fun h => absurd (b.white _ h) (by decide)
    have hskip : '"' ∉ b.text ++ ',' :: a.text := by simp [hblank]
    have hrest : b.text ++ ',' :: (a.text ++ s) = (b.text ++ ',' :: a.text) ++ s := by simp
    rw [items_wrap hne hquote, hrest, items_append hskip, ih]

end Lists

/-- By induction along the checks: every item that is read leaves a shorter text, and this text
begins with an item because the white space behind the comma is skipped. -/
lemma exists_lists (hs : ∀ c ∈ s.getLast?, Text.isWhite c = false) (h : isList s = true) :
    ∃ l, Lists l s := by
  induction hn : s.length using Nat.strong_induction_on generalizing s with
  | _ n ih =>
    rw [isList_eq] at h
    cases hsplit : splitQuoted? s with
    | none => simp [hsplit] at h
    | some read =>
      obtain ⟨item, rest⟩ := read
      have hlt := length_of_splitQuoted? hsplit
      obtain ⟨hne, hquote, b, e, rfl⟩ := eq_of_splitQuoted? hsplit
      have he : e.text = [] := by
        refine e.eq_nil_of_append (s := Quote.double.wrap item ++ (b.text ++ rest)) ?_
        rwa [List.append_assoc]
      rw [he, List.append_nil] at hs hlt hn ⊢
      simp only [hsplit] at h
      cases rest with
      | nil =>
        rw [List.append_nil] at hs ⊢
        rw [b.eq_nil_of_append hs, List.append_nil]
        exact ⟨[item], .single hne hquote⟩
      | cons c rest =>
        by_cases hc : c = ','
        · subst hc
          obtain ⟨a, ha⟩ := Text.exists_trimStart rest
          have hlast : ∀ c ∈ (Text.trimStart rest).getLast?, Text.isWhite c = false := by
            intro c hc
            refine hs c ?_
            have hne' : Text.trimStart rest ≠ [] := by
              rintro hnil
              simp [hnil] at hc
            rw [ha, ← List.cons_append, ← List.append_assoc, ← List.append_assoc,
              List.getLast?_append_of_ne_nil _ hne']
            exact hc
          have hshorter : (Text.trimStart rest).length < n := by
            have := congrArg List.length ha
            simp only [List.length_append, List.length_cons] at this hlt hn
            omega
          obtain ⟨l, hl⟩ := ih _ hshorter hlast h rfl
          refine ⟨item :: l, ?_⟩
          rw [ha]
          exact .cons hne hquote b a hl
        · split at h <;> simp_all

/-- Which texts are collected: a run of quotes opens an item with its last one, as an empty item is
none and the quote that would close it opens the next. -/
inductive Collects : List Text → Text → Prop
  | stop {a b : Text} (k : ℕ) (ha : '"' ∉ a) (hb : '"' ∉ b) :
      Collects [] (a ++ (List.replicate k '"' ++ b))
  | item {a item s : Text} {l : List Text} (k : ℕ) (ha : '"' ∉ a) (hne : item ≠ [])
      (hquote : '"' ∉ item) (h : Collects l s) :
      Collects (item :: l) (a ++ (List.replicate k '"' ++ (Quote.double.wrap item ++ s)))

/-- Of a run of quotes only the last one matters. -/
lemma items_replicate (k : ℕ) (s : Text) :
    items ('"' :: (List.replicate k '"' ++ s)) = items ('"' :: s) := by
  induction k with
  | zero => rfl
  | succ k ih => rwa [List.replicate_succ, List.cons_append, items_quote_quote]

namespace Collects

lemma items_eq (h : Collects l s) : items s = l := by
  induction h with
  | @stop a b k ha hb =>
    rw [items_append ha]
    cases k with
    | zero => exact items_of_not_mem hb
    | succ k =>
      have hopen := items_quote List.not_mem_nil b
      rw [splitFirst?_quote_eq_none hb] at hopen
      rw [List.replicate_succ, List.cons_append, items_replicate]
      exact hopen
  | @item a item s l k ha hne hquote _ ih =>
    -- the run and the quote in front of the item are one run
    have hrun : items (List.replicate k '"' ++ (Quote.double.wrap item ++ s)) =
        items (Quote.double.wrap item ++ s) := by
      cases k with
      | zero => rfl
      | succ k =>
        rw [List.replicate_succ, List.cons_append, items_replicate]
        exact items_quote_quote _
    rw [items_append ha, hrun, items_wrap hne hquote, ih]

end Collects

lemma exists_run (s : Text) : ∃ k t, s = List.replicate k '"' ++ t ∧ t.head? ≠ some '"' := by
  induction s with
  | nil => exact ⟨0, [], rfl, by simp⟩
  | cons c s ih =>
    by_cases hc : c = '"'
    · obtain ⟨k, t, rfl, ht⟩ := ih
      exact ⟨k + 1, t, by rw [hc, List.replicate_succ, List.cons_append], ht⟩
    · exact ⟨0, c :: s, rfl, by simpa using hc⟩

/-- Every text has items: it is cut before the first quote, behind the run of quotes there, and at
the next quote. -/
lemma exists_collects (s : Text) : ∃ l, Collects l s := by
  induction hn : s.length using Nat.strong_induction_on generalizing s with
  | _ n ih =>
    by_cases hs : '"' ∈ s
    · obtain ⟨a, t, rfl, ha⟩ := List.eq_append_cons_of_mem hs
      obtain ⟨k, u, rfl, hu⟩ := exists_run t
      by_cases hmem : '"' ∈ u
      · obtain ⟨item, rest, rfl, hquote⟩ := List.eq_append_cons_of_mem hmem
        have hne : item ≠ [] := by
          rintro rfl
          exact hu rfl
        have hshorter : rest.length < n := by
          simp only [List.length_append, List.length_cons] at hn
          omega
        obtain ⟨l, hl⟩ := ih _ hshorter rest rfl
        -- the last quote of the run is the one that opens the item
        have htext : a ++ '"' :: (List.replicate k '"' ++ (item ++ '"' :: rest)) =
            a ++ (List.replicate k '"' ++ (Quote.double.wrap item ++ rest)) := by
          rw [← List.cons_append, ← List.replicate_succ, List.replicate_succ']
          simp [Quote.wrap, Quote.char]
        exact ⟨item :: l, htext ▸ .item k ha hne hquote hl⟩
      · exact ⟨[], .stop (k + 1) ha hmem⟩
    · exact ⟨[], by simpa using Collects.stop 0 hs List.not_mem_nil⟩

lemma items_eq_iff : items s = l ↔ Collects l s := by
  obtain ⟨l', hl'⟩ := exists_collects s
  constructor
  · intro h
    obtain rfl : l = l' := by rw [← h, hl'.items_eq]
    exact hl'
  · exact Collects.items_eq

/-- On a trimmed text the reader that checks accepts the written lists and nothing else, and the one
that collects then gives back just what was written. What it gives on any other text are the items
that Collects describes, each of them nonempty and between two quotes. -/
theorem readers_agree (hs : s.IsTrimmed) :
    (isList s = true ↔ ∃ l, Lists l s) ∧ (∀ l, Lists l s → items s = l) ∧
      ∀ t l, items t = l ↔ Collects l t :=
  ⟨⟨exists_lists hs.2, fun ⟨_, h⟩ => h.isList_eq_true⟩, fun _ => Lists.items_eq,
    fun _ _ => items_eq_iff⟩

theorem readers_agree_two : isList "\"a\" , \"b\"".toList = true ∧
    items "\"a\" , \"b\"".toList = ["a".toList, "b".toList] ∧
    Collects [" b ".toList, "c".toList] "a\"\" b \"\"c\" \"d".toList := by
  have hlists : Lists ["a".toList, "b".toList] "\"a\" , \"b\"".toList :=
    .cons (by decide) (by decide) ⟨[' '], by simp [Text.isWhite]⟩ ⟨[' '], by simp [Text.isWhite]⟩
      (.single (by decide) (by decide))
  obtain ⟨haccepts, hitems, hcollects⟩ := readers_agree hlists.isTrimmed
  exact ⟨haccepts.mpr ⟨_, hlists⟩, hitems _ hlists, (hcollects _ _).mp (by decide +kernel)⟩

end QuotedList
end Stencil
