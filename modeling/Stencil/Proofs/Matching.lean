import Stencil.Nesting
import Mathlib.Data.List.TakeWhile
import Mathlib

/-! Matching on parts of a template. A list in which every construct of one kind is closed takes
no closer from what follows, so a template is cut into pieces part by part. -/
namespace Stencil

lemma Pair.occursIn_eq_false {p : Pair} {l : List Symbol} (h : ∀ s ∈ l, p.opens s = false) :
    p.occursIn l = false := by
  have hdrop : (l.dropWhile fun s => !p.opens s) = [] :=
    List.dropWhile_eq_nil_iff.mpr fun s hs => by simp [h s hs]
  rw [Pair.occursIn, hdrop]
  rfl

lemma Pair.opens_of_closes {p : Pair} {y : Symbol} (h : p.closes y = true) :
    p.opens y = false := by
  cases y with
  | char c => rfl
  | tag t written => cases t <;> cases p <;> first | rfl | cases h

/-- The way to the closer of an outer construct leads over the body of an inner one. -/
lemma splitClose?_append_of_eq {p : Pair} {depth : ℕ} {l body after : List Symbol}
    {closer : Symbol} (h : splitClose? p depth l = some (body, closer, after)) (outer : ℕ)
    (rest : List Symbol) :
    splitClose? p (outer + depth) (body ++ rest) =
      (splitClose? p outer rest).map fun found => (body ++ found.1, found.2) := by
  induction l generalizing depth body with
  | nil => simp at h
  | cons y l ih =>
    rw [splitClose?_cons] at h
    by_cases ho : p.opens y = true
    · rw [if_pos ho] at h
      obtain ⟨⟨b, c, a⟩, hfound, hb⟩ := Option.map_eq_some_iff.mp h
      simp only [Prod.mk.injEq] at hb
      obtain ⟨rfl, rfl, rfl⟩ := hb
      rw [List.cons_append, splitClose?_cons, if_pos ho, Nat.add_assoc, ih hfound, Option.map_map]
      rfl
    · rw [if_neg ho] at h
      by_cases hc : p.closes y = true
      · rw [if_pos hc] at h
        cases depth with
        | zero =>
          simp only [Option.some.injEq, Prod.mk.injEq] at h
          obtain ⟨rfl, rfl, rfl⟩ := h
          simp
        | succ depth =>
          obtain ⟨⟨b, c, a⟩, hfound, hb⟩ := Option.map_eq_some_iff.mp h
          simp only [Prod.mk.injEq] at hb
          obtain ⟨rfl, rfl, rfl⟩ := hb
          rw [List.cons_append, splitClose?_cons, if_neg ho, if_pos hc]
          change Option.map _ (splitClose? p (outer + depth) (b ++ rest)) = _
          rw [ih hfound, Option.map_map]
          rfl
      · rw [if_neg hc] at h
        obtain ⟨⟨b, c, a⟩, hfound, hb⟩ := Option.map_eq_some_iff.mp h
        simp only [Prod.mk.injEq] at hb
        obtain ⟨rfl, rfl, rfl⟩ := hb
        rw [List.cons_append, splitClose?_cons, if_neg ho, if_neg hc, ih hfound, Option.map_map]
        rfl

/-- A list that opens and closes constructs of one kind in pairs: looking for a closer passes
over it. -/
def Balanced (p : Pair) (l : List Symbol) : Prop :=
  ∀ depth rest, splitClose? p depth (l ++ rest) =
    (splitClose? p depth rest).map fun (body, closer, after) => (l ++ body, closer, after)

namespace Balanced
variable {p : Pair}

lemma nil : Balanced p [] := by
  intro depth rest
  simp

lemma append {l m : List Symbol} (hl : Balanced p l) (hm : Balanced p m) :
    Balanced p (l ++ m) := by
  intro depth rest
  rw [List.append_assoc, hl, hm, Option.map_map]
  congr 1
  funext found
  simp

lemma single {s : Symbol} (ho : p.opens s = false) (hc : p.closes s = false) :
    Balanced p [s] := by
  intro depth rest
  rw [List.singleton_append, splitClose?_cons, ho, hc]
  rfl

lemma cons {s : Symbol} {l : List Symbol} (ho : p.opens s = false) (hc : p.closes s = false)
    (hl : Balanced p l) : Balanced p (s :: l) := (single ho hc).append hl

lemma of_forall {l : List Symbol} (h : ∀ s ∈ l, p.opens s = false ∧ p.closes s = false) :
    Balanced p l := by
  induction l with
  | nil => exact nil
  | cons s l ih =>
    obtain ⟨ho, hc⟩ := h s List.mem_cons_self
    exact cons ho hc (ih fun t ht => h t (List.mem_cons_of_mem s ht))

lemma map_char (p : Pair) (s : Text) : Balanced p (s.map .char) := by
  apply of_forall
  intro y hy
  obtain ⟨c, -, rfl⟩ := List.mem_map.mp hy
  exact ⟨rfl, rfl⟩

/-- The closer behind a balanced body is the one that is looked for. -/
lemma splitClose?_eq {body : List Symbol} (hb : Balanced p body) {closer : Symbol}
    (ho : p.opens closer = false) (hc : p.closes closer = true) (rest : List Symbol) :
    splitClose? p 0 (body ++ closer :: rest) = some (body, closer, rest) := by
  rw [hb, splitClose?_cons, ho, hc]
  simp

lemma construct {opener closer : Symbol} {body : List Symbol} (hopen : p.opens opener = true)
    (hb : Balanced p body) (ho : p.opens closer = false) (hc : p.closes closer = true) :
    Balanced p (opener :: body ++ [closer]) := by
  intro depth rest
  rw [List.cons_append, List.cons_append, splitClose?_cons, hopen, if_pos rfl,
    List.append_assoc, hb, List.singleton_append, splitClose?_cons, ho, hc, Option.map_map]
  simp only [Bool.false_eq_true, if_false, if_true, Option.map_map]
  congr 1
  funext found
  simp

end Balanced

/-- A list that is cut into the same pieces whatever follows it. -/
def Cuts (p : Pair) (l : List Symbol) (pieces : List Piece) : Prop :=
  ∀ rest, Piece.split p (l ++ rest) = pieces ++ Piece.split p rest

namespace Cuts
variable {p : Pair}

lemma split_eq {l : List Symbol} {pieces : List Piece} (h : Cuts p l pieces) :
    Piece.split p l = pieces := by
  simpa using h []

lemma nil : Cuts p [] [] := fun _ => rfl

lemma append {l m : List Symbol} {a b : List Piece} (hl : Cuts p l a) (hm : Cuts p m b) :
    Cuts p (l ++ m) (a ++ b) := by
  intro rest
  rw [List.append_assoc, hl, hm, List.append_assoc]

lemma single {s : Symbol} (h : p.opens s = false) : Cuts p [s] [.single s] := by
  intro rest
  rw [List.singleton_append, Piece.split_cons, h]
  rfl

lemma singles {l : List Symbol} (h : ∀ s ∈ l, p.opens s = false) :
    Cuts p l (l.map .single) := by
  induction l with
  | nil => exact nil
  | cons s l ih =>
    exact (single (h s List.mem_cons_self)).append
      (ih fun t ht => h t (List.mem_cons_of_mem s ht))

lemma map_char (p : Pair) (s : Text) :
    Cuts p (s.map .char) ((s.map Symbol.char).map .single) := by
  apply singles
  intro y hy
  obtain ⟨c, -, rfl⟩ := List.mem_map.mp hy
  rfl

lemma construct {opener closer : Symbol} {body : List Symbol} (hopen : p.opens opener = true)
    (hb : Balanced p body) (ho : p.opens closer = false) (hc : p.closes closer = true) :
    Cuts p (opener :: body ++ [closer]) [.construct ⟨opener, body, closer⟩] := by
  intro rest
  have happ : opener :: body ++ [closer] ++ rest = opener :: (body ++ closer :: rest) := by simp
  rw [happ, Piece.split_cons, hopen, if_pos rfl, hb.splitClose?_eq ho hc]
  rfl

end Cuts

lemma flatMap_symbols_single (l : List Symbol) :
    (l.map Piece.single).flatMap Piece.symbols = l := by
  rw [List.flatMap_map]
  exact List.flatMap_singleton' l

namespace Piece

/-- Induction on the pieces that a list is cut into. -/
theorem split_induction {p : Pair} {motive : List Symbol → List Piece → Prop}
    (nil : motive [] [])
    (construct : ∀ opener body closer after, p.opens opener = true → p.closes closer = true →
      splitClose? p 0 (body ++ closer :: after) = some (body, closer, after) →
      motive after (split p after) →
      motive (opener :: (body ++ closer :: after))
        (.construct ⟨opener, body, closer⟩ :: split p after))
    (single : ∀ y l, (p.opens y = true → splitClose? p 0 l = none) → motive l (split p l) →
      motive (y :: l) (.single y :: split p l)) :
    ∀ l, motive l (split p l)
  | [] => by
    rw [split_nil]
    exact nil
  | y :: l => by
    have hsingle (h : p.opens y = true → splitClose? p 0 l = none) :=
      single y l h (split_induction nil construct single l)
    rw [split_cons]
    by_cases hopen : p.opens y = true
    · rw [if_pos hopen]
      cases hfound : splitClose? p 0 l with
      | none => exact hsingle fun _ => hfound
      | some found =>
        obtain ⟨body, closer, after⟩ := found
        obtain ⟨happ, hclose⟩ := eq_append_of_splitClose? hfound
        have : after.length < l.length := by
          rw [happ, List.length_append, List.length_cons]
          omega
        have hafter := split_induction nil construct single after
        subst happ
        exact construct y body closer after hopen hclose hfound hafter
    · rw [if_neg hopen]
      exact hsingle fun h => absurd h hopen
termination_by l => l.length
decreasing_by all_goals (simp only [List.length_cons]; omega)

/-- A construct stands between an opener and a closer of its kind. -/
lemma opens_of_mem_split {p : Pair} {c : Construct} (l : List Symbol)
    (h : .construct c ∈ split p l) : p.opens c.opener = true ∧ p.closes c.closer = true := by
  induction l using split_induction (p := p) with
  | nil => simp at h
  | single y l _ ih =>
    cases h with
    | tail _ h => exact ih h
  | construct opener body closer after hopen hclose _ ih =>
    cases h with
    | head => exact ⟨hopen, hclose⟩
    | tail _ h => exact ih h

end Piece

section
variable {p : Pair} {c : Construct} {l : List Symbol}

/-- A matched construct stands in the list. -/
lemma exists_append_of_mem_allConstructs (h : c ∈ allConstructs p l) :
    ∃ before after, l = before ++ c.symbols ++ after := by
  induction l with
  | nil => cases h
  | cons y l ih =>
    have hskip (h : c ∈ allConstructs p l) :
        ∃ before after, y :: l = before ++ c.symbols ++ after := by
      obtain ⟨before, after, rfl⟩ := ih h
      exact ⟨y :: before, after, rfl⟩
    rw [allConstructs_cons] at h
    split at h
    · rename_i body closer after hfound
      have hclose : splitClose? p 0 l = some (body, closer, after) := by
        split at hfound
        · exact hfound
        · cases hfound
      rcases List.mem_cons.mp h with rfl | h
      · refine ⟨[], after, ?_⟩
        rw [(eq_append_of_splitClose? hclose).1]
        simp [Construct.symbols]
      · exact hskip h
    · exact hskip h

/-- Symbols that open nothing begin no construct. -/
lemma allConstructs_append_of_forall
    (h : ∀ y ∈ l, p.opens y = false) (rest : List Symbol) :
    allConstructs p (l ++ rest) = allConstructs p rest := by
  induction l with
  | nil => rfl
  | cons y l ih =>
    rw [List.cons_append, allConstructs_cons, h y List.mem_cons_self]
    exact ih fun z hz => h z (List.mem_cons_of_mem y hz)

lemma opens_of_mem_allConstructs (h : c ∈ allConstructs p l) : p.opens c.opener = true := by
  induction l with
  | nil => cases h
  | cons y l ih =>
    rw [allConstructs_cons] at h
    split at h
    · rename_i hfound
      rcases List.mem_cons.mp h with rfl | h
      · by_contra hopen
        rw [if_neg hopen] at hfound
        cases hfound
      · exact ih h
    · exact ih h

lemma splitClose?_append {depth : ℕ} {body after : List Symbol} {closer : Symbol}
    (h : splitClose? p depth l = some (body, closer, after)) (m : List Symbol) :
    splitClose? p depth (l ++ m) = some (body, closer, after ++ m) := by
  obtain ⟨rfl, hclose⟩ := eq_append_of_splitClose? h
  have := splitClose?_append_of_eq h 0 (closer :: (after ++ m))
  rw [Nat.zero_add, splitClose?_cons, Pair.opens_of_closes hclose, if_neg (by simp),
    if_pos hclose] at this
  rw [List.append_assoc, List.cons_append, this]
  simp

lemma allConstructs_subset_append_right (before l : List Symbol) :
    allConstructs p l ⊆ allConstructs p (before ++ l) := by
  induction before with
  | nil => exact fun _ h => h
  | cons y before ih =>
    rw [List.cons_append, allConstructs_cons]
    split
    · exact List.subset_cons_of_subset _ ih
    · exact ih

lemma allConstructs_subset_append_left (l after : List Symbol) :
    allConstructs p l ⊆ allConstructs p (l ++ after) := by
  induction l with
  | nil => simp
  | cons y l ih =>
    rw [List.cons_append, allConstructs_cons, allConstructs_cons]
    by_cases hopen : p.opens y = true
    · rw [if_pos hopen, if_pos hopen]
      cases hfound : splitClose? p 0 l with
      | none =>
        dsimp only
        split
        · exact List.subset_cons_of_subset _ ih
        · exact ih
      | some found =>
        obtain ⟨body, closer, rest⟩ := found
        rw [splitClose?_append hfound]
        exact List.cons_subset_cons _ ih
    · rw [if_neg hopen, if_neg hopen]
      exact ih

/-- The constructs of a part are constructs of the whole. -/
lemma allConstructs_subset_append (before l after : List Symbol) :
    allConstructs p l ⊆ allConstructs p (before ++ l ++ after) := by
  rw [List.append_assoc]
  exact fun c hc => allConstructs_subset_append_right _ _ (allConstructs_subset_append_left _ _ hc)

/-- The constructs that a list is cut into are among all constructs. -/
lemma mem_allConstructs_of_mem_split (h : .construct c ∈ Piece.split p l) :
    c ∈ allConstructs p l := by
  induction l using Piece.split_induction (p := p) with
  | nil => simp at h
  | single y l hnone ih =>
    rw [allConstructs_cons]
    cases h with
    | tail _ h =>
      split
      · exact List.mem_cons_of_mem _ (ih h)
      · exact ih h
  | construct opener body closer after hopen _ hfound ih =>
    rw [allConstructs_cons, if_pos hopen, hfound]
    cases h with
    | head => exact List.mem_cons_self
    | tail _ h =>
      have hsub := allConstructs_subset_append (p := p) (body ++ [closer]) after []
      rw [List.append_nil, List.append_assoc] at hsub
      exact List.mem_cons_of_mem _ (hsub (ih h))

end

/-- A list whose matched loops turn into plain text give a second list, whatever follows. -/
def Hides (l hidden : List Symbol) : Prop :=
  ∃ pieces, Cuts .loop l pieces ∧ pieces.flatMap Piece.withoutTags = hidden

namespace Hides

lemma nil : Hides [] [] := ⟨[], .nil, rfl⟩

lemma append {l m l' m' : List Symbol} (hl : Hides l l') (hm : Hides m m') :
    Hides (l ++ m) (l' ++ m') := by
  obtain ⟨a, ha, rfl⟩ := hl
  obtain ⟨b, hb, rfl⟩ := hm
  exact ⟨a ++ b, ha.append hb, List.flatMap_append⟩

lemma of_forall {l : List Symbol} (h : ∀ s ∈ l, Pair.opens .loop s = false) : Hides l l := by
  refine ⟨l.map .single, .singles h, ?_⟩
  simp [List.flatMap_map, Piece.withoutTags]

lemma map_char (s : Text) : Hides (s.map .char) (s.map .char) := by
  apply of_forall
  intro y hy
  obtain ⟨c, -, rfl⟩ := List.mem_map.mp hy
  rfl

lemma single {s : Symbol} (h : Pair.opens .loop s = false) : Hides [s] [s] :=
  of_forall (by simpa using h)

lemma construct {opener closer : Symbol} {body : List Symbol}
    (hopen : Pair.opens .loop opener = true) (hb : Balanced .loop body)
    (ho : Pair.opens .loop closer = false) (hc : Pair.closes .loop closer = true) :
    Hides (opener :: body ++ [closer])
      ((opener.text ++ Symbol.textOf body ++ closer.text).map .char) := by
  refine ⟨_, .construct hopen hb ho hc, ?_⟩
  simp [Piece.withoutTags, Construct.text, Construct.symbols]

lemma hideLoops_eq {l hidden : List Symbol} (h : Hides l hidden) : hideLoops l = hidden := by
  obtain ⟨pieces, hcuts, rfl⟩ := h
  rw [Stencil.hideLoops_eq, hcuts.split_eq]

end Hides

namespace Clause

/-- A list that starts no branch when at least `least` conditionals are open around it. -/
def Passes (least : ℕ) (l : List Symbol) : Prop :=
  ∀ depth, least ≤ depth → ∀ final rest,
    split depth final (l ++ rest) =
      (l ++ (split depth final rest).1, (split depth final rest).2)

namespace Passes

lemma nil {least : ℕ} : Passes least [] := fun _ _ _ _ => rfl

lemma append {least : ℕ} {l m : List Symbol} (hl : Passes least l) (hm : Passes least m) :
    Passes least (l ++ m) := by
  intro depth hdepth final rest
  rw [List.append_assoc, hl depth hdepth, hm depth hdepth, List.append_assoc]

lemma mono {a b : ℕ} (hab : a ≤ b) {l : List Symbol} (h : Passes a l) : Passes b l :=
  fun depth hdepth => h depth (hab.trans hdepth)

/-- A symbol that is no part of a conditional. -/
lemma single {s : Symbol} (hheader : header? s = none)
    (ho : Pair.opens .conditional s = false) (hc : Pair.closes .conditional s = false)
    (least : ℕ) : Passes least [s] := by
  intro depth _ final rest
  rw [List.singleton_append, split, hheader, ite_self, depthAfter, ho, hc]
  rfl

lemma map_char (least : ℕ) (s : Text) : Passes least (s.map .char) := by
  induction s with
  | nil => exact nil
  | cons c s ih => exact (single (s := .char c) rfl rfl rfl least).append ih

/-- A header inside another conditional. -/
lemma header {s : Symbol} (ho : Pair.opens .conditional s = false)
    (hc : Pair.closes .conditional s = false) : Passes 1 [s] := by
  intro depth hdepth final rest
  have hzero : depth ≠ 0 := by omega
  rw [List.singleton_append, split, depthAfter, ho, hc]
  simp [hzero]

lemma construct {opener closer : Symbol} {body : List Symbol}
    (hopen : Pair.opens .conditional opener = true) (hopener : header? opener = none)
    (hb : Passes 1 body) (ho : Pair.opens .conditional closer = false)
    (hc : Pair.closes .conditional closer = true) (hcloser : header? closer = none) :
    Passes 0 (opener :: body ++ [closer]) := by
  intro depth _ final rest
  rw [List.cons_append, List.cons_append, split, hopener, ite_self]
  have hin : depthAfter depth opener = depth + 1 := by simp [depthAfter, hopen]
  have hout : depthAfter (depth + 1) closer = depth := by simp [depthAfter, ho, hc]
  simp only [hin]
  rw [List.append_assoc, hb (depth + 1) (by omega), List.singleton_append, split, hcloser,
    ite_self]
  simp only [hout]
  simp

lemma split_eq {l : List Symbol} (h : Passes 0 l) (final : Bool) :
    split 0 final l = (l, []) := by
  have := h 0 le_rfl final []
  rw [List.append_nil] at this
  rw [this]
  simp [split]

/-- A header outside nested conditionals ends the branch in front of it. -/
lemma split_header {l : List Symbol} (h : Passes 0 l) {s : Symbol} {condition : Option Text}
    (hs : header? s = some condition) (rest : List Symbol) :
    split 0 false (l ++ s :: rest) =
      (l, ⟨s, condition, (split 0 condition.isNone rest).1⟩ ::
        (split 0 condition.isNone rest).2) := by
  rw [h 0 le_rfl, split, hs]
  simp

end Passes
end Clause

end Stencil
