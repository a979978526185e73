import Stencil.Proofs.Matching

/-! Cutting a list that was cut before. Pieces in which no stray closer comes behind a stray
opener are cut off again as they are, also when pieces are dropped or replaced by plain ones. A
list in which every item spreads to symbols is cut as the list of its items is. -/
namespace Stencil

/-- A symbol that neither opens nor closes. -/
def Pair.IsNeutral (p : Pair) (y : Symbol) : Prop := p.opens y = false ∧ p.closes y = false

instance (p : Pair) (y : Symbol) : Decidable (p.IsNeutral y) :=
  inferInstanceAs (Decidable (p.opens y = false ∧ p.closes y = false))

lemma Pair.isNeutral_char (p : Pair) (c : Char) : p.IsNeutral (.char c) := ⟨rfl, rfl⟩

lemma Pair.isNeutral_of_mem_map_char (p : Pair) {s : Text} {y : Symbol} (h : y ∈ s.map .char) :
    p.IsNeutral y := by
  obtain ⟨c, -, rfl⟩ := List.mem_map.mp h
  exact p.isNeutral_char c

lemma balanced_of_splitClose? {p : Pair} {l body after : List Symbol} {closer : Symbol}
    (h : splitClose? p 0 l = some (body, closer, after)) : Balanced p body := by
  intro depth rest
  exact splitClose?_append_of_eq h depth rest

lemma surplus_append_of_balanced {p : Pair} {l : List Symbol} (h : Balanced p l)
    (rest : List Symbol) : surplus p (l ++ rest) = surplus p rest := by
  have hiff (depth : ℕ) : depth < surplus p (l ++ rest) ↔ depth < surplus p rest := by
    rw [← decide_eq_decide, ← isSome_splitClose?, ← isSome_splitClose?, h, Option.isSome_map]
  have hle := hiff (surplus p rest)
  have hge := hiff (surplus p (l ++ rest))
  omega

namespace Piece

def strayOpener (p : Pair) : Piece → Bool
  | .single y => p.opens y
  | .construct _ => false

def strayCloser (p : Pair) : Piece → Bool
  | .single y => p.closes y
  | .construct _ => false

/-- A symbol that neither opens nor closes, alone. -/
def IsNeutral (p : Pair) (piece : Piece) : Prop := ∃ y, piece = .single y ∧ p.IsNeutral y

lemma isNeutral_of_mem_singles (p : Pair) {s : Text} {piece : Piece}
    (h : piece ∈ (s.map Symbol.char).map .single) : piece.IsNeutral p := by
  obtain ⟨y, hy, rfl⟩ := List.mem_map.mp h
  exact ⟨y, rfl, p.isNeutral_of_mem_map_char hy⟩

end Piece

/-- Pieces as a list is cut into: closed constructs, and symbols of which none closes what another
one opens. -/
structure WellMatched (p : Pair) (pieces : List Piece) : Prop where
  constructs : ∀ c, .construct c ∈ pieces →
    p.opens c.opener = true ∧ p.closes c.closer = true ∧ Balanced p c.body
  strays : pieces.Pairwise fun a b => a.strayOpener p = true → b.strayCloser p = false

namespace WellMatched
variable {p : Pair} {pieces : List Piece}

lemma splitClose?_eq_none (hcs : ∀ c, .construct c ∈ pieces →
      p.opens c.opener = true ∧ p.closes c.closer = true ∧ Balanced p c.body)
    (h : ∀ piece ∈ pieces, piece.strayCloser p = false) (depth : ℕ) :
    splitClose? p depth (pieces.flatMap Piece.symbols) = none := by
  induction pieces generalizing depth with
  | nil => rfl
  | cons piece rest ih =>
    have hrest := ih (fun c hc => hcs c (List.mem_cons_of_mem _ hc))
      fun q hq => h q (List.mem_cons_of_mem _ hq)
    have hpiece := h piece List.mem_cons_self
    rw [List.flatMap_cons]
    cases piece with
    | construct c =>
      obtain ⟨hopen, hclose, hbody⟩ := hcs c List.mem_cons_self
      have := Balanced.construct hopen hbody (Pair.opens_of_closes hclose) hclose
      rw [Piece.symbols, Construct.symbols, this, hrest]
      rfl
    | single y =>
      have hclose : p.closes y = false := hpiece
      rw [Piece.symbols, List.singleton_append, splitClose?_cons, hclose]
      by_cases hopen : p.opens y = true
      · rw [if_pos hopen, hrest]
        rfl
      · rw [if_neg hopen, hrest]
        rfl

/-- Such pieces are what their symbols are cut into. -/
lemma split_eq (h : WellMatched p pieces) :
    Piece.split p (pieces.flatMap Piece.symbols) = pieces := by
  induction pieces with
  | nil => simp
  | cons piece rest ih =>
    have hcs c (hc : .construct c ∈ rest) := h.constructs c (List.mem_cons_of_mem piece hc)
    obtain ⟨hstray, hstrays⟩ := List.pairwise_cons.mp h.strays
    have hrest := ih ⟨hcs, hstrays⟩
    rw [List.flatMap_cons]
    cases piece with
    | construct c =>
      obtain ⟨hopen, hclose, hbody⟩ := h.constructs c List.mem_cons_self
      have hcuts := Cuts.construct hopen hbody (Pair.opens_of_closes hclose) hclose
      rw [Piece.symbols, Construct.symbols, hcuts, hrest]
      rfl
    | single y =>
      rw [Piece.symbols, List.singleton_append, Piece.split_cons, hrest]
      by_cases hopen : p.opens y = true
      · rw [if_pos hopen, splitClose?_eq_none hcs fun piece hpiece => hstray piece hpiece hopen]
      · rw [if_neg hopen]

/-- Parts may be dropped, or replaced by symbols that neither open nor close. -/
lemma rework {α : Type} {f g : α → List Piece} {as : List α}
    (h : WellMatched p (as.flatMap f))
    (hg : ∀ a ∈ as, (g a).Sublist (f a) ∨ ∀ piece ∈ g a, piece.IsNeutral p) :
    WellMatched p (as.flatMap g) := by
  have hneutral {piece : Piece} (hpiece : piece.IsNeutral p) :
      piece.strayOpener p = false ∧ piece.strayCloser p = false := by
    obtain ⟨y, rfl, hy⟩ := hpiece
    exact hy
  obtain ⟨hparts, hpairs⟩ := List.pairwise_flatMap.mp h.strays
  constructor
  · intro c hc
    obtain ⟨a, ha, hc⟩ := List.mem_flatMap.mp hc
    cases hg a ha with
    | inl hsub => exact h.constructs c (List.mem_flatMap.mpr ⟨a, ha, hsub.subset hc⟩)
    | inr hn =>
      obtain ⟨y, heq, -⟩ := hn _ hc
      cases heq
  · refine List.pairwise_flatMap.mpr ⟨fun a ha => ?_, ?_⟩
    · cases hg a ha with
      | inl hsub => exact (hparts a ha).sublist hsub
      | inr hn =>
        refine List.pairwise_of_forall_mem_list fun x _ y hy _ => ?_
        exact (hneutral (hn y hy)).2
    · refine hpairs.imp_of_mem fun {a b} ha hb hab x hx y hy hopen => ?_
      cases hg a ha with
      | inr hn =>
        rw [(hneutral (hn x hx)).1] at hopen
        cases hopen
      | inl hsub =>
        cases hg b hb with
        | inr hn => exact (hneutral (hn y hy)).2
        | inl hsub' => exact hab x (hsub.subset hx) y (hsub'.subset hy) hopen

lemma sublist {part : List Piece} (h : WellMatched p pieces) (hsub : part.Sublist pieces) :
    WellMatched p part :=
  ⟨fun c hc => h.constructs c (hsub.subset hc), h.strays.sublist hsub⟩

end WellMatched

/-- A stray closer is left over. -/
lemma surplus_pos_of_strayCloser {p : Pair} {l : List Symbol} {piece : Piece}
    (h : piece ∈ Piece.split p l) (hclose : piece.strayCloser p = true) : 0 < surplus p l := by
  induction l using Piece.split_induction (p := p) with
  | nil => simp at h
  | construct opener body closer after hopen hcloser hfound ih =>
    rw [surplus, if_pos hopen, surplus_append_of_balanced (balanced_of_splitClose? hfound),
      surplus, Pair.opens_of_closes hcloser, if_neg (by simp), if_pos hcloser]
    cases h with
    | head => cases hclose
    | tail _ h =>
      have hpos := ih h
      omega
  | single y l hnone ih =>
    rw [surplus]
    by_cases hopen : p.opens y = true
    · have hzero : ¬0 < surplus p l := by
        have := isSome_splitClose? p 0 l
        rw [hnone hopen] at this
        simpa using this.symm
      cases h with
      | head =>
        have hy : p.closes y = true := hclose
        rw [Pair.opens_of_closes hy] at hopen
        cases hopen
      | tail _ h => exact absurd (ih h) hzero
    · rw [if_neg hopen]
      cases h with
      | head =>
        have hy : p.closes y = true := hclose
        rw [if_pos hy]
        omega
      | tail _ h =>
        have hpos := ih h
        split <;> omega

/-- What a list is cut into is well matched. -/
lemma wellMatched_split (p : Pair) (l : List Symbol) : WellMatched p (Piece.split p l) := by
  induction l using Piece.split_induction (p := p) with
  | nil => exact ⟨fun c hc => by simp at hc, .nil⟩
  | construct opener body closer after hopen hclose hfound ih =>
    refine ⟨fun c hc => ?_, ?_⟩
    · cases hc with
      | head => exact ⟨hopen, hclose, balanced_of_splitClose? hfound⟩
      | tail _ hc => exact ih.constructs c hc
    · exact List.pairwise_cons.mpr ⟨fun piece _ hstray => absurd hstray (by simp [Piece.strayOpener]),
        ih.strays⟩
  | single y l hnone ih =>
    refine ⟨fun c hc => ?_, ?_⟩
    · cases hc with
      | tail _ hc => exact ih.constructs c hc
    · refine List.pairwise_cons.mpr ⟨fun piece hpiece hopen => ?_, ih.strays⟩
      by_contra hclose
      have hpos := surplus_pos_of_strayCloser hpiece (by simpa using hclose)
      have hsome := isSome_splitClose? p 0 l
      rw [hnone hopen] at hsome
      simp [hpos] at hsome

/-- A part of a list of items: an item alone, or the items between an opener and its closer. -/
inductive Part (α : Type)
  | single (a : α)
  | closed (opener : α) (body : List α) (closer : α)

namespace Part
variable {α : Type}

def items : Part α → List α
  | .single a => [a]
  | .closed opener body closer => opener :: body ++ [closer]

section
variable (p : Pair) (tag : α → Symbol)

/-- The items before the closer of the construct that is open, the closer, and what follows; an
item opens or closes what its tag does. -/
def close? : (depth : ℕ) → List α → Option (List α × α × List α)
  | _, [] => none
  | depth, a :: rest =>
    if p.opens (tag a) then
      (close? (depth + 1) rest).map fun found => (a :: found.1, found.2)
    else if p.closes (tag a) then
      match depth with
      | 0 => some ([], a, rest)
      | depth + 1 => (close? depth rest).map fun found => (a :: found.1, found.2)
    else (close? depth rest).map fun found => (a :: found.1, found.2)

variable {p tag}

lemma close?_cons (depth : ℕ) (a : α) (rest : List α) :
    close? p tag depth (a :: rest) =
      if p.opens (tag a) then
        (close? p tag (depth + 1) rest).map fun found => (a :: found.1, found.2)
      else if p.closes (tag a) then
        if depth = 0 then some ([], a, rest)
        else (close? p tag (depth - 1) rest).map fun found => (a :: found.1, found.2)
      else (close? p tag depth rest).map fun found => (a :: found.1, found.2) := by
  cases depth <;> rfl

lemma eq_append_of_close? {depth : ℕ} {as body after : List α} {closer : α}
    (h : close? p tag depth as = some (body, closer, after)) :
    as = body ++ closer :: after ∧ p.closes (tag closer) = true := by
  induction as generalizing depth body with
  | nil => cases h
  | cons a as ih =>
    have hskip {depth : ℕ} (h : (close? p tag depth as).map (fun found => (a :: found.1, found.2)) =
        some (body, closer, after)) :
        a :: as = body ++ closer :: after ∧ p.closes (tag closer) = true := by
      obtain ⟨⟨b, c, d⟩, hfound, heq⟩ := Option.map_eq_some_iff.mp h
      simp only [Prod.mk.injEq] at heq
      obtain ⟨rfl, rfl, rfl⟩ := heq
      obtain ⟨rfl, hclose⟩ := ih hfound
      exact ⟨rfl, hclose⟩
    rw [close?_cons] at h
    split at h
    · exact hskip h
    · split at h
      · rename_i hclose
        split at h
        · cases h
          exact ⟨rfl, hclose⟩
        · exact hskip h
      · exact hskip h

variable (p tag)

/-- Cuts a list of items into the closed constructs and the items between them. -/
def parts : List α → List (Part α)
  | [] => []
  | a :: rest =>
    match h : if p.opens (tag a) then close? p tag 0 rest else none with
    | some (body, closer, after) =>
      have : after.length < rest.length := by
        split at h
        · rw [(eq_append_of_close? h).1, List.length_append, List.length_cons]
          omega
        · cases h
      .closed a body closer :: parts after
    | none => .single a :: parts rest
termination_by as => as.length
decreasing_by all_goals (simp only [List.length_cons]; omega)

/-- Induction on the parts of a list. -/
theorem parts_induction {motive : List α → List (Part α) → Prop}
    (nil : motive [] [])
    (closed : ∀ opener body closer after, p.opens (tag opener) = true →
      p.closes (tag closer) = true →
      close? p tag 0 (body ++ closer :: after) = some (body, closer, after) →
      motive after (parts p tag after) →
      motive (opener :: (body ++ closer :: after))
        (.closed opener body closer :: parts p tag after))
    (single : ∀ a as, (p.opens (tag a) = true → close? p tag 0 as = none) →
      motive as (parts p tag as) → motive (a :: as) (.single a :: parts p tag as)) :
    ∀ as, motive as (parts p tag as)
  | [] => by
    rw [parts]
    exact nil
  | a :: as => by
    have hsingle (h : p.opens (tag a) = true → close? p tag 0 as = none) :=
      single a as h (parts_induction nil closed single as)
    rw [parts]
    split
    · rename_i body closer after hfound
      obtain ⟨hopen, hfound⟩ : p.opens (tag a) = true ∧
          close? p tag 0 as = some (body, closer, after) := by
        split at hfound
        · exact ⟨‹_›, hfound⟩
        · cases hfound
      obtain ⟨happ, hclose⟩ := eq_append_of_close? hfound
      have : after.length < as.length := by
        rw [happ, List.length_append, List.length_cons]
        omega
      have hafter := parts_induction nil closed single after
      subst happ
      exact closed a body closer after hopen hclose hfound hafter
    · rename_i hfound
      apply hsingle
      intro hopen
      rwa [if_pos hopen] at hfound
termination_by as => as.length
decreasing_by all_goals (simp only [List.length_cons]; omega)

variable {p tag}

/-- Cutting loses nothing. -/
lemma flatMap_items_parts (as : List α) : (parts p tag as).flatMap items = as := by
  induction as using parts_induction p tag with
  | nil => rfl
  | single a as _ ih =>
    rw [List.flatMap_cons, ih]
    rfl
  | closed opener body closer after _ _ _ ih =>
    rw [List.flatMap_cons, ih, items]
    simp

end

/-- An item spreads to its tag, if this opens or closes, and else to symbols that do neither. -/
def Spreads (p : Pair) (tag : α → Symbol) (g : α → List Symbol) (a : α) : Prop :=
  g a = [tag a] ∨ p.IsNeutral (tag a) ∧ ∀ y ∈ g a, p.IsNeutral y

variable {p : Pair} {tag : α → Symbol} {g : α → List Symbol}

lemma splitClose?_flatMap {as : List α} (h : ∀ a ∈ as, Spreads p tag g a) (depth : ℕ) :
    splitClose? p depth (as.flatMap g) =
      (close? p tag depth as).map fun found =>
        (found.1.flatMap g, tag found.2.1, found.2.2.flatMap g) := by
  induction as generalizing depth with
  | nil => rfl
  | cons a as ih =>
    have hrest := ih fun b hb => h b (List.mem_cons_of_mem a hb)
    have hskip (depth : ℕ) :
        (splitClose? p depth (as.flatMap g)).map (fun found => (g a ++ found.1, found.2)) =
          ((close? p tag depth as).map fun found => (a :: found.1, found.2)).map fun found =>
            (found.1.flatMap g, tag found.2.1, found.2.2.flatMap g) := by
      rw [hrest, Option.map_map, Option.map_map]
      rfl
    rw [List.flatMap_cons, close?_cons]
    cases h a List.mem_cons_self with
    | inr hneutral =>
      obtain ⟨⟨hopen, hclose⟩, hg⟩ := hneutral
      rw [Balanced.of_forall hg, hopen, hclose]
      exact hskip depth
    | inl hg =>
      rw [hg] at hskip
      rw [hg, List.singleton_append, splitClose?_cons]
      by_cases hopen : p.opens (tag a) = true
      · rw [if_pos hopen, if_pos hopen]
        exact hskip (depth + 1)
      · rw [if_neg hopen, if_neg hopen]
        by_cases hclose : p.closes (tag a) = true
        · rw [if_pos hclose, if_pos hclose]
          cases depth with
          | zero => rfl
          | succ depth => exact hskip depth
        · rw [if_neg hclose, if_neg hclose]
          exact hskip depth

/-- The pieces that a part becomes when its items spread. -/
def pieces (tag : α → Symbol) (g : α → List Symbol) : Part α → List Piece
  | .single a => (g a).map .single
  | .closed opener body closer => [.construct ⟨tag opener, body.flatMap g, tag closer⟩]

/-- A list is cut as the list is whose items spread to it. -/
lemma split_flatMap {as : List α} (h : ∀ a ∈ as, Spreads p tag g a) :
    Piece.split p (as.flatMap g) = (parts p tag as).flatMap (pieces tag g) := by
  induction as using parts_induction p tag with
  | nil => simp
  | single a as hnone ih =>
    have hrest := ih fun b hb => h b (List.mem_cons_of_mem a hb)
    rw [List.flatMap_cons, List.flatMap_cons, ← hrest]
    cases h a List.mem_cons_self with
    | inr hneutral => exact Cuts.singles (fun y hy => (hneutral.2 y hy).1) _
    | inl hg =>
      have hsplit := splitClose?_flatMap (fun b hb => h b (List.mem_cons_of_mem a hb)) 0
      rw [pieces, hg, List.singleton_append, Piece.split_cons]
      by_cases hopen : p.opens (tag a) = true
      · rw [if_pos hopen, hsplit, hnone hopen]
        rfl
      · rw [if_neg hopen]
        rfl
  | closed opener body closer after hopen hclose hfound ih =>
    have htail : ∀ b ∈ body ++ closer :: after, Spreads p tag g b :=
      fun b hb => h b (List.mem_cons_of_mem opener hb)
    have hrest := ih fun b hb => htail b (List.mem_append_right body (List.mem_cons_of_mem closer hb))
    have hg : g opener = [tag opener] := by
      cases h opener List.mem_cons_self with
      | inl hg => exact hg
      | inr hneutral =>
        rw [hneutral.1.1] at hopen
        cases hopen
    rw [List.flatMap_cons, List.flatMap_cons, hg, List.singleton_append, Piece.split_cons,
      if_pos hopen, splitClose?_flatMap htail, hfound, ← hrest]
    rfl

end Part

end Stencil
