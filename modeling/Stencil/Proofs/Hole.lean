import Stencil.Proofs.Matching

/-! Lists of symbols with holes, in which the characters of a value may be put. Matching sees no
difference between the values: cutting a filled list is filling the pieces of the list. -/
namespace Stencil

/-- The place of a value. No text is read as this symbol. -/
def hole : Symbol := .tag .other []

/-- The list with the characters of a value in every hole. -/
def fill (w : Text) (l : List Symbol) : List Symbol :=
  l.flatMap fun y => if y = hole then w.map .char else [y]

def fillText (w : Text) (l : List Symbol) : Text := Symbol.textOf (fill w l)

section
variable (w : Text)

@[simp] lemma fill_nil : fill w [] = [] := rfl

@[simp] lemma fill_append (l m : List Symbol) : fill w (l ++ m) = fill w l ++ fill w m :=
  List.flatMap_append

@[simp] lemma fill_hole (l : List Symbol) : fill w (hole :: l) = w.map .char ++ fill w l := rfl

lemma fill_of_ne {y : Symbol} (hy : y ≠ hole) (l : List Symbol) :
    fill w (y :: l) = y :: fill w l := by
  rw [fill, List.flatMap_cons, if_neg hy]
  rfl

@[simp] lemma fill_char (c : Char) (l : List Symbol) :
    fill w (.char c :: l) = .char c :: fill w l := fill_of_ne w (by simp [hole]) l

@[simp] lemma fill_map_char (s : Text) : fill w (s.map .char) = s.map .char := by
  induction s with
  | nil => rfl
  | cons c s ih => rw [List.map_cons, fill_char, ih]

lemma fill_of_forall {l : List Symbol} (h : ∀ y ∈ l, y ≠ hole) : fill w l = l := by
  induction l with
  | nil => rfl
  | cons y l ih =>
    rw [fill_of_ne w (h y List.mem_cons_self), ih fun z hz => h z (List.mem_cons_of_mem y hz)]

@[simp] lemma fillText_nil : fillText w [] = [] := rfl

@[simp] lemma fillText_append (l m : List Symbol) :
    fillText w (l ++ m) = fillText w l ++ fillText w m := by
  simp [fillText]

@[simp] lemma fillText_hole (l : List Symbol) : fillText w (hole :: l) = w ++ fillText w l := by
  simp [fillText]

lemma fillText_of_ne {y : Symbol} (hy : y ≠ hole) (l : List Symbol) :
    fillText w (y :: l) = y.text ++ fillText w l := by
  rw [fillText, fill_of_ne w hy, Symbol.textOf_cons]
  rfl

@[simp] lemma fillText_char (c : Char) (l : List Symbol) :
    fillText w (.char c :: l) = c :: fillText w l := fillText_of_ne w (by simp [hole]) l

@[simp] lemma fillText_map_char (s : Text) : fillText w (s.map .char) = s := by
  simp [fillText]

end

lemma opens_hole (p : Pair) : p.opens hole = false := rfl

lemma closes_hole (p : Pair) : p.closes hole = false := rfl

lemma ne_hole_of_opens {p : Pair} {y : Symbol} (h : p.opens y = true) : y ≠ hole := by
  rintro rfl
  cases h

lemma ne_hole_of_closes {p : Pair} {y : Symbol} (h : p.closes y = true) : y ≠ hole := by
  rintro rfl
  cases h

lemma splitClose?_fill (w : Text) (p : Pair) (depth : ℕ) (l : List Symbol) :
    splitClose? p depth (fill w l) =
      (splitClose? p depth l).map fun (body, closer, after) =>
        (fill w body, closer, fill w after) := by
  induction l generalizing depth with
  | nil => simp
  | cons y l ih =>
    by_cases hy : y = hole
    · subst hy
      rw [fill_hole, Balanced.map_char p w, ih, splitClose?_cons, opens_hole, closes_hole]
      simp only [Bool.false_eq_true, if_false, Option.map_map]
      congr 1
    · rw [fill_of_ne w hy, splitClose?_cons, splitClose?_cons]
      split
      · rw [ih, Option.map_map, Option.map_map]
        congr 1
        funext found
        simp [fill_of_ne w hy]
      · split
        · cases depth with
          | zero => simp
          | succ depth =>
            simp only [ih, Option.map_map]
            congr 1
            funext found
            simp [fill_of_ne w hy]
        · rw [ih, Option.map_map, Option.map_map]
          congr 1
          funext found
          simp [fill_of_ne w hy]

/-- A construct in a filled list begins where one begins in the list. -/
lemma split_fill_cons (w : Text) (p : Pair) {y : Symbol} (hy : y ≠ hole) (l : List Symbol) :
    Piece.split p (fill w (y :: l)) =
      match if p.opens y then splitClose? p 0 l else none with
      | some (body, closer, after) =>
        .construct ⟨y, fill w body, closer⟩ :: Piece.split p (fill w after)
      | none => .single y :: Piece.split p (fill w l) := by
  rw [fill_of_ne w hy, Piece.split_cons, splitClose?_fill]
  by_cases ho : p.opens y = true
  · rw [if_pos ho, if_pos ho]
    cases splitClose? p 0 l <;> rfl
  · rw [if_neg ho, if_neg ho]

/-- The pieces that a piece becomes; a hole is as many pieces as the value has characters. -/
def fillPiece (w : Text) : Piece → List Piece
  | .single y => (fill w [y]).map .single
  | .construct c => [.construct ⟨c.opener, fill w c.body, c.closer⟩]

/-- Cutting a filled list is filling the pieces. -/
lemma split_fill (w : Text) (p : Pair) (l : List Symbol) :
    Piece.split p (fill w l) = (Piece.split p l).flatMap (fillPiece w) := by
  match l with
  | [] => simp
  | y :: l =>
    have ih := split_fill w p l
    by_cases hy : y = hole
    · subst hy
      rw [fill_hole, Cuts.map_char p w, ih, Piece.split_cons, opens_hole]
      simp [fillPiece]
    · rw [split_fill_cons w p hy, Piece.split_cons]
      cases hfound : if p.opens y then splitClose? p 0 l else none with
      | none => simp [ih, fillPiece, fill_of_ne w hy]
      | some found =>
        obtain ⟨body, closer, after⟩ := found
        have hopen : p.opens y = true := by
          by_contra hopen
          simp [hopen] at hfound
        rw [if_pos hopen] at hfound
        have : after.length ≤ l.length := by
          rw [(eq_append_of_splitClose? hfound).1]
          simp only [List.length_append, List.length_cons]
          omega
        have hafter := split_fill w p after
        simp [hafter, fillPiece]
termination_by l.length

namespace Piece

/-- A piece with a construct turned into plain text; its holes stay. -/
def hidden : Piece → List Symbol
  | .single y => [y]
  | .construct c => c.symbols.flatMap fun y => if y = hole then [hole] else y.text.map .char

lemma fill_hidden (w : Text) (c : Construct) :
    fill w (construct c).hidden = (fillText w c.symbols).map .char := by
  change fill w (c.symbols.flatMap _) = (fillText w c.symbols).map .char
  induction c.symbols with
  | nil => rfl
  | cons y l ih =>
    rw [List.flatMap_cons, fill_append, ih]
    by_cases hy : y = hole
    · subst hy
      simp
    · rw [if_neg hy, fill_map_char, fillText_of_ne w hy, List.map_append]

lemma fillText_hidden (w : Text) (piece : Piece) :
    fillText w piece.hidden = fillText w piece.symbols := by
  cases piece with
  | single y => rfl
  | construct c =>
    rw [fillText, fill_hidden, Symbol.textOf_map_char]
    rfl

end Piece

/-- The symbols of a template whose matched loops are plain text. -/
def veil (pieces : List Piece) : List Symbol := pieces.flatMap Piece.hidden

@[simp] lemma veil_nil : veil [] = [] := rfl

@[simp] lemma veil_cons (piece : Piece) (rest : List Piece) :
    veil (piece :: rest) = piece.hidden ++ veil rest := rfl

lemma fillText_veil (w : Text) (pieces : List Piece) :
    fillText w (veil pieces) = fillText w (pieces.flatMap Piece.symbols) := by
  induction pieces with
  | nil => rfl
  | cons piece rest ih =>
    rw [veil_cons, fillText_append, ih, Piece.fillText_hidden, List.flatMap_cons, fillText_append]

lemma veil_map_single (l : List Symbol) : veil (l.map .single) = l := by
  induction l with
  | nil => rfl
  | cons y l ih => rw [List.map_cons, veil_cons, ih]; rfl

lemma hideLoops_fill (w : Text) (l : List Symbol) :
    hideLoops (fill w l) = fill w (veil (Piece.split .loop l)) := by
  rw [hideLoops_eq, split_fill]
  have hopens := fun c => Piece.opens_of_mem_split (p := .loop) (c := c) l
  generalize Piece.split .loop l = pieces at hopens
  induction pieces with
  | nil => rfl
  | cons piece rest ih =>
    rw [List.flatMap_cons, List.flatMap_append, ih fun c hc => hopens c (List.mem_cons_of_mem _ hc),
      veil_cons, fill_append]
    congr 1
    cases piece with
    | single y => simp [fillPiece, List.flatMap_map, Piece.withoutTags, Piece.hidden]
    | construct c =>
      obtain ⟨hopen, hclose⟩ := hopens c List.mem_cons_self
      rw [Piece.fill_hidden, Construct.symbols, List.cons_append,
        fillText_of_ne w (ne_hole_of_opens hopen), fillText_append,
        fillText_of_ne w (ne_hole_of_closes hclose)]
      simp [fillPiece, Piece.withoutTags, Construct.text, Construct.symbols, fillText]

/-- Plain characters and holes. -/
def IsPlain (l : List Symbol) : Prop := ∀ y ∈ l, y = hole ∨ ∃ c, y = .char c

lemma Piece.isPlain_hidden (c : Construct) : IsPlain (Piece.construct c).hidden := by
  intro y hy
  obtain ⟨z, -, hz⟩ := List.mem_flatMap.mp hy
  split at hz
  · exact .inl (List.mem_singleton.mp hz)
  · obtain ⟨a, -, rfl⟩ := List.mem_map.mp hz
    exact .inr ⟨a, rfl⟩

namespace IsPlain

lemma balanced {l : List Symbol} (h : IsPlain l) (p : Pair) : Balanced p l := by
  apply Balanced.of_forall
  intro y hy
  rcases h y hy with rfl | ⟨c, rfl⟩
  · exact ⟨rfl, rfl⟩
  · exact ⟨rfl, rfl⟩

lemma passes {l : List Symbol} (h : IsPlain l) : Clause.Passes 0 l := by
  induction l with
  | nil => exact .nil
  | cons y l ih =>
    have hl := ih fun z hz => h z (List.mem_cons_of_mem y hz)
    rcases h y List.mem_cons_self with rfl | ⟨c, rfl⟩
    · exact (Clause.Passes.single (s := hole) rfl rfl rfl 0).append hl
    · exact (Clause.Passes.single (s := .char c) rfl rfl rfl 0).append hl

end IsPlain

/-- A closer is never found inside a hidden loop. -/
lemma splitClose?_veil {p : Pair} {depth : ℕ} {pieces : List Piece} {body after : List Symbol}
    {closer : Symbol} (h : splitClose? p depth (veil pieces) = some (body, closer, after)) :
    ∃ before behind, pieces = before ++ .single closer :: behind ∧ body = veil before ∧
      after = veil behind := by
  induction pieces generalizing depth body with
  | nil => simp at h
  | cons piece rest ih =>
    have hskip {depth : ℕ} (y : List Symbol) (hy : piece.hidden = y)
        (h : (splitClose? p depth (veil rest)).map (fun (body, closer, after) =>
          (y ++ body, closer, after)) = some (body, closer, after)) :
        ∃ before behind, piece :: rest = before ++ .single closer :: behind ∧
          body = veil before ∧ after = veil behind := by
      obtain ⟨⟨b, c, a⟩, hfound, hb⟩ := Option.map_eq_some_iff.mp h
      simp only [Prod.mk.injEq] at hb
      obtain ⟨rfl, rfl, rfl⟩ := hb
      obtain ⟨before, behind, rfl, rfl, rfl⟩ := ih hfound
      exact ⟨piece :: before, behind, rfl, by rw [veil_cons, hy], rfl⟩
    rw [veil_cons] at h
    cases piece with
    | construct c =>
      rw [(Piece.isPlain_hidden c).balanced p] at h
      exact hskip _ rfl h
    | single y =>
      change splitClose? p depth (y :: veil rest) = _ at h
      rw [splitClose?_cons] at h
      split at h
      · exact hskip [y] rfl h
      · split at h
        · cases depth with
          | zero =>
            simp only [Option.some.injEq, Prod.mk.injEq] at h
            obtain ⟨rfl, rfl, rfl⟩ := h
            exact ⟨[], rest, rfl, rfl, rfl⟩
          | succ depth => exact hskip [y] rfl h
        · exact hskip [y] rfl h

namespace Clause

/-- A branch with a value in its holes. -/
def fillWith (w : Text) (clause : Clause) : Clause :=
  ⟨clause.header, clause.condition, fill w clause.body⟩

lemma split_fill (w : Text) (depth : ℕ) (final : Bool) (l : List Symbol) :
    split depth final (fill w l) =
      (fill w (split depth final l).1, (split depth final l).2.map (fillWith w)) := by
  induction l generalizing depth final with
  | nil => rfl
  | cons y l ih =>
    by_cases hy : y = hole
    · subst hy
      rw [fill_hole, Passes.map_char 0 w depth (Nat.zero_le depth), ih, split]
      have hheader : (if depth = 0 && !final then header? hole else none) = none := ite_self _
      have hdepth : depthAfter depth hole = depth := rfl
      rw [hheader]
      simp [hdepth]
    · rw [fill_of_ne w hy, split, split]
      split
      · simp [ih, fillWith]
      · simp [ih, fill_of_ne w hy]

/-- The branches of a list with hidden loops hide the same loops. -/
lemma exists_split_veil (pieces : List Piece) (depth : ℕ) (final : Bool) :
    (∃ before, (∀ piece ∈ before, piece ∈ pieces) ∧
      (split depth final (veil pieces)).1 = veil before) ∧
    ∀ clause ∈ (split depth final (veil pieces)).2,
      ∃ part, (∀ piece ∈ part, piece ∈ pieces) ∧ clause.body = veil part := by
  induction pieces generalizing depth final with
  | nil => exact ⟨⟨[], by simp, rfl⟩, by simp [split]⟩
  | cons piece rest ih =>
    have hlater {depth : ℕ} {final : Bool} (clause : Clause)
        (hclause : clause ∈ (split depth final (veil rest)).2) :
        ∃ part, (∀ p ∈ part, p ∈ piece :: rest) ∧ clause.body = veil part := by
      obtain ⟨part, hpart, hbody⟩ := (ih depth final).2 clause hclause
      exact ⟨part, fun p hp => List.mem_cons_of_mem piece (hpart p hp), hbody⟩
    have hkeep {depth : ℕ} {final : Bool} :
        ∃ before, (∀ p ∈ before, p ∈ piece :: rest) ∧
          piece.hidden ++ (split depth final (veil rest)).1 = veil before := by
      obtain ⟨before, hbefore, heq⟩ := (ih depth final).1
      refine ⟨piece :: before, fun p hp => ?_, by rw [heq, veil_cons]⟩
      rcases List.mem_cons.mp hp with rfl | hp
      · exact List.mem_cons_self
      · exact List.mem_cons_of_mem piece (hbefore p hp)
    rw [veil_cons]
    cases piece with
    | construct c =>
      rw [(Piece.isPlain_hidden c).passes depth (Nat.zero_le depth)]
      exact ⟨hkeep, hlater⟩
    | single y =>
      change (∃ before, _ ∧ (split depth final (y :: veil rest)).1 = veil before) ∧
        ∀ clause ∈ (split depth final (y :: veil rest)).2, _
      rw [split]
      split
      · refine ⟨⟨[], by simp, rfl⟩, fun clause hclause => ?_⟩
        rcases List.mem_cons.mp hclause with rfl | hclause
        · obtain ⟨part, hpart, hbody⟩ := (ih 0 _).1
          exact ⟨part, fun p hp => List.mem_cons_of_mem _ (hpart p hp), hbody⟩
        · exact hlater clause hclause
      · exact ⟨hkeep, hlater⟩

end Clause
end Stencil
