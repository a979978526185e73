import Stencil.Proofs.Hole.Uniform

/-! The passes on texts that depend on a value as a list does: what a pass leaves is again such a
text, when what is put in the place of a construct is one. -/
namespace Stencil

open Rendering (Outcome)

section
variable {options : WhitespaceOptions} {Good : Tag → Prop}

/-- The symbols of a text that depends on a value as a list does. -/
def UniformSymbols (options : WhitespaceOptions) (Good : Tag → Prop)
    (S : Text → List Symbol) : Prop :=
  ∃ f, UniformText options Good f ∧ ∀ w, Inert options w → S w = Scan.symbols (f w)

namespace UniformText

lemma text {y : Symbol} (h : Fit options Good y) (hy : y ≠ hole) :
    UniformText options Good fun _ => y.text :=
  (of_list (l := [y]) (by simpa using h)).congr fun w _ => by simp [fillText_of_ne w hy]

/-- The loops of a template may be hidden or not. -/
lemma of_veil {pieces : List Piece}
    (h : ∀ y ∈ pieces.flatMap Piece.symbols, Fit options Good y) :
    UniformText options Good fun w => fillText w (veil pieces) :=
  (of_list h).congr fun w _ => fillText_veil w pieces

end UniformText

namespace Uniformly
variable {f : Text → Text} {o o' : Text → Outcome Text}

lemma prepend (hf : UniformText options Good f) (h : Uniformly options (UniformText options Good) o) :
    Uniformly options (UniformText options Good) fun w =>
      (o w).andThen fun tail => ⟨[], .ok (f w ++ tail)⟩ :=
  h.andThen fun _ ha => .ok (hf.append ha)

lemma join (h : Uniformly options (UniformText options Good) o)
    (h' : Uniformly options (UniformText options Good) o') :
    Uniformly options (UniformText options Good) fun w =>
      (o w).andThen fun head => (o' w).andThen fun tail => ⟨[], .ok (head ++ tail)⟩ :=
  h.andThen fun _ ha => h'.prepend ha

end Uniformly

variable {read : Text → Except Text Text}

/-- Plain text in front comes out in front. -/
lemma run_concatMap_map_char {f : Symbol → Rendering Text} (hf : ∀ c, f (.char c) = .done [c])
    (s : Text) (l : List Symbol) :
    (Rendering.concatMap f (s.map .char ++ l)).run read =
      ((Rendering.concatMap f l).run read).andThen fun tail => ⟨[], .ok (s ++ tail)⟩ := by
  have hdone : Rendering.concatMap f (s.map .char) = .done s := by
    rw [Rendering.concatMap_map, Rendering.concatMap_congr fun c _ => hf c,
      Rendering.concatMap_pure, List.flatMap_singleton']
  rw [Rendering.run_concatMap_append, hdone, Rendering.run_done, Outcome.andThen_ok]

lemma run_expandPiece_map_char (p : Pair) (E : Construct → Rendering Text) (s : Text)
    (l : List Symbol) :
    (Rendering.concatMap (Renderer.expandPiece E) (Piece.split p (s.map .char ++ l))).run read =
      ((Rendering.concatMap (Renderer.expandPiece E) (Piece.split p l)).run read).andThen
        fun tail => ⟨[], .ok (s ++ tail)⟩ := by
  have hdone : Rendering.concatMap (Renderer.expandPiece E) ((s.map Symbol.char).map .single) =
      .done s := by
    rw [Rendering.concatMap_map, Rendering.concatMap_map]
    exact (Rendering.concatMap_pure (fun c => [c]) s).trans
      (congrArg Rendering.done (List.flatMap_singleton' s))
  rw [Cuts.map_char p s l, Rendering.run_concatMap_append, hdone, Rendering.run_done,
    Outcome.andThen_ok]

/-- Constructs are replaced alike for all values if each of them is. -/
lemma uniformly_expandPiece {p : Pair} {E : Text → Construct → Rendering Text}
    (hE : ∀ opener closer body, p.opens opener = true → Fit options Good opener →
      (∀ y ∈ body.flatMap Piece.symbols, Fit options Good y) →
      Uniformly options (UniformText options Good) fun w =>
        (E w ⟨opener, fill w (veil body), closer⟩).run read)
    (pieces : List Piece) (h : ∀ y ∈ pieces.flatMap Piece.symbols, Fit options Good y) :
    Uniformly options (UniformText options Good) fun w =>
      (Rendering.concatMap (Renderer.expandPiece (E w))
        (Piece.split p (fill w (veil pieces)))).run read := by
  match pieces with
  | [] => exact (Uniformly.ok (.const (s := []) (by simp) (by simp))).congr fun w _ => by simp
  | .construct c :: rest =>
    have hrest := uniformly_expandPiece hE rest fun y hy =>
      h y (List.mem_append_right c.symbols hy)
    have hc : UniformText options Good fun w => fillText w c.symbols :=
      .of_list fun y hy => h y (List.mem_append_left _ hy)
    refine (hrest.prepend hc).congr fun w _ => ?_
    rw [veil_cons, fill_append, Piece.fill_hidden, run_expandPiece_map_char]
  | .single y :: rest =>
    have hfit : Fit options Good y := h y List.mem_cons_self
    have hrestFit : ∀ z ∈ rest.flatMap Piece.symbols, Fit options Good z := fun z hz =>
      h z (List.mem_cons_of_mem y hz)
    have hrest := uniformly_expandPiece hE rest hrestFit
    change Uniformly options (UniformText options Good) fun w =>
      (Rendering.concatMap (Renderer.expandPiece (E w))
        (Piece.split p (fill w (y :: veil rest)))).run read
    by_cases hy : y = hole
    · subst hy
      refine (hrest.prepend .value).congr fun w _ => ?_
      rw [fill_hole, run_expandPiece_map_char]
    · cases hfound : if p.opens y then splitClose? p 0 (veil rest) else none with
      | none =>
        refine (hrest.prepend (.text hfit hy)).congr fun w _ => ?_
        rw [split_fill_cons w p hy, hfound, Rendering.run_concatMap_cons]
        rfl
      | some found =>
        obtain ⟨body, closer, after⟩ := found
        have hopen : p.opens y = true := by
          by_contra hopen
          simp [hopen] at hfound
        have hclose := hfound
        rw [if_pos hopen] at hclose
        obtain ⟨before, behind, rfl, rfl, rfl⟩ := splitClose?_veil hclose
        have hbehind := uniformly_expandPiece hE behind fun z hz => hrestFit z <| by
          rw [List.flatMap_append, List.flatMap_cons]
          exact List.mem_append_right _ (List.mem_append_right _ hz)
        have hbody := hE y closer before hopen hfit fun z hz => hrestFit z <| by
          rw [List.flatMap_append]
          exact List.mem_append_left _ hz
        refine (hbody.join hbehind).congr fun w _ => ?_
        rw [split_fill_cons w p hy, hfound, Rendering.run_concatMap_cons]
        rfl
termination_by pieces.length

/-- Symbols are replaced alike for all values if each tag is. -/
lemma uniformly_concatMap {F : Text → Symbol → Rendering Text}
    (hchar : ∀ w c, F w (.char c) = .done [c])
    (hF : ∀ t content, Fit options Good (.tag t content) → Symbol.tag t content ≠ hole →
      Uniformly options (UniformText options Good) fun w => (F w (.tag t content)).run read)
    (pieces : List Piece) (h : ∀ y ∈ pieces.flatMap Piece.symbols, Fit options Good y) :
    Uniformly options (UniformText options Good) fun w =>
      (Rendering.concatMap (F w) (fill w (veil pieces))).run read := by
  induction pieces with
  | nil => exact (Uniformly.ok (.const (s := []) (by simp) (by simp))).congr fun w _ => by simp
  | cons piece rest ih =>
    have hrest := ih fun y hy => h y (List.mem_append_right piece.symbols hy)
    cases piece with
    | construct c =>
      have hc : UniformText options Good fun w => fillText w c.symbols :=
        .of_list fun y hy => h y (List.mem_append_left _ hy)
      refine (hrest.prepend hc).congr fun w _ => ?_
      rw [veil_cons, fill_append, Piece.fill_hidden, run_concatMap_map_char (hchar w)]
    | single y =>
      have hfit : Fit options Good y := h y List.mem_cons_self
      change Uniformly options (UniformText options Good) fun w =>
        (Rendering.concatMap (F w) (fill w (y :: veil rest))).run read
      by_cases hy : y = hole
      · subst hy
        refine (hrest.prepend .value).congr fun w _ => ?_
        rw [fill_hole, run_concatMap_map_char (hchar w)]
      · have hone : Uniformly options (UniformText options Good) fun w => (F w y).run read := by
          cases y with
          | char c =>
            refine (Uniformly.ok (.text hfit hy)).congr fun w _ => ?_
            rw [hchar]
            rfl
          | tag t content => exact hF t content hfit hy
        refine (hone.join hrest).congr fun w _ => ?_
        rw [fill_of_ne w hy, Rendering.run_concatMap_cons]

/-- A pass reads what it has put together. -/
lemma Uniformly.symbols {X : Text → Rendering Text}
    (h : Uniformly options (UniformText options Good) fun w => (X w).run read) :
    Uniformly options (UniformSymbols options Good) fun w =>
      (do return Scan.symbols (← X w) : Rendering (List Symbol)).run read := by
  have hread : Uniformly options (UniformSymbols options Good) fun w =>
      ((X w).run read).andThen fun s => ⟨[], .ok (Scan.symbols s)⟩ :=
    h.andThen fun a ha => .ok ⟨a, ha, fun _ _ => rfl⟩
  exact hread.congr fun w _ => Rendering.run_bind read (X w) _

lemma UniformSymbols.dropTags (p : Tag → Bool) {S : Text → List Symbol}
    (h : UniformSymbols options Good S) :
    UniformSymbols options Good fun w => Renderer.dropTags p (S w) := by
  obtain ⟨f, hf, hS⟩ := h
  obtain ⟨l, hl, hsymbols⟩ := hf.exists_symbols
  refine ⟨_, UniformText.textWithout p hl, fun w hw => ?_⟩
  dsimp only
  rw [hS w hw, Renderer.dropTags_symbols, hsymbols w hw]

end

/-- A tag among hidden loops stands outside of them. -/
lemma mem_of_tag_mem_veil {t : Tag} {content : Text} {pieces : List Piece}
    (h : Symbol.tag t content ∈ veil pieces) (ht : Symbol.tag t content ≠ hole) :
    Symbol.tag t content ∈ pieces.flatMap Piece.symbols := by
  obtain ⟨piece, hpiece, hmem⟩ := List.mem_flatMap.mp h
  cases piece with
  | single y => exact List.mem_flatMap.mpr ⟨_, hpiece, hmem⟩
  | construct c =>
    rcases Piece.isPlain_hidden c _ hmem with hy | ⟨a, ha⟩
    · exact absurd hy ht
    · cases ha

namespace Clause

lemma header?_of_mem_split {depth : ℕ} {final : Bool} {l : List Symbol} {clause : Clause}
    (h : clause ∈ (split depth final l).2) :
    clause.header ∈ l ∧ header? clause.header = some clause.condition := by
  induction l generalizing depth final with
  | nil => simp [split] at h
  | cons y l ih =>
    rw [split] at h
    split at h
    · rename_i condition hcondition
      rcases List.mem_cons.mp h with rfl | h
      · refine ⟨List.mem_cons_self, ?_⟩
        split at hcondition
        · exact hcondition
        · cases hcondition
      · exact (ih h).imp_left (List.mem_cons_of_mem y)
    · exact (ih h).imp_left (List.mem_cons_of_mem y)

lemma eq_of_header?_eq_some {y : Symbol} {condition : Text}
    (h : header? y = some (some condition)) : ∃ content, y = .tag (.elseIf condition) content := by
  unfold header? at h
  split at h
  · rename_i content
    obtain rfl := Option.some.inj (Option.some.inj h)
    exact ⟨content, rfl⟩
  · cases h
  · cases h

/-- The branches of a filled conditional are filled branches, with the conditions of its tags. -/
lemma exists_ofConstruct (condition content : Text) (closer : Symbol) (body : List Piece) :
    ∃ clauses : List Clause,
      (∀ w, ofConstruct ⟨.tag (.openIf condition) content, fill w (veil body), closer⟩ =
        clauses.map (fillWith w)) ∧
      ∀ clause ∈ clauses,
        (∃ part, (∀ piece ∈ part, piece ∈ body) ∧ clause.body = veil part) ∧
        ∀ other, clause.condition = some other → other = condition ∨
          ∃ text, .tag (.elseIf other) text ∈ body.flatMap Piece.symbols := by
  obtain ⟨⟨before, hbefore, hfirst⟩, hlater⟩ := exists_split_veil body 0 false
  refine ⟨⟨.tag (.openIf condition) content, some condition, veil before⟩ ::
    (split 0 false (veil body)).2, fun w => ?_, fun clause hclause => ?_⟩
  · rw [ofConstruct, split_fill, hfirst]
    rfl
  · rcases List.mem_cons.mp hclause with rfl | hclause
    · exact ⟨⟨before, hbefore, rfl⟩, fun other hother => .inl (Option.some.inj hother).symm⟩
    · refine ⟨hlater clause hclause, fun other hother => .inr ?_⟩
      obtain ⟨hheader, hof⟩ := header?_of_mem_split hclause
      rw [hother] at hof
      obtain ⟨text, heq⟩ := eq_of_header?_eq_some hof
      rw [heq] at hheader
      exact ⟨text, mem_of_tag_mem_veil hheader (by simp [hole])⟩

end Clause

lemma chosen?_map_fillWith (vars : Fields) (w : Text) (clauses : List Clause) :
    Renderer.chosen? vars (clauses.map (Clause.fillWith w)) =
      (Renderer.chosen? vars clauses).map (Clause.fillWith w) := by
  rw [Renderer.chosen?, List.find?_map]
  rfl

lemma chosen?_congr {a b : Fields} {clauses : List Clause}
    (h : ∀ clause ∈ clauses, ∀ condition, clause.condition = some condition →
      conditionHolds condition a = conditionHolds condition b) :
    Renderer.chosen? a clauses = Renderer.chosen? b clauses := by
  apply List.find?_congr
  intro clause hclause
  cases hcondition : clause.condition with
  | none => rfl
  | some condition => exact h clause hclause condition hcondition

section
variable {r : Renderer} {read : Text → Except Text Text} {x : Text} {Good : Tag → Prop}
  {Scope : Fields → Prop}

/-- An expansion under which texts depend on a value as lists do, in contexts that do too. -/
def Preserves (r : Renderer) (read : Text → Except Text Text) (x : Text) (Good : Tag → Prop)
    (Scope : Fields → Prop) (expand : Renderer.Expansion) : Prop :=
  ∀ V directory f, UniformFields r.options.whitespace x Scope V →
    UniformText r.options.whitespace Good f →
    Uniformly r.options.whitespace (UniformText r.options.whitespace Good) fun w =>
      (expand ⟨V w, directory⟩ (f w)).run read

lemma uniformText_body {pieces : List Piece}
    (h : ∀ y ∈ pieces.flatMap Piece.symbols, Fit r.options.whitespace Good y) :
    UniformText r.options.whitespace Good fun w => r.body (fill w (veil pieces)) :=
  (UniformText.of_veil h).dedentIf

variable {V : Text → Fields} (hV : UniformFields r.options.whitespace x Scope V)
  (hG : Insulates x Good Scope) {expand : Renderer.Expansion}
  (hE : Preserves r read x Good Scope expand) (directory : Text) {opener closer : Symbol}
  {body : List Piece} (hopener : Fit r.options.whitespace Good opener)
  (hbody : ∀ y ∈ body.flatMap Piece.symbols, Fit r.options.whitespace Good y)
include hV hG hE hopener hbody

/-- The same branch is chosen for all values. -/
lemma uniformly_expandConditional (hopen : Pair.opens .conditional opener = true) :
    Uniformly r.options.whitespace (UniformText r.options.whitespace Good) fun w =>
      (r.expandConditional expand ⟨V w, directory⟩
        ⟨opener, fill w (veil body), closer⟩).run read := by
  obtain ⟨condition, content, rfl⟩ :
      ∃ condition content, opener = .tag (.openIf condition) content := by
    cases opener with
    | char c => cases hopen
    | tag t content => cases t <;> first | exact ⟨_, _, rfl⟩ | cases hopen
  obtain ⟨clauses, hclauses, hof⟩ :=
    Clause.exists_ofConstruct condition content closer body
  have hsame (w : Text) (hw : Inert r.options.whitespace w) :
      Renderer.chosen? (V w) clauses = Renderer.chosen? (V ['m']) clauses := by
    apply chosen?_congr
    intro clause hclause other hother
    refine hV.eq_of_ignores ?_ hw
    rcases (hof clause hclause).2 other hother with rfl | ⟨text, hmem⟩
    · exact hG.openIf (hopener.good (by simp [hole]) rfl)
    · exact hG.elseIf ((hbody _ hmem).good (by simp [hole]) rfl)
  have hrun (w : Text) (hw : Inert r.options.whitespace w) :
      r.expandConditional expand ⟨V w, directory⟩
        ⟨.tag (.openIf condition) content, fill w (veil body), closer⟩ =
        (Renderer.chosen? (V ['m']) clauses).elim (pure []) fun clause =>
          expand ⟨V w, directory⟩ (r.body (fill w clause.body)) := by
    rw [Renderer.expandConditional, hclauses, chosen?_map_fillWith, hsame w hw]
    cases Renderer.chosen? (V ['m']) clauses <;> rfl
  cases hchosen : Renderer.chosen? (V ['m']) clauses with
  | none =>
    refine (Uniformly.ok (.const (s := []) (by simp) (by simp))).congr fun w hw => ?_
    rw [hrun w hw, hchosen]
    rfl
  | some clause =>
    obtain ⟨part, hpart, heq⟩ := (hof clause (List.mem_of_find?_eq_some hchosen)).1
    have hfit : ∀ y ∈ part.flatMap Piece.symbols, Fit r.options.whitespace Good y := by
      intro y hy
      obtain ⟨piece, hpiece, hmem⟩ := List.mem_flatMap.mp hy
      exact hbody y (List.mem_flatMap.mpr ⟨piece, hpart piece hpiece, hmem⟩)
    refine (hE V directory _ hV (uniformText_body hfit)).congr fun w hw => ?_
    rw [hrun w hw, hchosen, ← heq]
    rfl

/-- The items are the same for all values. -/
lemma uniformly_expandLoop (hopen : Pair.opens .loop opener = true) :
    Uniformly r.options.whitespace (UniformText r.options.whitespace Good) fun w =>
      (r.expandLoop expand ⟨V w, directory⟩ ⟨opener, fill w (veil body), closer⟩).run read := by
  obtain ⟨item, source, content, rfl⟩ :
      ∃ item source content, opener = .tag (.openFor item source) content := by
    cases opener with
    | char c => cases hopen
    | tag t content => cases t <;> first | exact ⟨_, _, _, rfl⟩ | cases hopen
  have hgood : Good (.openFor item source) := hopener.good (by simp [hole]) rfl
  have hsame (w : Text) (hw : Inert r.options.whitespace w) :
      LoopSource.items source (V w) = LoopSource.items source (V ['m']) :=
    hV.eq_of_ignores (hG.openFor hgood) hw
  have hitems (items : List Value) (h : LoopSource.items source (V ['m']) = .ok items) :
      Uniformly r.options.whitespace (UniformText r.options.whitespace Good) fun w =>
        (Rendering.concatMap (fun v => expand ⟨(V w).insert item v, directory⟩
          (r.body (fill w (veil body)))) items).run read := by
    have hscope (w : Text) (hw : Inert r.options.whitespace w) (v : Value) (hv : v ∈ items) :
        Scope ((V w).insert item v) :=
      hG.scope_openFor item source hgood _ (hV.scope w hw) items ((hsame w hw).trans h) v hv
    clear h
    induction items with
    | nil => exact (Uniformly.ok (.const (s := []) (by simp) (by simp))).congr fun w _ => by simp
    | cons v items ih =>
      have hone := hE _ directory _ (hV.insert item v fun w hw => hscope w hw v List.mem_cons_self)
        (uniformText_body hbody)
      have hrest := ih fun w hw u hu => hscope w hw u (List.mem_cons_of_mem v hu)
      exact (hone.join hrest).congr fun w _ => Rendering.run_concatMap_cons read _ v items
  cases hsource : LoopSource.items source (V ['m']) with
  | error e =>
    refine (Uniformly.error e).congr fun w hw => ?_
    rw [Renderer.expandLoop]
    dsimp only
    rw [hsame w hw, hsource]
    rfl
  | ok items =>
    refine (hitems items hsource).congr fun w hw => ?_
    rw [Renderer.expandLoop]
    dsimp only
    rw [hsame w hw, hsource]
    rfl

end
end Stencil
