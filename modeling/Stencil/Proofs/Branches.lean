import Stencil.Proofs.Laminar

/-! The branches of a conditional by its tokens. Main statement: they are what stands between the
conditional's own headers, up to the first `else`, and with the headers they tile the text from the
`if` to its `endif`. -/
namespace Stencil

/-- The tokens before which as many constructs close as open, when `depth` are open at the
start. -/
def outer (p : Pair) (depth : ℕ) (ts : List Token) : List Token :=
  (List.range ts.length).filterMap fun k =>
    let before := (ts.take k).map Token.symbol
    if before.countP p.opens + depth = before.countP p.closes then ts[k]? else none

/-- Tokens up to the first `else`. -/
def throughElse : List Token → List Token
  | [] => []
  | t :: ts => if t.tag = .orElse then [t] else t :: throughElse ts

/-- The tokens that begin a new branch: the headers outside inner conditionals, up to the first
`else`. -/
def branchHeaders (ts : List Token) : List Token :=
  throughElse ((outer .conditional 0 ts).filter fun t => (Clause.header? t.symbol).isSome)

/-- The branches from one byte to another, of which the first has a given condition and the others
begin at headers. -/
def branches : (condition : Option Text) → (start : ℕ) → (headers : List Token) → (stop : ℕ) →
    List (Option Text × Span)
  | condition, start, [], stop => [(condition, ⟨start, stop⟩)]
  | condition, start, h :: headers, stop =>
    (condition, ⟨start, h.start⟩) ::
      branches (Clause.header? h.symbol).join h.stop headers stop

/-- Spans that stand one directly behind the other, from one byte to another. -/
inductive Tiles : (start : ℕ) → List Span → (stop : ℕ) → Prop
  | nil {start} : Tiles start [] start
  | cons {start middle stop rest} (hle : start ≤ middle) (h : Tiles middle rest stop) :
    Tiles start (⟨start, middle⟩ :: rest) stop

/-- The branches with the tokens that separate them. -/
def tiling : List (Option Text × Span) → List Token → List Span
  | b :: branches, h :: headers => b.2 :: ⟨h.start, h.stop⟩ :: tiling branches headers
  | branches, _ => branches.map (·.2)

section
variable {p : Pair} {depth start line : ℕ} {y : Symbol} {ts : List Token}

/-- The first token shifts the depth for those behind it. -/
lemma outer_cons {depth' : ℕ} (htag : y.tag?.isSome = true)
    (hdepth : ∀ a b, a + (if p.opens y then 1 else 0) + depth =
      b + (if p.closes y then 1 else 0) ↔ a + depth' = b) :
    outer p depth (Token.ofSymbol start line y :: ts) =
      (if depth = 0 then [Token.ofSymbol start line y] else []) ++ outer p depth' ts := by
  have hfirst : (([] : List Symbol).countP p.opens + depth = ([] : List Symbol).countP p.closes) =
      (depth = 0) := by simp
  rw [outer, List.length_cons, List.range_succ_eq_map, List.filterMap_cons, List.filterMap_map]
  simp only [List.take_zero, List.map_nil, hfirst, Function.comp_def, List.take_succ_cons,
    List.map_cons, List.countP_cons, opens_ofSymbol htag, closes_ofSymbol htag, hdepth,
    List.getElem?_cons_succ, List.getElem?_cons_zero]
  by_cases h : depth = 0
  · rw [if_pos h, if_pos h]
    rfl
  · rw [if_neg h, if_neg h]
    rfl

/-- The headers of new branches when `depth` conditionals are open and, maybe, the `else` has
come. -/
def headersFrom (depth : ℕ) (final : Bool) (ts : List Token) : List Token :=
  if final then []
  else throughElse ((outer .conditional depth ts).filter fun t => (Clause.header? t.symbol).isSome)

end

namespace Clause
variable {condition : Option Text}

lemma header?_ofSymbol {y : Symbol} (h : y.tag?.isSome = true) (start line : ℕ) :
    header? (Token.ofSymbol start line y).symbol = header? y := by
  obtain ⟨t, written, rfl⟩ := Symbol.exists_of_tag? h
  cases t <;> rfl

lemma split_of_header?_eq_none {depth : ℕ} {final : Bool} {y : Symbol}
    (h : (if depth = 0 && !final then header? y else none) = none) (l : List Symbol) :
    split depth final (y :: l) =
      (y :: (split (depthAfter depth y) final l).1, (split (depthAfter depth y) final l).2) := by
  rw [split, h]

lemma split_of_header?_eq_some {y : Symbol} (h : header? y = some condition) (l : List Symbol) :
    split 0 false (y :: l) =
      ([], ⟨y, condition, (split 0 condition.isNone l).1⟩ :: (split 0 condition.isNone l).2) := by
  rw [split]
  simp [h]

/-- A header neither opens nor closes a conditional. -/
lemma neutral_of_header? {y : Symbol} (h : header? y = some condition) :
    Pair.opens .conditional y = false ∧ Pair.closes .conditional y = false ∧
      y.tag?.isSome = true ∧ (y.tag?.getD .other = .orElse ↔ condition = none) := by
  cases y with
  | char c => cases h
  | tag t written => cases t <;> cases h <;> simp [Pair.opens, Pair.closes, Symbol.tag?]

end Clause

open Outline

section
variable {depth start line : ℕ} {final : Bool} {y : Symbol} {l : List Symbol}

lemma headersFrom_nil : headersFrom depth final [] = [] := by cases final <;> rfl

lemma headersFrom_cons_char (c : Char) :
    headersFrom depth final (Token.locate start line (.char c :: l)) = headersFrom depth final
      (Token.locate (start + (Symbol.char c).text.byteSize)
        (line + (Symbol.char c).text.count '\n') l) := by
  have := Token.locate_map_char start line [c] l
  rw [List.map_singleton, List.singleton_append] at this
  rw [this]
  rfl

/-- What is no header of the conditional only changes the depth. -/
lemma headersFrom_cons_plain
    (hdepth : ∀ a b, a + (if Pair.opens .conditional y then 1 else 0) + depth =
      b + (if Pair.closes .conditional y then 1 else 0) ↔ a + Clause.depthAfter depth y = b)
    (hheader : (if depth = 0 && !final then Clause.header? y else none) = none) :
    headersFrom depth final (Token.locate start line (y :: l)) =
      headersFrom (Clause.depthAfter depth y) final
        (Token.locate (start + y.text.byteSize) (line + y.text.count '\n') l) := by
  cases y with
  | char c => exact headersFrom_cons_char c
  | tag t written =>
    rw [Token.locate_cons rfl]
    cases final with
    | true => rfl
    | false =>
      have htoken : (if depth = 0 then [Token.ofSymbol start line (.tag t written)] else []).filter
          (fun t => (Clause.header? t.symbol).isSome) = [] := by
        by_cases h : depth = 0
        · have hnone : Clause.header? (.tag t written) = none := by simpa [h] using hheader
          rw [if_pos h, List.filter_singleton, Clause.header?_ofSymbol rfl, hnone]
          rfl
        · rw [if_neg h]
          rfl
      rw [headersFrom, headersFrom, outer_cons rfl hdepth, List.filter_append, htoken]
      rfl

lemma headersFrom_cons_header {condition : Option Text} (h : Clause.header? y = some condition) :
    headersFrom 0 false (Token.locate start line (y :: l)) = Token.ofSymbol start line y ::
      headersFrom 0 condition.isNone
        (Token.locate (start + y.text.byteSize) (line + y.text.count '\n') l) := by
  obtain ⟨hopen, hclose, htag, helse⟩ := Clause.neutral_of_header? h
  have hsome : (Clause.header? (Token.ofSymbol start line y).symbol).isSome = true := by
    rw [Clause.header?_ofSymbol htag, h]
    rfl
  have helse' : (Token.ofSymbol start line y).tag = .orElse ↔ condition = none := helse
  have hdepth (a b : ℕ) : a + (if Pair.opens .conditional y then 1 else 0) + 0 =
      b + (if Pair.closes .conditional y then 1 else 0) ↔ a + 0 = b := by
    simp [hopen, hclose]
  rw [Token.locate_cons htag, headersFrom, outer_cons htag hdepth]
  simp only [if_true, List.singleton_append, List.filter_cons, hsome, throughElse, helse',
    Bool.false_eq_true, if_false]
  cases condition with
  | none => rfl
  | some condition => simp [headersFrom]

end

/-- The spans of the branch in progress, which has begun at the byte `first`, and of the branches
after it, where the rest of the conditional stands at `start`. -/
def spansFrom (condition : Option Text) (first start depth : ℕ) (final : Bool) (l : List Symbol) :
    List (Option Text × Span) :=
  let stop := start + byteSize (Clause.split depth final l).1
  (condition, ⟨first, stop⟩) :: clauseSpans stop (Clause.split depth final l).2

section
variable {depth start first : ℕ} {final : Bool} {y : Symbol} {condition : Option Text}

lemma spansFrom_cons_plain
    (h : (if depth = 0 && !final then Clause.header? y else none) = none) (l : List Symbol) :
    spansFrom condition first start depth final (y :: l) = spansFrom condition first
      (start + y.text.byteSize) (Clause.depthAfter depth y) final l := by
  rw [spansFrom, spansFrom, Clause.split_of_header?_eq_none h]
  simp [byteSize_eq, Nat.add_assoc]

lemma spansFrom_cons_header {next : Option Text} (h : Clause.header? y = some next)
    (l : List Symbol) :
    spansFrom condition first start 0 false (y :: l) = (condition, ⟨first, start⟩) ::
      spansFrom next (start + y.text.byteSize) (start + y.text.byteSize) 0 next.isNone l := by
  rw [spansFrom, spansFrom, Clause.split_of_header?_eq_some h]
  simp [byteSize, clauseSpans]

/-- The branches in the rest of a conditional are what stands between the headers in it. -/
lemma spansFrom_eq_branches {l : List Symbol} (h : Descends .conditional depth l) (line : ℕ) :
    spansFrom condition first start depth final l = branches condition first
      (headersFrom depth final (Token.locate start line l)) (start + byteSize l) := by
  have hsize (start : ℕ) (y : Symbol) (l : List Symbol) :
      start + byteSize (y :: l) = start + y.text.byteSize + byteSize l := by
    rw [byteSize_eq, byteSize_eq, Symbol.textOf_cons, Text.byteSize_append, Nat.add_assoc]
  -- along the walk through the conditional; only a neutral symbol can be one of its headers
  induction h generalizing start line first final condition with
  | nil =>
    simp [spansFrom, Clause.split, clauseSpans, Token.locate, headersFrom_nil, branches, byteSize]
  | @opener depth y l hopen _ ih =>
    have hclose := Pair.closes_of_opens hopen
    have hdepth : Clause.depthAfter depth y = depth + 1 := by simp [Clause.depthAfter, hopen]
    have hheader : Clause.header? y = none := by
      refine Option.eq_none_iff_forall_ne_some.mpr fun condition h => ?_
      rw [(Clause.neutral_of_header? h).1] at hopen
      cases hopen
    rw [spansFrom_cons_plain (by simp [hheader]), headersFrom_cons_plain _ (by simp [hheader]),
      hdepth, hsize]
    · exact ih _
    · simp only [hopen, hclose, hdepth, if_true, Bool.false_eq_true, if_false]
      omega
  | @closer depth y l hclose _ ih =>
    have hopen := Pair.opens_of_closes hclose
    have hdepth : Clause.depthAfter (depth + 1) y = depth := by
      simp [Clause.depthAfter, hopen, hclose]
    rw [spansFrom_cons_plain (by simp), headersFrom_cons_plain _ (by simp), hdepth, hsize]
    · exact ih _
    · simp only [hopen, hclose, hdepth, if_true, Bool.false_eq_true, if_false]
      omega
  | @neutral depth y l hopen hclose _ ih =>
    have hdepth : Clause.depthAfter depth y = depth := by simp [Clause.depthAfter, hopen, hclose]
    cases hheader : if depth = 0 && !final then Clause.header? y else none with
    | none =>
      rw [spansFrom_cons_plain hheader, headersFrom_cons_plain _ hheader, hdepth, hsize]
      · exact ih _
      · simp [hopen, hclose, hdepth]
    | some next =>
      obtain ⟨⟨rfl, rfl⟩, hsome⟩ : (depth = 0 ∧ final = false) ∧ Clause.header? y = some next := by
        simpa using hheader
      have hnext : (Clause.header? (Token.ofSymbol start line y).symbol).join = next := by
        rw [Clause.header?_ofSymbol (Clause.neutral_of_header? hsome).2.2.1, hsome]
        rfl
      rw [spansFrom_cons_header hsome, headersFrom_cons_header hsome, branches, hnext, hsize,
        ih (line + y.text.count '\n')]
      rfl

end

namespace Token

/-- Tokens that stand one behind the other, from one byte to another. -/
def InOrder : (start : ℕ) → List Token → (stop : ℕ) → Prop
  | start, [], stop => start ≤ stop
  | start, t :: ts, stop => start ≤ t.start ∧ InOrder t.stop ts stop

/-- The token without its line. -/
def unlined (t : Token) : Token := { t with line := 0 }

lemma InOrder.mono {start start' stop : ℕ} {ts : List Token} (hle : start ≤ start')
    (h : InOrder start' ts stop) : InOrder start ts stop := by
  cases ts with
  | nil => exact hle.trans h
  | cons t ts => exact ⟨hle.trans h.1, h.2⟩

lemma InOrder.sublist {start stop : ℕ} {ts ts' : List Token} (hsub : ts'.Sublist ts)
    (h : InOrder start ts stop) : InOrder start ts' stop := by
  induction hsub generalizing start with
  | slnil => exact h
  | cons t _ ih => exact (ih h.2).mono (h.1.trans (Nat.le_add_right _ _))
  | cons_cons t _ ih => exact ⟨h.1, ih h.2⟩

lemma inOrder_locate (start line : ℕ) (l : List Symbol) :
    InOrder start (locate start line l) (start + (Symbol.textOf l).byteSize) := by
  induction l generalizing start line with
  | nil => exact le_rfl
  | cons y l ih =>
    rw [Symbol.textOf_cons, Text.byteSize_append, ← Nat.add_assoc]
    cases y with
    | char c => exact (ih _ _).mono (Nat.le_add_right _ _)
    | tag t written => exact ⟨le_rfl, ih _ _⟩

lemma byteSize_replicate_blank (n : ℕ) : Text.byteSize (List.replicate n ' ') = n := by
  induction n with
  | zero => rfl
  | succ n ih =>
    rw [List.replicate_succ, Text.byteSize_cons, ih, Nat.add_comm]
    rfl

/-- All tokens in order are, up to their lines, the tokens of some symbols. -/
lemma exists_locate_eq {start stop line : ℕ} {ts : List Token} (h : InOrder start ts stop) :
    ∃ l, (locate start line l).map unlined = ts.map unlined := by
  induction ts generalizing start line with
  | nil => exact ⟨[], rfl⟩
  | cons t ts ih =>
    -- blanks fill the gap before the token, and the token itself
    let gap : Text := List.replicate (t.start - start) ' '
    let y := Symbol.tag t.tag (List.replicate t.length ' ')
    have hgap : start + gap.byteSize = t.start := by
      rw [byteSize_replicate_blank]
      exact Nat.add_sub_cancel' h.1
    have hy : y.text.byteSize = t.length := byteSize_replicate_blank t.length
    obtain ⟨l, hl⟩ := @ih t.stop (line + gap.count '\n' + y.text.count '\n') h.2
    refine ⟨gap.map .char ++ y :: l, ?_⟩
    rw [locate_map_char, hgap, locate_cons rfl, hy, List.map_cons, List.map_cons]
    exact congrArg₂ List.cons (congrArg (Token.mk t.tag t.start · 0) hy) hl

end Token

section
variable {p : Pair} {start stop : ℕ} {ts : List Token} {condition : Option Text}

lemma filterMap_range_sublist (keep : ℕ → Prop) [DecidablePred keep] (ts : List Token) :
    ((List.range ts.length).filterMap fun k => if keep k then ts[k]? else none).Sublist ts := by
  induction ts generalizing keep with
  | nil => exact .slnil
  | cons t ts ih =>
    rw [List.length_cons, List.range_succ_eq_map, List.filterMap_cons, List.filterMap_map]
    have := ih (fun k => keep (k + 1))
    by_cases h : keep 0
    · simp only [h, if_true, List.getElem?_cons_zero]
      exact this.cons_cons t
    · simp only [h, if_false]
      exact this.cons t

lemma throughElse_sublist (ts : List Token) : (throughElse ts).Sublist ts := by
  induction ts with
  | nil => exact .slnil
  | cons t ts ih =>
    rw [throughElse]
    split
    · exact (List.nil_sublist ts).cons_cons t
    · exact ih.cons_cons t

lemma branchHeaders_sublist (ts : List Token) : (branchHeaders ts).Sublist ts :=
  (throughElse_sublist _).trans (List.filter_sublist.trans (filterMap_range_sublist _ ts))

lemma ne_orElse_of_mem_dropLast {t : Token} (h : t ∈ (throughElse ts).dropLast) :
    t.tag ≠ .orElse := by
  induction ts with
  | nil => cases h
  | cons u ts ih =>
    rw [throughElse] at h
    split at h
    · cases h
    · rename_i hu
      cases hts : throughElse ts with
      | nil =>
        rw [hts] at h
        cases h
      | cons v rest =>
        rw [hts, List.dropLast_cons_cons] at h
        rcases List.mem_cons.mp h with rfl | h
        · exact hu
        · exact ih (hts ▸ h)

lemma tiles_tiling (h : Token.InOrder start ts stop) :
    Tiles start (tiling (branches condition start ts stop) ts) stop := by
  induction ts generalizing start condition with
  | nil => exact .cons h .nil
  | cons t ts ih => exact .cons h.1 (.cons (Nat.le_add_right _ _) (ih h.2))

lemma branches_ne_nil (headers : List Token) : branches condition start headers stop ≠ [] := by
  cases headers <;> exact List.cons_ne_nil _ _

/-- Only the last branch can lack a condition. -/
lemma isSome_of_mem_dropLast_branches {headers : List Token} {b : Option Text × Span}
    (hfirst : headers ≠ [] → condition.isSome = true)
    (hheaders : ∀ t ∈ headers.dropLast, (Clause.header? t.symbol).join.isSome = true)
    (h : b ∈ (branches condition start headers stop).dropLast) : b.1.isSome = true := by
  induction headers generalizing start condition with
  | nil => cases h
  | cons t headers ih =>
    rw [branches, List.dropLast_cons_of_ne_nil (branches_ne_nil headers)] at h
    rcases List.mem_cons.mp h with rfl | h
    · exact hfirst (List.cons_ne_nil _ _)
    · refine ih (fun hne => hheaders t ?_) (fun u hu => hheaders u ?_) h
      · rw [List.dropLast_cons_of_ne_nil hne]
        exact List.mem_cons_self
      · rw [List.dropLast_cons_of_ne_nil (List.ne_nil_of_mem (List.mem_of_mem_dropLast hu))]
        exact List.mem_cons_of_mem t hu

lemma condition_of_mem_dropLast_branchHeaders {t : Token} (h : t ∈ (branchHeaders ts).dropLast) :
    (Clause.header? t.symbol).join.isSome = true := by
  have htag : t.tag ≠ .orElse := ne_orElse_of_mem_dropLast h
  have hheader : (Clause.header? t.symbol).isSome = true :=
    (List.mem_filter.mp ((throughElse_sublist _).subset (List.mem_of_mem_dropLast h))).2
  obtain ⟨tag, tagStart, length, line⟩ := t
  cases tag with
  | elseIf condition => rfl
  | orElse => exact absurd rfl htag
  | _ => cases hheader

end

namespace Outline
variable {start line index i : ℕ} {y : Symbol} {rest : List Symbol}

lemma match?_eq_conditional_iff {result : Option (ℕ × List (Option Text × Span))} :
    match? start index y rest = some (.conditional i result) ↔
      Pair.opens .conditional y = true ∧ index = i ∧
        (construct? .conditional index y rest).map (fun (c, closer) =>
          (closer, clauseSpans start (Clause.ofConstruct c))) = result := by
  cases y with
  | char c => simp [match?]
  | tag t written => cases t <;> simp [match?, Pair.opens]

/-- A tag is found by the number of tags before it. -/
lemma eq_of_append_eq_append {before before' rest' : List Symbol} {y' : Symbol}
    (htag : y.tag?.isSome = true) (htag' : y'.tag?.isSome = true)
    (happ : before ++ y :: rest = before' ++ y' :: rest')
    (hcount : tagCount before = tagCount before') : before = before' ∧ y = y' ∧ rest = rest' := by
  have hlonger {before extra : List Symbol} {y : Symbol} (htag : y.tag?.isSome = true)
      (hcount : tagCount before = tagCount (before ++ y :: extra)) : False := by
    have : (y :: extra).countP (fun y => y.tag?.isSome) ≠ 0 := by
      simp [List.countP_eq_zero, htag]
    rw [tagCount, tagCount, List.countP_append] at hcount
    omega
  rcases List.append_eq_append_iff.mp happ with ⟨extra, rfl, hrest⟩ | ⟨extra, rfl, hrest⟩
  · cases extra with
    | nil => simpa using hrest
    | cons z extra =>
      obtain ⟨rfl, -⟩ := List.cons.inj hrest
      exact (hlonger htag hcount).elim
  · cases extra with
    | nil => simpa [eq_comm] using hrest
    | cons z extra =>
      obtain ⟨rfl, -⟩ := List.cons.inj hrest
      exact (hlonger htag' hcount.symm).elim

/-- Each token of an `if` has one conditional in the outline. -/
lemma mem_matchesFrom_conditional_iff (start : ℕ) (before rest : List Symbol)
    (hopen : Pair.opens .conditional y = true)
    (result : Option (ℕ × List (Option Text × Span))) :
    .conditional (tagCount before) result ∈ matchesFrom start 0 (before ++ y :: rest) ↔
      result = (construct? .conditional (tagCount before) y rest).map fun (c, closer) =>
        (closer, clauseSpans (start + (Symbol.textOf before).byteSize) (Clause.ofConstruct c)) := by
  rw [mem_matchesFrom_iff]
  simp only [match?_eq_conditional_iff, Nat.zero_add]
  constructor
  · rintro ⟨before', y', rest', happ, hopen', hcount, rfl⟩
    obtain ⟨rfl, rfl, rfl⟩ := eq_of_append_eq_append (Pair.tag?_of_opens hopen)
      (Pair.tag?_of_opens hopen') happ hcount.symm
    rfl
  · rintro rfl
    exact ⟨before, y, rest, rfl, hopen, rfl, rfl⟩

lemma between_locate (start line : ℕ) (before body after : List Symbol)
    (htag : y.tag?.isSome = true) :
    ∃ line', between (Token.locate start line (before ++ y :: (body ++ after))) (tagCount before)
        (tagCount before + 1 + tagCount body) =
      Token.locate (start + (Symbol.textOf before).byteSize + y.text.byteSize) line' body := by
  refine ⟨line + (Symbol.textOf before).count '\n' + y.text.count '\n', ?_⟩
  have hbefore := length_locate start line before
  have hbody := length_locate (start + (Symbol.textOf before).byteSize + y.text.byteSize)
    (line + (Symbol.textOf before).count '\n' + y.text.count '\n') body
  rw [between_eq, Token.locate_append, Token.locate_cons htag, Token.locate_append, ← hbefore,
    ← List.drop_drop, List.drop_left, List.drop_succ_cons, List.drop_zero, ← hbody, List.take_left]

end Outline

namespace Clause

lemma flatMap_split (depth : ℕ) (final : Bool) (l : List Symbol) :
    (split depth final l).1 ++ (split depth final l).2.flatMap (fun b => b.header :: b.body) =
      l := by
  induction l generalizing depth final with
  | nil => rfl
  | cons y l ih =>
    cases hheader : if depth = 0 && !final then header? y else none with
    | none =>
      rw [split_of_header?_eq_none hheader, List.cons_append, ih]
    | some condition =>
      obtain ⟨⟨rfl, rfl⟩, hsome⟩ : (depth = 0 ∧ final = false) ∧ header? y = some condition := by
        simpa using hheader
      rw [split_of_header?_eq_some hsome, List.nil_append, List.flatMap_cons, List.cons_append, ih]

/-- The headers and bodies of the branches are all of the conditional but its `endif`. -/
lemma flatMap_ofConstruct (c : Construct) :
    (ofConstruct c).flatMap (fun b => b.header :: b.body) = c.opener :: c.body := by
  rw [ofConstruct, List.flatMap_cons, List.cons_append, flatMap_split]

end Clause

section
variable {start line : ℕ} {condition written : Text} {before body rest after : List Symbol}
  {closer : Symbol}

lemma clauseSpans_ofConstruct (hbody : Descends .conditional 0 body) (line : ℕ) :
    clauseSpans start (Clause.ofConstruct ⟨.tag (.openIf condition) written, body, closer⟩) =
      branches (some condition) (start + written.byteSize)
        (branchHeaders (Token.locate (start + written.byteSize) line body))
        (start + written.byteSize + (Symbol.textOf body).byteSize) := by
  rw [← byteSize_eq]
  exact spansFrom_eq_branches hbody line

/-- The branches of a closed conditional are what stands between its headers. -/
lemma clauseSpans_of_splitClose? (start line : ℕ) (condition written : Text)
    (before : List Symbol) (h : splitClose? .conditional 0 rest = some (body, closer, after)) :
    let ts := Token.locate start line (before ++ .tag (.openIf condition) written :: rest)
    let headers :=
      branchHeaders (between ts (tagCount before) (tagCount before + 1 + tagCount body))
    let first := start + (Symbol.textOf before).byteSize + written.byteSize
    let clauses := clauseSpans (start + (Symbol.textOf before).byteSize)
      (Clause.ofConstruct ⟨.tag (.openIf condition) written, body, closer⟩)
    ∃ t, ts[tagCount before + 1 + tagCount body]? = some t ∧
      clauses = branches (some condition) first headers t.start ∧
      (∀ b ∈ clauses.dropLast, b.1.isSome = true) ∧
      Tiles first (tiling clauses headers) t.start := by
  intro ts headers first clauses
  obtain ⟨rfl, hclose⟩ := eq_append_of_splitClose? h
  obtain ⟨line', hbetween⟩ := between_locate start line before body (closer :: after)
    (y := .tag (.openIf condition) written) rfl
  have hclauses : clauses = branches (some condition) first headers
      (first + (Symbol.textOf body).byteSize) := by
    simp only [headers, ts]
    rw [hbetween]
    exact clauseSpans_ofConstruct (descends_of_splitClose? h) line'
  have horder : Token.InOrder first headers (first + (Symbol.textOf body).byteSize) := by
    simp only [headers, ts]
    rw [hbetween]
    exact (Token.inOrder_locate first line' body).sublist (branchHeaders_sublist _)
  obtain ⟨t, ht, hstart⟩ : ∃ t, ts[tagCount before + 1 + tagCount body]? = some t ∧
      t.start = first + (Symbol.textOf body).byteSize := by
    obtain ⟨tag, closing, rfl⟩ := Symbol.exists_of_tag? (Pair.tag?_of_closes hclose)
    obtain ⟨line'', ht⟩ := getElem?_locate_append start line
      (before ++ .tag (.openIf condition) written :: body) after tag closing
    have hcount : tagCount (before ++ .tag (.openIf condition) written :: body) =
        tagCount before + 1 + tagCount body := by
      rw [tagCount, List.countP_append, List.countP_cons_of_pos rfl, ← Nat.add_right_comm]
      rfl
    rw [hcount, List.append_assoc, List.cons_append] at ht
    exact ⟨_, ht, by simp [Token.ofSymbol, first, Symbol.text, Nat.add_assoc]⟩
  refine ⟨t, ht, hstart ▸ hclauses, fun b hb => ?_, ?_⟩
  · rw [hclauses] at hb
    exact isSome_of_mem_dropLast_branches (fun _ => rfl)
      (fun t ht => condition_of_mem_dropLast_branchHeaders ht) hb
  · rw [hclauses, hstart]
    exact tiles_tiling horder

end

/-- A closed conditional of the outline, by the tokens. -/
lemma exists_of_mem_matchesFrom {start i j : ℕ} {l : List Symbol}
    {clauses : List (Option Text × Span)}
    (h : .conditional i (some (j, clauses)) ∈ matchesFrom start 0 l) (line : ℕ) :
    let ts := Token.locate start line l
    let headers := branchHeaders (between ts i j)
    ∃ opener closer condition, ts[i]? = some opener ∧ ts[j]? = some closer ∧
      opener.tag = .openIf condition ∧ closerAt? .conditional (ts.map Token.symbol) i = some j ∧
      clauses = branches (some condition) opener.stop headers closer.start ∧
      (∀ b ∈ clauses.dropLast, b.1.isSome = true) ∧
      Tiles opener.stop (tiling clauses headers) closer.start := by
  obtain ⟨before, y, rest, rfl, hmatch⟩ := mem_matchesFrom_iff.mp h
  obtain ⟨hopen, rfl, hresult⟩ := match?_eq_conditional_iff.mp hmatch
  obtain ⟨condition, written, rfl⟩ : ∃ condition written, y = .tag (.openIf condition) written := by
    cases y with
    | char c => cases hopen
    | tag t written =>
      cases t with
      | openIf condition => exact ⟨condition, written, rfl⟩
      | _ => cases hopen
  obtain ⟨⟨c, closerIndex⟩, hconstruct, heq⟩ := Option.map_eq_some_iff.mp hresult
  obtain ⟨⟨body, closer, after⟩, hfound, hc⟩ := Option.map_eq_some_iff.mp hconstruct
  cases hc
  cases heq
  rw [Nat.zero_add]
  obtain ⟨line', hopener⟩ :=
    getElem?_locate_append start line before rest (.openIf condition) written
  obtain ⟨t, ht, hclauses⟩ :=
    clauseSpans_of_splitClose? start line condition written before hfound
  refine ⟨_, t, condition, hopener, ht, rfl, ?_, hclauses⟩
  rw [closerAt?_locate, hfound]
  rfl

/-- The branches of every conditional. Symbols have, up to the lines, any tokens that stand in
order. For each token of an `if` among them the outline has one conditional. It has an end when
some later `endif` stands at depth zero, and the end is then the first of those. Its branches are
what stands between the headers at depth zero, up to and with the first `else`: with those they
tile the text from the `if` to the `endif`, and only the last can lack a condition. Nothing of a
conditional but its `endif` stands outside its headers and branches. -/
theorem conditional_branches :
    (∀ ts stop, Token.InOrder 0 ts stop →
      ∃ l, (Token.locate 0 1 l).map Token.unlined = ts.map Token.unlined) ∧
    (∀ (start line i : ℕ) (l : List Symbol) (opener : Token) (condition : Text),
      let ts := Token.locate start line l
      ts[i]? = some opener → opener.tag = .openIf condition →
      ∃ result : Option (ℕ × List (Option Text × Span)),
        (∀ r, .conditional i r ∈ matchesFrom start 0 l ↔ r = result) ∧
        (result.isSome = true ↔ ∃ j, EndsAt .conditional (ts.map Token.symbol) i j) ∧
        ∀ j clauses, result = some (j, clauses) →
          IsLeast {j | EndsAt .conditional (ts.map Token.symbol) i j} j ∧
          ∃ closer, ts[j]? = some closer ∧
            clauses = branches (some condition) opener.stop (branchHeaders (between ts i j))
              closer.start ∧
            (∀ b ∈ clauses.dropLast, b.1.isSome = true) ∧
            Tiles opener.stop (tiling clauses (branchHeaders (between ts i j))) closer.start) ∧
    ∀ c : Construct,
      (Clause.ofConstruct c).flatMap (fun b => b.header :: b.body) = c.opener :: c.body := by
  refine ⟨fun ts stop h => Token.exists_locate_eq h, fun start line i l opener condition => ?_,
    Clause.flatMap_ofConstruct⟩
  intro ts hopener htag
  obtain ⟨before, written, rest, line', rfl, rfl, -⟩ := exists_of_getElem?_locate hopener
  have hopen : Pair.opens .conditional (.tag opener.tag written) = true := by
    rw [htag]
    rfl
  have hmem := mem_matchesFrom_conditional_iff start before rest hopen
  refine ⟨_, hmem, ?_, fun j clauses hresult => ?_⟩
  · rw [← closerAt?_isSome_iff_endsAt, closerAt?_locate]
    simp only [construct?, Option.isSome_map]
  · obtain ⟨opener', closer, condition', hopener', hcloser, htag', hleast, hclauses⟩ :=
      exists_of_mem_matchesFrom ((hmem _).mpr hresult.symm) line
    obtain rfl : opener = opener' := Option.some.inj (hopener.symm.trans hopener')
    obtain rfl : condition = condition' := Tag.openIf.inj (htag.symm.trans htag')
    exact ⟨closerAt?_eq_some_iff_endsAt.mp hleast, closer, hcloser, hclauses⟩

/-- The headers of the inner conditional separate no branches of the outer one, and neither does
the second `else`. -/
theorem conditional_branches_nested :
    let l := Scan.symbols
      "{% if a %}1{% if b %}{% else %}{% endif %}{% elseif c %}{% else %}2{% else %}3{% endif %}".toList
    ∃ result : Option (ℕ × List (Option Text × Span)),
      (∀ r, .conditional 0 r ∈ matchesFrom 0 0 l ↔ r = result) ∧
      result = some (7, [(some ['a'], ⟨10, 42⟩), (some ['c'], ⟨56, 56⟩), (none, ⟨66, 78⟩)]) := by
  intro l
  obtain ⟨result, hmem, -⟩ := conditional_branches.2.1 0 1 0 l
    ⟨.openIf ['a'], 0, 10, 1⟩ ['a'] (by decide +kernel) rfl
  exact ⟨result, hmem, ((hmem _).mp (by decide +kernel)).symm⟩

end Stencil
