import Stencil.Proofs.Matching

/-! Openers and closers as brackets. The walk from an opener ends at the first closer up to which
more constructs of the kind close than open. So two matched constructs lie apart or one of them
lies in the body of the other. -/
namespace Stencil

lemma Pair.closes_of_opens {p : Pair} {y : Symbol} (h : p.opens y = true) :
    p.closes y = false := by
  by_contra hclose
  rw [Pair.opens_of_closes (by simpa using hclose)] at h
  cases h

/-- A list that leads the walk to a closer from a depth down to zero, and that does not hold the
closer itself. -/
inductive Descends (p : Pair) : (depth : ℕ) → List Symbol → Prop
  | nil : Descends p 0 []
  | opener {depth y l} (hopen : p.opens y = true) (h : Descends p (depth + 1) l) :
    Descends p depth (y :: l)
  | closer {depth y l} (hclose : p.closes y = true) (h : Descends p depth l) :
    Descends p (depth + 1) (y :: l)
  | neutral {depth y l} (hopen : p.opens y = false) (hclose : p.closes y = false)
    (h : Descends p depth l) : Descends p depth (y :: l)

section
variable {p : Pair} {depth : ℕ} {l body after : List Symbol} {closer : Symbol}

lemma descends_of_splitClose? (h : splitClose? p depth l = some (body, closer, after)) :
    Descends p depth body := by
  induction l generalizing depth body with
  | nil => simp at h
  | cons y l ih =>
    have hskip {depth' : ℕ} (h : (splitClose? p depth' l).map
        (fun found => (y :: found.1, found.2)) = some (body, closer, after)) :
        ∃ rest, body = y :: rest ∧ Descends p depth' rest := by
      obtain ⟨⟨b, c, a⟩, hfound, heq⟩ := Option.map_eq_some_iff.mp h
      cases heq
      exact ⟨b, rfl, ih hfound⟩
    rw [splitClose?_cons] at h
    by_cases hopen : p.opens y = true
    · rw [if_pos hopen] at h
      obtain ⟨rest, rfl, hrest⟩ := hskip h
      exact .opener hopen hrest
    · rw [if_neg hopen] at h
      by_cases hclose : p.closes y = true
      · rw [if_pos hclose] at h
        cases depth with
        | zero =>
          cases h
          exact .nil
        | succ depth =>
          obtain ⟨rest, rfl, hrest⟩ := hskip h
          exact .closer hclose hrest
      · rw [if_neg hclose] at h
        obtain ⟨rest, rfl, hrest⟩ := hskip h
        exact .neutral (by simpa using hopen) (by simpa using hclose) hrest

namespace Descends

lemma splitClose?_eq (h : Descends p depth body) (hclose : p.closes closer = true) :
    splitClose? p depth (body ++ closer :: after) = some (body, closer, after) := by
  induction h with
  | nil =>
    rw [List.nil_append, splitClose?_cons, Pair.opens_of_closes hclose, hclose]
    rfl
  | opener hopen _ ih =>
    rw [List.cons_append, splitClose?_cons, if_pos hopen, ih]
    rfl
  | closer hclose _ ih =>
    rw [List.cons_append, splitClose?_cons, Pair.opens_of_closes hclose, if_neg (by simp),
      if_pos hclose]
    change (splitClose? p _ _).map _ = _
    rw [ih]
    rfl
  | neutral hopen hclose _ ih =>
    rw [List.cons_append, splitClose?_cons, hopen, hclose, if_neg (by simp), if_neg (by simp), ih]
    rfl

lemma countP_closes (h : Descends p depth body) :
    body.countP p.closes = body.countP p.opens + depth := by
  induction h with
  | nil => rfl
  | opener hopen _ ih =>
    rw [List.countP_cons_of_neg (by simp [Pair.closes_of_opens hopen]),
      List.countP_cons_of_pos hopen, ih]
    omega
  | closer hclose _ ih =>
    rw [List.countP_cons_of_pos hclose,
      List.countP_cons_of_neg (by simp [Pair.opens_of_closes hclose]), ih]
    omega
  | neutral hopen hclose _ ih =>
    rw [List.countP_cons_of_neg (by simp [hclose]), List.countP_cons_of_neg (by simp [hopen]), ih]

/-- On the way down only what stands around the list or opened in it has closed. -/
lemma countP_closes_take_le (h : Descends p depth body) (k : ℕ) :
    (body.take k).countP p.closes ≤ (body.take k).countP p.opens + depth := by
  induction h generalizing k with
  | nil => simp
  | opener hopen _ ih =>
    cases k with
    | zero => simp
    | succ k =>
      have := ih k
      rw [List.take_succ_cons, List.countP_cons_of_neg (by simp [Pair.closes_of_opens hopen]),
        List.countP_cons_of_pos hopen]
      omega
  | closer hclose _ ih =>
    cases k with
    | zero => simp
    | succ k =>
      have := ih k
      rw [List.take_succ_cons, List.countP_cons_of_pos hclose,
        List.countP_cons_of_neg (by simp [Pair.opens_of_closes hclose])]
      omega
  | neutral hopen hclose _ ih =>
    cases k with
    | zero => simp
    | succ k =>
      rw [List.take_succ_cons, List.countP_cons_of_neg (by simp [hclose]),
        List.countP_cons_of_neg (by simp [hopen])]
      exact ih k

lemma exists_of_append {x y : List Symbol} (h : Descends p depth (x ++ y)) :
    ∃ depth', Descends p depth' y := by
  induction x generalizing depth with
  | nil => exact ⟨depth, h⟩
  | cons s x ih =>
    cases h with
    | opener _ h | closer _ h | neutral _ _ h => exact ih h

/-- On the way down every depth that is passed is left at a closer. -/
lemma exists_closer {outer : ℕ} (h : Descends p depth body) (hlt : outer < depth) :
    ∃ inner closer after, body = inner ++ closer :: after ∧ Descends p outer inner ∧
      p.closes closer = true := by
  induction h generalizing outer with
  | nil => cases hlt
  | @opener depth y l hopen _ ih =>
    obtain ⟨inner, closer, after, rfl, hinner, hclose⟩ := ih (Nat.succ_lt_succ hlt)
    exact ⟨y :: inner, closer, after, rfl, .opener hopen hinner, hclose⟩
  | @closer depth y l hy _ ih =>
    cases outer with
    | zero => exact ⟨[], y, l, rfl, .nil, hy⟩
    | succ outer =>
      obtain ⟨inner, closer, after, rfl, hinner, hclose⟩ := ih (Nat.lt_of_succ_lt_succ hlt)
      exact ⟨y :: inner, closer, after, rfl, .closer hy hinner, hclose⟩
  | @neutral depth y l hopen hneutral _ ih =>
    obtain ⟨inner, closer, after, rfl, hinner, hclose⟩ := ih hlt
    exact ⟨y :: inner, closer, after, rfl, .neutral hopen hneutral hinner, hclose⟩

end Descends
end

/-- The items that stand between the ones numbered `i` and `j`. -/
def between {α : Type} (l : List α) (i j : ℕ) : List α := (l.take j).drop (i + 1)

lemma between_eq {α : Type} (l : List α) (i m : ℕ) :
    between l i (i + 1 + m) = (l.drop (i + 1)).take m := by
  rw [between, List.drop_take, Nat.add_sub_cancel_left]

/-- The number of the symbol that closes what the one numbered `i` opens. -/
def closerAt? (p : Pair) (l : List Symbol) (i : ℕ) : Option ℕ :=
  (splitClose? p 0 (l.drop (i + 1))).map fun found => i + 1 + found.1.length

/-- Behind the symbol numbered `i`, more constructs close than open up to and with the one
numbered `j`. -/
def Outcloses (p : Pair) (l : List Symbol) (i j : ℕ) : Prop :=
  i < j ∧ j < l.length ∧
    (between l i (j + 1)).countP p.opens < (between l i (j + 1)).countP p.closes

/-- Behind the symbol numbered `i`, the one numbered `j` closes a construct, and before it as many
close as open. -/
def EndsAt (p : Pair) (l : List Symbol) (i j : ℕ) : Prop :=
  i < j ∧ (∃ y, l[j]? = some y ∧ p.closes y = true) ∧
    (between l i j).countP p.opens = (between l i j).countP p.closes

section
variable {p : Pair} {l : List Symbol} {i j i' j' : ℕ}

lemma closerAt?_eq_some_iff_append : closerAt? p l i = some j ↔ ∃ body closer after,
    l.drop (i + 1) = body ++ closer :: after ∧ Descends p 0 body ∧ p.closes closer = true ∧
      j = i + 1 + body.length := by
  rw [closerAt?, Option.map_eq_some_iff]
  constructor
  · rintro ⟨⟨body, closer, after⟩, hfound, rfl⟩
    obtain ⟨happ, hclose⟩ := eq_append_of_splitClose? hfound
    exact ⟨body, closer, after, happ, descends_of_splitClose? hfound, hclose, rfl⟩
  · rintro ⟨body, closer, after, happ, hbody, hclose, rfl⟩
    exact ⟨(body, closer, after), by rw [happ, hbody.splitClose?_eq hclose], rfl⟩

lemma getElem?_of_drop {body after : List Symbol} {closer : Symbol}
    (happ : l.drop (i + 1) = body ++ closer :: after) : l[i + 1 + body.length]? = some closer := by
  rw [← List.getElem?_drop, happ]
  simp

lemma lt_length_of_getElem? {y : Symbol} (h : l[j]? = some y) : j < l.length :=
  (List.getElem?_eq_some_iff.mp h).1

/-- A closer that ends a construct is the first place up to which more have closed. -/
lemma EndsAt.outcloses (h : EndsAt p l i j) : Outcloses p l i j := by
  obtain ⟨hij, ⟨y, hy, hclose⟩, hcount⟩ := h
  refine ⟨hij, lt_length_of_getElem? hy, ?_⟩
  obtain ⟨m, rfl⟩ := Nat.exists_eq_add_of_le hij
  rw [Nat.succ_eq_add_one] at *
  rw [Nat.add_assoc (i + 1), between_eq, List.take_add_one, List.getElem?_drop, hy]
  rw [between_eq] at hcount
  simp [hcount, hclose, Pair.opens_of_closes hclose]

/-- However far a list is followed, no more close without an opener than are left over in all. -/
lemma countP_take_le_surplus (k : ℕ) :
    (l.take k).countP p.closes ≤ (l.take k).countP p.opens + surplus p l := by
  induction l generalizing k with
  | nil => simp
  | cons y l ih =>
    cases k with
    | zero => simp
    | succ k =>
      have := ih k
      rw [surplus, List.take_succ_cons, List.countP_cons, List.countP_cons]
      by_cases hopen : p.opens y = true
      · simp only [hopen, Pair.closes_of_opens hopen, if_true, Bool.false_eq_true, if_false]
        omega
      · by_cases hclose : p.closes y = true
        · simp only [hopen, hclose, if_true, Bool.false_eq_true, if_false]
          omega
        · simp only [hopen, hclose, Bool.false_eq_true, if_false]
          omega

lemma outcloses_iff (m : ℕ) : Outcloses p l i (i + 1 + m) ↔ m < (l.drop (i + 1)).length ∧
    ((l.drop (i + 1)).take (m + 1)).countP p.opens <
      ((l.drop (i + 1)).take (m + 1)).countP p.closes := by
  rw [Outcloses, Nat.add_assoc (i + 1), between_eq, List.length_drop]
  constructor
  · rintro ⟨-, hlt, hcount⟩
    exact ⟨by omega, hcount⟩
  · rintro ⟨hlt, hcount⟩
    exact ⟨by omega, by omega, hcount⟩

lemma closerAt?_isSome_of_outcloses (h : Outcloses p l i j) : (closerAt? p l i).isSome = true := by
  obtain ⟨m, rfl⟩ := Nat.exists_eq_add_of_le h.1
  obtain ⟨-, hcount⟩ := (outcloses_iff m).mp h
  have := countP_take_le_surplus (p := p) (l := l.drop (i + 1)) (m + 1)
  rw [closerAt?, Option.isSome_map, isSome_splitClose?, decide_eq_true_eq]
  omega

lemma endsAt_of_closerAt? (h : closerAt? p l i = some j) : EndsAt p l i j := by
  obtain ⟨body, closer, after, happ, hbody, hclose, rfl⟩ := closerAt?_eq_some_iff_append.mp h
  refine ⟨by omega, ⟨closer, getElem?_of_drop happ, hclose⟩, ?_⟩
  rw [between_eq, happ, List.take_left, hbody.countP_closes]
  rfl

lemma le_of_outcloses (h : closerAt? p l i = some j) (hk : Outcloses p l i j') : j ≤ j' := by
  obtain ⟨body, closer, after, happ, hbody, -, rfl⟩ := closerAt?_eq_some_iff_append.mp h
  obtain ⟨m, rfl⟩ := Nat.exists_eq_add_of_le hk.1
  obtain ⟨-, hcount⟩ := (outcloses_iff m).mp hk
  by_contra hlt
  have htake : (l.drop (i + 1)).take (m + 1) = body.take (m + 1) := by
    rw [happ, List.take_append_of_le_length (by omega)]
  have := hbody.countP_closes_take_le (m + 1)
  rw [htake] at hcount
  omega

/-- The walk ends at the least of any places that lie between the two descriptions of its end. -/
lemma closerAt?_eq_some_iff_isLeast {P : ℕ → Prop} (hends : ∀ j, EndsAt p l i j → P j)
    (houtcloses : ∀ j, P j → Outcloses p l i j) :
    closerAt? p l i = some j ↔ IsLeast {j | P j} j := by
  constructor
  · intro h
    exact ⟨hends j (endsAt_of_closerAt? h), fun k hk => le_of_outcloses h (houtcloses k hk)⟩
  · rintro ⟨hj, hleast⟩
    have hj := houtcloses j hj
    obtain ⟨k, hk⟩ := Option.isSome_iff_exists.mp (closerAt?_isSome_of_outcloses hj)
    have hkj := le_of_outcloses hk hj
    have hjk := hleast (hends k (endsAt_of_closerAt? hk))
    rw [hk, le_antisymm hkj hjk]

/-- The walk ends at the first place up to which more have closed. -/
lemma closerAt?_eq_some_iff : closerAt? p l i = some j ↔ IsLeast {j | Outcloses p l i j} j :=
  closerAt?_eq_some_iff_isLeast (fun _ h => h.outcloses) fun _ h => h

lemma closerAt?_eq_none_iff : closerAt? p l i = none ↔ ∀ j, ¬Outcloses p l i j := by
  constructor
  · intro h j hj
    have := closerAt?_isSome_of_outcloses hj
    rw [h] at this
    cases this
  · intro h
    refine Option.eq_none_iff_forall_ne_some.mpr fun j hj => h j ?_
    exact (endsAt_of_closerAt? hj).outcloses

/-- The walk ends at the first closer at depth zero. -/
lemma closerAt?_eq_some_iff_endsAt : closerAt? p l i = some j ↔ IsLeast {j | EndsAt p l i j} j :=
  closerAt?_eq_some_iff_isLeast (fun _ h => h) fun _ h => h.outcloses

lemma closerAt?_isSome_iff_endsAt : (closerAt? p l i).isSome = true ↔ ∃ j, EndsAt p l i j := by
  constructor
  · intro h
    obtain ⟨j, hj⟩ := Option.isSome_iff_exists.mp h
    exact ⟨j, endsAt_of_closerAt? hj⟩
  · rintro ⟨j, hj⟩
    exact closerAt?_isSome_of_outcloses hj.outcloses

/-- The symbol numbered `i` opens a construct. -/
def BeginsAt (p : Pair) (l : List Symbol) (i : ℕ) : Prop :=
  ∃ y, l[i]? = some y ∧ p.opens y = true

/-- What opens in the body of a construct closes there. -/
lemma exists_closerAt?_of_lt (h : closerAt? p l i = some j) (hi : i < i') (hj : i' < j)
    (hopen : BeginsAt p l i') : ∃ j', closerAt? p l i' = some j' ∧ j' < j := by
  obtain ⟨y, hy, hopen⟩ := hopen
  obtain ⟨body, closer, after, happ, hbody, -, rfl⟩ := closerAt?_eq_some_iff_append.mp h
  obtain ⟨m, rfl⟩ := Nat.exists_eq_add_of_le hi
  rw [Nat.succ_eq_add_one] at *
  have hm : m < body.length := by omega
  -- the body in two, before and from the inner opener on
  have hsplit : body = body.take m ++ y :: body.drop (m + 1) := by
    rw [← List.getElem?_drop, happ, List.getElem?_append_left hm,
      List.getElem?_eq_getElem hm] at hy
    rw [← Option.some.inj hy, ← List.drop_eq_getElem_cons, List.take_append_drop]
  rw [hsplit] at hbody
  obtain ⟨depth, hinner⟩ := hbody.exists_of_append
  have hrest : l.drop (i + 1 + m + 1) = body.drop (m + 1) ++ closer :: after := by
    rw [Nat.add_assoc (i + 1), ← List.drop_drop, happ, List.drop_append_of_le_length (by omega)]
  cases hinner with
  | opener _ hinner =>
    obtain ⟨inner, innerCloser, rest, hdrop, hwalk, hclose⟩ := hinner.exists_closer (Nat.succ_pos _)
    refine ⟨i + 1 + m + 1 + inner.length, closerAt?_eq_some_iff_append.mpr
      ⟨inner, innerCloser, rest ++ closer :: after, by rw [hrest, hdrop]; simp, hwalk, hclose, rfl⟩, ?_⟩
    have := congrArg List.length hdrop
    rw [List.length_drop, List.length_append, List.length_cons] at this
    omega
  | closer hclose _ =>
    rw [Pair.opens_of_closes hclose] at hopen
    cases hopen
  | neutral hneutral _ _ =>
    rw [hneutral] at hopen
    cases hopen

/-- Of two matched constructs the later lies behind the earlier or in its body. -/
lemma lt_or_lt_of_closerAt? (hi : i < i') (hopen : BeginsAt p l i')
    (h : closerAt? p l i = some j) (h' : closerAt? p l i' = some j') : j < i' ∨ j' < j := by
  rcases lt_trichotomy i' j with hlt | rfl | hlt
  · obtain ⟨k, hk, hkj⟩ := exists_closerAt?_of_lt h hi hlt hopen
    rw [h'] at hk
    exact .inr (Option.some.inj hk ▸ hkj)
  · obtain ⟨-, ⟨y, hy, hclose⟩, -⟩ := endsAt_of_closerAt? h
    obtain ⟨z, hz, hopen⟩ := hopen
    rw [hy] at hz
    rw [← Option.some.inj hz, Pair.opens_of_closes hclose] at hopen
    cases hopen
  · exact .inl hlt

lemma eq_of_closerAt?_eq (hopen : BeginsAt p l i) (hopen' : BeginsAt p l i')
    (h : closerAt? p l i = some j) (h' : closerAt? p l i' = some j) : i = i' := by
  have hlt := (endsAt_of_closerAt? h).1
  have hlt' := (endsAt_of_closerAt? h').1
  rcases lt_trichotomy i i' with hi | rfl | hi
  · have := lt_or_lt_of_closerAt? hi hopen' h h'
    omega
  · rfl
  · have := lt_or_lt_of_closerAt? hi hopen h' h
    omega

end
end Stencil
