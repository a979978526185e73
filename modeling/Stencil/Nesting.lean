import Stencil.Scan

/-! Matching of openers and closers. A construct is found by walking forward from its opener and
counting the constructs of the same kind that open on the way; an opener without a closer is
plain text. Main statements: cutting a template into pieces loses nothing, and neither does hiding
its loops. -/
namespace Stencil

/-- The constructs that have a closing tag. -/
inductive Pair
  | conditional
  | loop
  | block
deriving DecidableEq

namespace Pair

def opens (p : Pair) : Symbol → Bool
  | .tag (.openIf _) _ => p == .conditional
  | .tag (.openFor ..) _ => p == .loop
  | .tag (.openBlock _) _ => p == .block
  | _ => false

def closes (p : Pair) : Symbol → Bool
  | .tag .closeIf _ => p == .conditional
  | .tag .closeFor _ => p == .loop
  | .tag .closeBlock _ => p == .block
  | _ => false

/-- Whether an opener has a closer somewhere behind it. -/
def occursIn (p : Pair) (symbols : List Symbol) : Bool :=
  (symbols.dropWhile fun s => !p.opens s).any p.closes

@[simp] theorem opens_char (p : Pair) (c : Char) : p.opens (.char c) = false := rfl

end Pair

/-- Walks to the closer of the construct that is open. `depth` counts the constructs that have
opened inside it, and `seen` holds the symbols passed, in reverse. -/
def splitCloseFrom (p : Pair) : (depth : Nat) → (seen : List Symbol) → List Symbol →
    Option (List Symbol × Symbol × List Symbol)
  | _, _, [] => none
  | depth, seen, s :: rest =>
    if p.opens s then splitCloseFrom p (depth + 1) (s :: seen) rest
    else if p.closes s then
      match depth with
      | 0 => some (seen.reverse, s, rest)
      | depth + 1 => splitCloseFrom p depth (s :: seen) rest
    else splitCloseFrom p depth (s :: seen) rest

/-- The symbols before the closer of the construct that is open, the closer, and what follows. -/
def splitClose? (p : Pair) (depth : Nat) (symbols : List Symbol) :
    Option (List Symbol × Symbol × List Symbol) :=
  splitCloseFrom p depth [] symbols

theorem splitCloseFrom_eq (p : Pair) (depth : Nat) (seen symbols : List Symbol) :
    splitCloseFrom p depth seen symbols =
      (splitClose? p depth symbols).map fun (body, closer, after) =>
        (seen.reverse ++ body, closer, after) := by
  induction symbols generalizing depth seen with
  | nil => rfl
  | cons s rest ih =>
    simp only [splitClose?, splitCloseFrom]
    split
    · rw [ih, ih _ [s]]
      cases splitClose? p (depth + 1) rest <;> simp
    · split
      · cases depth with
        | zero => simp
        | succ depth =>
          simp only
          rw [ih, ih _ [s]]
          cases splitClose? p depth rest <;> simp
      · rw [ih, ih _ [s]]
        cases splitClose? p depth rest <;> simp

@[simp] theorem splitClose?_nil (p : Pair) (depth : Nat) : splitClose? p depth [] = none := rfl

/-- Openers go one level down and closers one level up, until a closer meets no open construct
but the one that is looked at. -/
theorem splitClose?_cons (p : Pair) (depth : Nat) (s : Symbol) (rest : List Symbol) :
    splitClose? p depth (s :: rest) =
      if p.opens s then
        (splitClose? p (depth + 1) rest).map fun (body, closer, after) => (s :: body, closer, after)
      else if p.closes s then
        match depth with
        | 0 => some ([], s, rest)
        | depth + 1 =>
          (splitClose? p depth rest).map fun (body, closer, after) => (s :: body, closer, after)
      else
        (splitClose? p depth rest).map fun (body, closer, after) => (s :: body, closer, after) := by
  cases depth <;>
    simp only [splitClose?, splitCloseFrom] <;>
    simp [splitCloseFrom_eq]

theorem eq_append_of_splitClose? {p : Pair} {depth : Nat} {symbols body after : List Symbol}
    {closer : Symbol} (h : splitClose? p depth symbols = some (body, closer, after)) :
    symbols = body ++ closer :: after ∧ p.closes closer = true := by
  induction symbols generalizing depth body with
  | nil => simp at h
  | cons s rest ih =>
    rw [splitClose?_cons] at h
    split at h
    · obtain ⟨⟨b, c, a⟩, hs, hb⟩ := Option.map_eq_some_iff.1 h
      simp only [Prod.mk.injEq] at hb
      obtain ⟨rfl, rfl, rfl⟩ := hb
      simpa using ih hs
    · split at h
      · rename_i hc
        cases depth with
        | zero =>
          simp only [Option.some.injEq, Prod.mk.injEq] at h
          obtain ⟨rfl, rfl, rfl⟩ := h
          exact ⟨rfl, hc⟩
        | succ depth =>
          obtain ⟨⟨b, c, a⟩, hs, hb⟩ := Option.map_eq_some_iff.1 h
          simp only [Prod.mk.injEq] at hb
          obtain ⟨rfl, rfl, rfl⟩ := hb
          simpa using ih hs
      · obtain ⟨⟨b, c, a⟩, hs, hb⟩ := Option.map_eq_some_iff.1 h
        simp only [Prod.mk.injEq] at hb
        obtain ⟨rfl, rfl, rfl⟩ := hb
        simpa using ih hs

/-- The number of closers that are left over when every opener has taken the closer that
belongs to it. -/
def surplus (p : Pair) : List Symbol → Nat
  | [] => 0
  | s :: rest =>
    if p.opens s then surplus p rest - 1
    else if p.closes s then surplus p rest + 1
    else surplus p rest

/-- A construct is closed exactly when closers are left over for it and for those around it. -/
theorem isSome_splitClose? (p : Pair) (depth : Nat) (symbols : List Symbol) :
    (splitClose? p depth symbols).isSome = decide (depth < surplus p symbols) := by
  induction symbols generalizing depth with
  | nil => simp [surplus]
  | cons s rest ih =>
    rw [splitClose?_cons, surplus]
    split
    · simp only [Option.isSome_map, ih, decide_eq_decide]
      omega
    · split
      · cases depth with
        | zero => simp
        | succ depth => simp [ih]
      · simp [ih]

/-- For each symbol whether a closer is left over behind it, and how many are left over in
all. -/
def closable (p : Pair) : List Symbol → List Bool × Nat
  | [] => ([], 0)
  | s :: rest =>
    let (flags, n) := closable p rest
    (decide (0 < n) :: flags, if p.opens s then n - 1 else if p.closes s then n + 1 else n)

theorem closable_snd (p : Pair) (symbols : List Symbol) :
    (closable p symbols).2 = surplus p symbols := by
  induction symbols with
  | nil => rfl
  | cons s rest ih => simp only [closable, surplus, ih]

theorem closable_fst_cons (p : Pair) (s : Symbol) (rest : List Symbol) :
    (closable p (s :: rest)).1 = (splitClose? p 0 rest).isSome :: (closable p rest).1 := by
  simp only [closable, closable_snd, isSome_splitClose?]

theorem closable_fst_append (p : Pair) (a b : List Symbol) :
    (closable p (a ++ b)).1.drop a.length = (closable p b).1 := by
  induction a with
  | nil => rfl
  | cons s a ih => simpa [closable_fst_cons] using ih

/-- A matched construct with its delimiting symbols. -/
structure Construct where
  opener : Symbol
  body : List Symbol
  closer : Symbol

namespace Construct

def symbols (c : Construct) : List Symbol := c.opener :: c.body ++ [c.closer]
def text (c : Construct) : Text := Symbol.textOf c.symbols

end Construct

/-- A piece of a template: a symbol that stands alone, or a whole construct. -/
inductive Piece
  | single (s : Symbol)
  | construct (c : Construct)

namespace Piece

def symbols : Piece → List Symbol
  | .single s => [s]
  | .construct c => c.symbols

/-- Cuts a template, given for each symbol whether a closer is left over behind it. -/
def splitMarked (p : Pair) : (flags : List Bool) → List Symbol → List Piece
  | _, [] => []
  | flags, s :: rest =>
    if p.opens s && flags.head? == some true then
      match h : splitClose? p 0 rest with
      | some (body, closer, after) =>
        have : after.length < rest.length := by
          rw [(eq_append_of_splitClose? h).1]
          simp only [List.length_append, List.length_cons]
          omega
        .construct ⟨s, body, closer⟩ :: splitMarked p (flags.drop (body.length + 2)) after
      | none => .single s :: splitMarked p flags.tail rest
    else .single s :: splitMarked p flags.tail rest
termination_by _ symbols => symbols.length
decreasing_by all_goals (simp only [List.length_cons]; omega)

/-- Cuts a template into the matched constructs of one kind and the symbols between them. -/
def split (p : Pair) (symbols : List Symbol) : List Piece :=
  splitMarked p (closable p symbols).1 symbols

@[simp] theorem split_nil (p : Pair) : split p [] = [] := by
  rw [split, splitMarked]

/-- A construct begins at an opener that has a closer. -/
theorem split_cons (p : Pair) (s : Symbol) (rest : List Symbol) :
    split p (s :: rest) =
      match if p.opens s then splitClose? p 0 rest else none with
      | some (body, closer, after) => .construct ⟨s, body, closer⟩ :: split p after
      | none => .single s :: split p rest := by
  rw [split, splitMarked, closable_fst_cons]
  simp only [List.head?_cons, List.tail_cons, Bool.and_eq_true, beq_iff_eq, Option.some.injEq]
  by_cases ho : p.opens s = true
  · simp only [ho, true_and, if_true]
    cases hc : splitClose? p 0 rest with
    | none => simp [split]
    | some found =>
      obtain ⟨body, closer, after⟩ := found
      have happ := (eq_append_of_splitClose? hc).1
      have : (closable p rest).1.drop (body.length + 1) = (closable p after).1 := by
        rw [happ, ← closable_fst_append p (body ++ [closer]) after]
        simp
      simp [split, this]
  · simp [ho, split]

/-- Cutting loses nothing. -/
@[simp] theorem flatMap_symbols_split (p : Pair) (symbols : List Symbol) :
    (split p symbols).flatMap Piece.symbols = symbols := by
  match symbols with
  | [] => simp
  | s :: rest =>
    rw [split_cons]
    split
    · rename_i body closer after h
      have happ : rest = body ++ closer :: after := by
        split at h
        · exact (eq_append_of_splitClose? h).1
        · cases h
      have : after.length < (s :: rest).length := by
        simp only [happ, List.length_cons, List.length_append]
        omega
      have ih := flatMap_symbols_split p after
      simp [Piece.symbols, Construct.symbols, ih, happ]
    · have ih := flatMap_symbols_split p rest
      simp [Piece.symbols, ih]
termination_by symbols.length

/-- Without a closer behind an opener there is nothing to cut. -/
theorem split_of_not_occursIn {p : Pair} {symbols : List Symbol}
    (h : p.occursIn symbols = false) : split p symbols = symbols.map .single := by
  induction symbols with
  | nil => simp
  | cons s rest ih =>
    rw [Pair.occursIn, List.dropWhile_cons] at h
    rw [split_cons]
    by_cases hs : p.opens s = true
    · simp only [hs, Bool.not_true, Bool.false_eq_true, if_false, List.any_cons,
        Bool.or_eq_false_iff] at h
      have hclose : splitClose? p 0 rest = none := by
        refine Option.eq_none_iff_forall_ne_some.2 fun found hfound => ?_
        obtain ⟨happ, hcloser⟩ := eq_append_of_splitClose? hfound
        have := List.any_eq_false.1 h.2 found.2.1 (by simp [happ])
        exact this hcloser
      have hrest : p.occursIn rest = false :=
        List.any_eq_false.2 fun x hx =>
          List.any_eq_false.1 h.2 x ((List.dropWhile_suffix _).subset hx)
      simp [hs, hclose, ih hrest]
    · simp only [hs, Bool.not_false, if_true] at h
      simp [hs, ih h]

/-- The piece with a construct turned into plain text. -/
def withoutTags : Piece → List Symbol
  | .single s => [s]
  | .construct c => c.text.map .char

theorem textOf_withoutTags (piece : Piece) :
    Symbol.textOf piece.withoutTags = Symbol.textOf piece.symbols := by
  cases piece with
  | single s => rfl
  | construct c => exact Symbol.textOf_map_char _

end Piece

/-- The matched constructs at the openers among the symbols, given for each symbol whether a
closer is left over behind it. -/
def constructsMarked (p : Pair) : (flags : List Bool) → List Symbol → List Construct
  | _, [] => []
  | flags, s :: rest =>
    let later := constructsMarked p flags.tail rest
    if p.opens s && flags.head? == some true then
      match splitClose? p 0 rest with
      | some (body, closer, _) => ⟨s, body, closer⟩ :: later
      | none => later
    else later

/-- Every matched construct of one kind, the nested ones included, in the order of the openers. -/
def allConstructs (p : Pair) (symbols : List Symbol) : List Construct :=
  constructsMarked p (closable p symbols).1 symbols

@[simp] theorem allConstructs_nil (p : Pair) : allConstructs p [] = [] := rfl

theorem allConstructs_cons (p : Pair) (s : Symbol) (rest : List Symbol) :
    allConstructs p (s :: rest) =
      match if p.opens s then splitClose? p 0 rest else none with
      | some (body, closer, _) => ⟨s, body, closer⟩ :: allConstructs p rest
      | none => allConstructs p rest := by
  rw [allConstructs, constructsMarked, closable_fst_cons]
  simp only [List.head?_cons, List.tail_cons, Bool.and_eq_true, beq_iff_eq, Option.some.injEq]
  by_cases ho : p.opens s = true
  · cases hc : splitClose? p 0 rest <;> simp [ho, allConstructs]
  · simp [ho, allConstructs]

/-- Turns every matched loop into plain text, so that nothing inside it is taken for a tag. -/
def hideLoops (symbols : List Symbol) : List Symbol :=
  if Pair.occursIn .loop symbols then (Piece.split .loop symbols).flatMap Piece.withoutTags
  else symbols

theorem hideLoops_eq (symbols : List Symbol) :
    hideLoops symbols = (Piece.split .loop symbols).flatMap Piece.withoutTags := by
  unfold hideLoops
  split
  · rfl
  · rename_i h
    rw [Piece.split_of_not_occursIn (by simpa using h), List.flatMap_map]
    clear h
    induction symbols with
    | nil => rfl
    | cons s rest ih => simp_all [Piece.withoutTags]

@[simp] theorem textOf_hideLoops (symbols : List Symbol) :
    Symbol.textOf (hideLoops symbols) = Symbol.textOf symbols := by
  have h (pieces : List Piece) : Symbol.textOf (pieces.flatMap Piece.withoutTags) =
      Symbol.textOf (pieces.flatMap Piece.symbols) := by
    induction pieces with
    | nil => rfl
    | cons piece rest ih =>
      simp only [List.flatMap_cons, Symbol.textOf_append, Piece.textOf_withoutTags, ih]
  rw [hideLoops_eq, h, Piece.flatMap_symbols_split]

/-- One branch of a conditional; the branch of an `else` has no condition. -/
structure Clause where
  header : Symbol
  condition : Option Text
  body : List Symbol

namespace Clause

/-- The condition that a symbol puts in front of a new branch. -/
def header? : Symbol → Option (Option Text)
  | .tag (.elseIf condition) _ => some (some condition)
  | .tag .orElse _ => some none
  | _ => none

def depthAfter (depth : Nat) (s : Symbol) : Nat :=
  if Pair.opens .conditional s then depth + 1
  else if Pair.closes .conditional s then depth - 1
  else depth

/-- The body of the branch in progress and the branches after it. Only headers outside nested
conditionals count, and none after the `else`. -/
def split : (depth : Nat) → (final : Bool) → List Symbol → List Symbol × List Clause
  | _, _, [] => ([], [])
  | depth, final, s :: rest =>
    match if depth = 0 && !final then header? s else none with
    | some condition =>
      let (body, later) := split 0 condition.isNone rest
      ([], ⟨s, condition, body⟩ :: later)
    | none =>
      let (body, later) := split (depthAfter depth s) final rest
      (s :: body, later)

/-- The branches of a matched conditional, in order. -/
def ofConstruct (c : Construct) : List Clause :=
  let condition := match c.opener with
    | .tag (.openIf condition) _ => some condition
    | _ => none
  let (body, later) := split 0 false c.body
  ⟨c.opener, condition, body⟩ :: later

end Clause
end Stencil
