import Stencil.Scan
import Mathlib

/-! The scanner, step by step. Main statement: the budget covers every step of a scan, also when a
step is counted once for each byte that it passes. -/
namespace Stencil

namespace Scan

namespace Hopeless

/-- The number of kinds of tag that may still be closed. -/
def alive (h : Hopeless) : ℕ :=
  (!h.value).toNat + (!h.control).toNat + (!h.comment).toNat

lemma alive_add {h : Hopeless} {d : Delimiter} (hd : h.has d = false) :
    (h.add d).alive + 1 = h.alive := by
  cases d <;> simp_all only [has, add, alive, Bool.not_true, Bool.not_false, Bool.toNat_true,
    Bool.toNat_false] <;> omega

end Hopeless

/-- One step of the scanner: the symbols that it makes, and how it goes on unless the text has
come to its end. -/
def next (h : Hopeless) : State → Text → List Symbol × Option (Hopeless × State × Text)
  | .plain, [] => ([], none)
  | .plain, c :: rest =>
    if c = '{' then ([], some (h, .brace, rest)) else ([.char c], some (h, .plain, rest))
  | .brace, [] => ([.char '{'], none)
  | .brace, c :: rest =>
    match Delimiter.ofOpenChar? c with
    | some d =>
      if h.has d then ([.char '{'], some (h, .plain, c :: rest))
      else ([], some (h, .inside d [] (c :: rest), rest))
    | none => ([.char '{'], some (h, .plain, c :: rest))
  | .inside d _ resume, [] => ([.char '{'], some (h.add d, .plain, resume))
  | .inside d content resume, c :: rest =>
    if c = d.closeChar then ([], some (h, .closing d content resume, rest))
    else ([], some (h, .inside d (c :: content) resume, rest))
  | .closing d _ resume, [] => ([.char '{'], some (h.add d, .plain, resume))
  | .closing d content resume, c :: rest =>
    if c = '}' then ([finished d content.reverse], some (h, .plain, rest))
    else ([], some (h, .inside d (d.closeChar :: content) resume, c :: rest))

/-- A scan within its budget is one step and then the scan of what follows. -/
lemma symbolsFrom_succ (n : ℕ) (h : Hopeless) (state : State) (rest : Text) :
    symbolsFrom (n+1) h state rest =
      match next h state rest with
      | (found, none) => found
      | (found, some (h', state', rest')) => found ++ symbolsFrom n h' state' rest' := by
  cases state with
  | plain =>
    cases rest with
    | nil => rfl
    | cons c rest =>
      simp only [symbolsFrom, next]
      split <;> rfl
  | brace =>
    cases rest with
    | nil => rfl
    | cons c rest =>
      simp only [symbolsFrom, next]
      cases Delimiter.ofOpenChar? c with
      | none => rfl
      | some d => cases hd : h.has d <;> simp [hd]
  | inside d content resume =>
    cases rest with
    | nil => rfl
    | cons c rest =>
      simp only [symbolsFrom, next]
      split <;> rfl
  | closing d content resume =>
    cases rest with
    | nil => rfl
    | cons c rest =>
      simp only [symbolsFrom, next]
      split <;> rfl

/-- What a step can do: the symbols it makes, and the state and rest it leads to. -/
inductive Step : Hopeless → State → Text → List Symbol → Hopeless → State → Text → Prop
  | char {h rest c} (hc : c ≠ '{') : Step h .plain (c :: rest) [.char c] h .plain rest
  | brace {h rest} : Step h .plain ('{' :: rest) [] h .brace rest
  | lone {h rest c} (hc : ∀ d, c = Delimiter.openChar d → h.has d = true) :
    Step h .brace (c :: rest) [.char '{'] h .plain (c :: rest)
  | opener {h rest d} (hd : h.has d = false) :
    Step h .brace (d.openChar :: rest) [] h (.inside d [] (d.openChar :: rest)) rest
  | content {h rest d content resume c} (hc : c ≠ d.closeChar) :
    Step h (.inside d content resume) (c :: rest) [] h (.inside d (c :: content) resume) rest
  | closer {h rest d content resume} :
    Step h (.inside d content resume) (d.closeChar :: rest) [] h (.closing d content resume) rest
  | tag {h rest d content resume} :
    Step h (.closing d content resume) ('}' :: rest) [finished d content.reverse] h .plain rest
  | noCloser {h rest d content resume c} (hc : c ≠ '}') :
    Step h (.closing d content resume) (c :: rest) []
      h (.inside d (d.closeChar :: content) resume) (c :: rest)
  | insideEnd {h d content resume} :
    Step h (.inside d content resume) [] [.char '{'] (h.add d) .plain resume
  | closingEnd {h d content resume} :
    Step h (.closing d content resume) [] [.char '{'] (h.add d) .plain resume

variable {h h' : Hopeless} {state state' : State} {rest rest' : Text} {found : List Symbol}

lemma step_of_next (hnext : next h state rest = (found, some (h', state', rest'))) :
    Step h state rest found h' state' rest' := by
  cases state with
  | plain =>
    cases rest with
    | nil => simp [next] at hnext
    | cons c rest =>
      simp only [next] at hnext
      split at hnext
      · rename_i hc
        cases hnext
        exact hc ▸ .brace
      · rename_i hc
        cases hnext
        exact .char hc
  | brace =>
    cases rest with
    | nil => simp [next] at hnext
    | cons c rest =>
      simp only [next] at hnext
      split at hnext
      · rename_i d hd
        obtain rfl := Delimiter.ofOpenChar?_eq_some_iff.mp hd
        split at hnext
        · rename_i hh
          cases hnext
          refine .lone fun e he => ?_
          rw [Delimiter.ofOpenChar?_eq_some_iff.mpr he] at hd
          exact Option.some.inj hd ▸ hh
        · rename_i hh
          cases hnext
          exact .opener (by simpa using hh)
      · rename_i hc
        cases hnext
        refine .lone fun e he => ?_
        rw [Delimiter.ofOpenChar?_eq_some_iff.mpr he] at hc
        cases hc
  | inside d content resume =>
    cases rest with
    | nil =>
      cases hnext
      exact .insideEnd
    | cons c rest =>
      simp only [next] at hnext
      split at hnext
      · rename_i hc
        cases hnext
        exact hc ▸ .closer
      · rename_i hc
        cases hnext
        exact .content hc
  | closing d content resume =>
    cases rest with
    | nil =>
      cases hnext
      exact .closingEnd
    | cons c rest =>
      simp only [next] at hnext
      split at hnext
      · rename_i hc
        cases hnext
        exact hc ▸ .tag
      · rename_i hc
        cases hnext
        exact .noCloser hc

/-- The symbols of the rest of a text, and the number of steps in which they are found: a step
counts once for each byte that it passes, and once if it passes none. A budget that runs out
leaves nothing. -/
def countedFrom : (budget : ℕ) → Hopeless → State → Text → Option (List Symbol × ℕ)
  | 0, _, _, _ => none
  | n + 1, h, state, rest =>
    match next h state rest with
    | (found, none) => some (found, 1)
    | (found, some (h', state', rest')) =>
      (countedFrom n h' state' rest').map fun (later, k) =>
        (found ++ later, max 1 (rest.byteSize - rest'.byteSize) + k)

/-- The weight of a text in which every character has its own. -/
def weigh (w : Char → ℕ) (s : Text) : ℕ := (s.map w).sum

lemma weigh_cons (w : Char → ℕ) (c : Char) (s : Text) : weigh w (c :: s) = w c + weigh w s := rfl

lemma weigh_le_of_suffix (w : Char → ℕ) {s t : Text} (h : s <:+ t) : weigh w s ≤ weigh w t := by
  obtain ⟨u, rfl⟩ := h
  simp [weigh]

lemma weigh_one (s : Text) : weigh (fun _ => 1) s = s.length := by simp [weigh]

lemma weigh_utf8Size (s : Text) : weigh Char.utf8Size s = s.byteSize := by
  induction s with
  | nil => rfl
  | cons c s ih => rw [weigh_cons, Text.byteSize_cons, ih]

/-- The steps that suffice in plain text of weight `m` while `k` kinds may still be closed. -/
def steps (k m : ℕ) : ℕ := (k+1)*(2*m+1)

lemma steps_pos (k m : ℕ) : 0 < steps k m := Nat.mul_pos (Nat.succ_pos k) (Nat.succ_pos _)

lemma steps_add (k m a : ℕ) : steps k (m+a) = steps k m + 2*(k*a) + 2*a := by
  unfold steps
  ring

lemma steps_eq_pred {k : ℕ} (hk : 0 < k) (m : ℕ) : steps k m = steps (k-1) m + (2*m+1) := by
  obtain ⟨k, rfl⟩ := Nat.exists_eq_succ_of_ne_zero hk.ne'
  simp only [steps, Nat.succ_eq_add_one, Nat.add_sub_cancel]
  ring

lemma steps_mono (k : ℕ) {m m' : ℕ} (h : m ≤ m') : steps k m ≤ steps k m' := by
  unfold steps
  gcongr

namespace State

/-- An open tag is of a kind that is not hopeless, and gives way to a text with the rest at its
end. -/
def Fits (h : Hopeless) (rest : Text) : State → Prop
  | .plain | .brace => True
  | .inside d _ resume | .closing d _ resume => h.has d = false ∧ rest <:+ resume

/-- The steps that suffice from a state, with `rest` still to be read. -/
def cost (w : Char → ℕ) (h : Hopeless) (rest : Text) : State → ℕ
  | .plain => steps h.alive (weigh w rest)
  | .brace => steps h.alive (weigh w rest + 1) - 1
  | .inside _ _ resume => 2*weigh w rest + 1 + steps (h.alive-1) (weigh w resume)
  | .closing _ _ resume => 2*weigh w rest + 2 + steps (h.alive-1) (weigh w resume)

lemma cost_pos (w : Char → ℕ) (h : Hopeless) (rest : Text) (state : State) :
    0 < state.cost w h rest := by
  cases state <;> simp only [cost]
  · exact steps_pos _ _
  · have := steps_pos h.alive (weigh w rest)
    rw [steps_add]
    omega
  · omega
  · omega

end State

namespace Step
variable (hstep : Step h state rest found h' state' rest')
include hstep

lemma fits (hfits : state.Fits h rest) : state'.Fits h' rest' := by
  cases hstep with
  | char _ | brace | lone _ | tag | insideEnd | closingEnd => trivial
  | opener hd => exact ⟨hd, List.suffix_cons _ _⟩
  | content _ | closer => exact ⟨hfits.1, (List.suffix_cons _ _).trans hfits.2⟩
  | noCloser _ => exact hfits

/-- Every step is paid for, also with as many steps as what it passes weighs. -/
lemma cost_le {w : Char → ℕ} (hw : ∀ c, 0 < w c) (hfits : state.Fits h rest) :
    max 1 (weigh w rest - weigh w rest') + state'.cost w h' rest' ≤ state.cost w h rest := by
  cases hstep with
  | @char _ c _ =>
    have := steps_add h.alive (weigh w rest') (w c)
    have := hw c
    simp only [State.cost, weigh_cons, Nat.add_comm (w c)]
    omega
  | brace =>
    have := hw '{'
    have hbrace := steps_add h.alive (weigh w rest' + 1) (w '{' - 1)
    rw [show weigh w rest' + 1 + (w '{' - 1) = weigh w rest' + w '{' by omega] at hbrace
    have := steps_pos h.alive (weigh w rest' + 1)
    simp only [State.cost, weigh_cons, Nat.add_comm (w '{')]
    omega
  | @lone rest c _ =>
    have := steps_add h.alive (weigh w (c :: rest)) 1
    simp only [State.cost]
    omega
  | @opener _ d hd =>
    have := hw d.openChar
    have := Hopeless.alive_add hd
    have := steps_eq_pred (k := h.alive) (by omega) (weigh w (d.openChar :: rest') + 1)
    have := steps_add (h.alive - 1) (weigh w (d.openChar :: rest')) 1
    simp only [State.cost, weigh_cons] at *
    omega
  | @content _ _ _ _ c _ =>
    have := hw c
    simp only [State.cost, weigh_cons]
    omega
  | @closer _ d _ _ =>
    have := hw d.closeChar
    simp only [State.cost, weigh_cons]
    omega
  | @tag _ _ _ resume =>
    -- the text of the tag is behind the scanner, and with it what it would have cost again
    have := hw '}'
    have := Hopeless.alive_add hfits.1
    have := steps_eq_pred (k := h.alive) (by omega) (weigh w rest')
    have := steps_mono (h.alive - 1)
      (weigh_le_of_suffix w ((List.suffix_cons '}' rest').trans hfits.2))
    simp only [State.cost, weigh_cons]
    omega
  | noCloser _ =>
    simp only [State.cost, weigh_cons]
    omega
  | insideEnd | closingEnd =>
    have halive := Hopeless.alive_add hfits.1
    simp only [State.cost, ← halive, weigh, List.map_nil, List.sum_nil, Nat.add_sub_cancel]
    omega

end Step

/-- A scan that can pay for itself in characters comes to its end, and can also be paid for in
bytes. -/
lemma exists_countedFrom {n : ℕ} (hfits : state.Fits h rest)
    (hn : state.cost (fun _ => 1) h rest ≤ n) :
    ∃ k ≤ state.cost Char.utf8Size h rest,
      countedFrom n h state rest = some (symbolsFrom n h state rest, k) := by
  induction n generalizing h state rest with
  | zero =>
    have := state.cost_pos (fun _ => 1) h rest
    omega
  | succ n ih =>
    rw [symbolsFrom_succ, countedFrom]
    rcases hnext : next h state rest with ⟨found, _ | ⟨h', state', rest'⟩⟩
    · exact ⟨1, state.cost_pos _ h rest, rfl⟩
    · have hstep := step_of_next hnext
      have hfuel := hstep.cost_le (w := fun _ => 1) (fun _ => one_pos) hfits
      have hbytes := hstep.cost_le Char.utf8Size_pos hfits
      obtain ⟨k, hk, hcounted⟩ := ih (hstep.fits hfits) (by omega)
      refine ⟨max 1 (rest.byteSize - rest'.byteSize) + k, ?_, by simp only [hcounted]; rfl⟩
      rw [← weigh_utf8Size, ← weigh_utf8Size]
      omega

lemma cost_plain_le (w : Char → ℕ) (s : Text) :
    State.cost w {} s .plain ≤ 8*weigh w s + 8 := by
  change steps 3 (weigh w s) ≤ 8*weigh w s + 8
  unfold steps
  omega

lemma cost_le_budget (s : Text) : State.cost (fun _ => 1) {} s .plain ≤ budget s := by
  rw [budget, ← weigh_one]
  exact cost_plain_le _ s

/-- The scan of a text comes to its end within its budget, in at most eight steps for each byte
and eight more. -/
theorem exists_counted (s : Text) : ∃ k ≤ 8*s.byteSize + 8,
    countedFrom (budget s) {} .plain s = some (symbols s, k) := by
  have hfits : State.plain.Fits {} s := trivial
  obtain ⟨k, hk, hcounted⟩ := exists_countedFrom hfits (cost_le_budget s)
  rw [← weigh_utf8Size]
  exact ⟨k, hk.trans (cost_plain_le _ s), hcounted⟩

end Scan
end Stencil
