import Stencil.Proofs.Equality
import Stencil.Proofs.Numerals

/-! What paths and values mean to conditions and bindings, as relations: where a path leads, which
values are true and which are empty, as what number a value counts, and which values are equal.
Main statements: each relation holds just when the function of the same purpose says so. -/
namespace Stencil

section Index

lemma digitChar_digitValue {c : Char} (h : c.isDigit = true) :
    Decimal.digitValue c < 10 ∧ (Decimal.digitValue c).digitChar = c := by
  have hlow : 48 ≤ c.toNat := (Char.isDigit_iff_toNat.mp h).1
  have hhigh : c.toNat ≤ 57 := (Char.isDigit_iff_toNat.mp h).2
  have hvalue : Decimal.digitValue c = c.toNat - 48 := rfl
  have hlt : Decimal.digitValue c < 10 := by omega
  refine ⟨hlt, Char.toNat_inj.mp ?_⟩
  rw [Nat.toNat_digitChar_of_lt_ten hlt]
  omega

/-- Digits without a leading zero are the decimal notation of their number. -/
lemma toDigits_valueOfDigits {s : Text} (hne : s ≠ []) (hdigits : ∀ c ∈ s, c.isDigit = true)
    (hhead : s.head? ≠ some '0') :
    0 < Decimal.valueOfDigits s ∧ Nat.toDigits 10 (Decimal.valueOfDigits s) = s := by
  induction s using List.reverseRecOn with
  | nil => exact absurd rfl hne
  | append_singleton s c ih =>
    have hvalue : Decimal.valueOfDigits (s ++ [c]) =
        10 * Decimal.valueOfDigits s + Decimal.digitValue c := by
      simp [Decimal.valueOfDigits]
    obtain ⟨hlt, hchar⟩ := digitChar_digitValue (hdigits c (by simp))
    rw [hvalue]
    by_cases hs : s = []
    · subst hs
      have hpos : Decimal.digitValue c ≠ 0 := fun h => by
        rw [h] at hchar
        exact hhead (congrArg some hchar.symm)
      have hzero : 10 * Decimal.valueOfDigits [] + Decimal.digitValue c = Decimal.digitValue c :=
        Nat.zero_add _
      rw [hzero, Nat.toDigits_of_lt_base hlt, hchar]
      exact ⟨Nat.pos_of_ne_zero hpos, rfl⟩
    · obtain ⟨hpos, htoDigits⟩ := ih hs (fun d hd => hdigits d (List.mem_append_left _ hd))
        (by rwa [List.head?_append_of_ne_nil _ hs] at hhead)
      rw [← Nat.toDigits_append_toDigits (by decide) hpos hlt, htoDigits,
        Nat.toDigits_of_lt_base hlt, hchar]
      exact ⟨by omega, rfl⟩

lemma eq_zero_of_head?_toDigits {i : ℕ} (h : (Nat.toDigits 10 i).head? = some '0') : i = 0 := by
  induction i using Nat.strongRecOn with
  | _ i ih =>
    rcases lt_or_ge i 10 with hlt | hge
    · rw [Nat.toDigits_of_lt_base hlt] at h
      exact Nat.digitChar_eq_zero.mp (Option.some.inj h)
    · have hne : Nat.toDigits 10 (i / 10) ≠ [] := List.ne_nil_of_length_pos Nat.length_toDigits_pos
      rw [Nat.toDigits_of_base_le (by decide) hge, List.head?_append_of_ne_nil _ hne] at h
      have := ih (i / 10) (by omega) h
      omega

/-- An index is written in decimal notation. -/
lemma readIndex?_eq_some_iff {s : Text} {i : ℕ} :
    readIndex? s = some i ↔ s = Nat.toDigits 10 i := by
  constructor
  · intro h
    rw [readIndex?] at h
    split at h
    · rename_i hs
      obtain ⟨hword, hcanonical⟩ := Bool.and_eq_true_iff.mp hs
      obtain rfl := Option.some.inj h
      by_cases hhead : s.head? = some '0'
      · obtain ⟨t, rfl⟩ := List.head?_eq_some_iff.mp hhead
        obtain rfl : t = [] := by simpa using hcanonical
        rfl
      · exact (toDigits_valueOfDigits (Text.ne_nil_of_isWordOf hword)
          (fun c hc => Text.of_mem_isWordOf hword hc) hhead).2.symm
    · cases h
  · rintro rfl
    have hword : Text.isWordOf Char.isDigit (Nat.toDigits 10 i) = true :=
      Text.isWordOf_of_forall (List.ne_nil_of_length_pos Nat.length_toDigits_pos) fun c hc =>
        Nat.isDigit_of_mem_toDigits (by decide) (by decide) hc
    have hcanonical : (Nat.toDigits 10 i).length ≤ 1 ∨ (Nat.toDigits 10 i).head? ≠ some '0' := by
      by_cases hhead : (Nat.toDigits 10 i).head? = some '0'
      · rw [eq_zero_of_head?_toDigits hhead]
        exact .inl (by decide)
      · exact .inr hhead
    have hvalue : Decimal.valueOfDigits (Nat.toDigits 10 i) = i :=
      Nat.ofDigitChars_toDigits (by decide) (by decide)
    rw [readIndex?, hword, hvalue, if_pos (by simpa using hcanonical)]

end Index

namespace Value

/-- What a segment of a path leads to inside a value: the field of this name, the item at an index
in decimal notation, or the number of items. -/
inductive Inside : Value → Text → Value → Prop
  | field {fields : Fields} {name : Text} {v : Value} (h : fields.get? name = some v) :
    Inside (.object fields) name v
  | item {items : List Value} {i : ℕ} {v : Value} (h : items[i]? = some v) :
    Inside (.array items) (Nat.toDigits 10 i) v
  | length (items : List Value) :
    Inside (.array items) "length".toList (.number (.int items.length))

lemma step?_eq_some_iff {v w : Value} {segment : Text} :
    v.step? segment = some w ↔ v.Inside segment w := by
  constructor
  · intro h
    unfold step? at h
    split at h
    · exact .field h
    · split_ifs at h with hlength
      · obtain rfl := Option.some.inj h
        subst hlength
        exact .length _
      · obtain ⟨i, hi, hitem⟩ := Option.bind_eq_some_iff.mp h
        obtain rfl := readIndex?_eq_some_iff.mp hi
        exact .item hitem
    · cases h
  · intro h
    cases h with
    | field h => exact h
    | length items => rfl
    | @item items i _ h =>
      have hne : Nat.toDigits 10 i ≠ "length".toList := fun heq => by
        have hmem : 'l' ∈ Nat.toDigits 10 i := by rw [heq]; decide
        exact absurd (Nat.isDigit_of_mem_toDigits (by decide) (by decide) hmem) (by decide)
      rw [step?, if_neg hne, readIndex?_eq_some_iff.mpr rfl]
      exact h

end Value

/-- Where the segments of a path lead: the first one to a variable, each other one into the value
that those before it lead to. -/
inductive Fields.Leads (vars : Fields) : List Text → Value → Prop
  | start {name : Text} {v : Value} (h : vars.get? name = some v) : Leads vars [name] v
  | step {segments : List Text} {segment : Text} {v w : Value} (h : Leads vars segments v)
    (hw : v.Inside segment w) : Leads vars (segments ++ [segment]) w

/-- A path, whose segments stand between points, has the value that they lead to. -/
def Fields.Has (vars : Fields) (path : Text) (v : Value) : Prop := vars.Leads (path.splitOn '.') v

namespace Fields
variable {vars : Fields} {v w : Value}

lemma not_leads_nil : ¬vars.Leads [] v := by
  intro h
  generalize hl : ([] : List Text) = segments at h
  cases h with
  | start _ => cases hl
  | step _ _ => exact List.append_ne_nil_of_right_ne_nil _ (List.cons_ne_nil _ _) hl.symm

lemma leads_append_iff {segments : List Text} {segment : Text} :
    vars.Leads (segments ++ [segment]) w ↔ segments = [] ∧ vars.get? segment = some w ∨
      ∃ v, vars.Leads segments v ∧ v.Inside segment w := by
  constructor
  · intro h
    generalize hl : segments ++ [segment] = whole at h
    cases h with
    | @start name _ h =>
      obtain ⟨rfl, hname⟩ := List.append_inj' (hl.trans (List.nil_append [name]).symm) rfl
      obtain rfl : segment = name := List.singleton_inj.mp hname
      exact .inl ⟨rfl, h⟩
    | step h hw =>
      obtain ⟨rfl, hsegment⟩ := List.append_inj' hl rfl
      obtain rfl := List.singleton_inj.mp hsegment
      exact .inr ⟨_, h, hw⟩
  · rintro (⟨rfl, h⟩ | ⟨v, h, hw⟩)
    · exact .start h
    · exact .step h hw

lemma foldl_step?_eq_some_iff (name : Text) (segments : List Text) :
    segments.foldl (fun v s => v.bind (·.step? s)) (vars.get? name) = some v ↔
      vars.Leads (name :: segments) v := by
  induction segments using List.reverseRecOn generalizing v with
  | nil =>
    rw [List.foldl_nil, ← List.nil_append [name], leads_append_iff, and_iff_right rfl,
      or_iff_left fun ⟨_, h, _⟩ => not_leads_nil h]
  | append_singleton segments segment ih =>
    rw [List.foldl_append, List.foldl_cons, List.foldl_nil, Option.bind_eq_some_iff,
      ← List.cons_append, leads_append_iff, or_iff_right fun h => List.cons_ne_nil _ _ h.1]
    simp only [ih, Value.step?_eq_some_iff]

variable {path : Text}

theorem valueAt?_eq_some_iff : vars.valueAt? path = some v ↔ vars.Has path v := by
  rw [valueAt?, Has]
  cases hsegments : path.splitOn '.' with
  | nil => exact iff_of_false (by simp) not_leads_nil
  | cons name segments => exact foldl_step?_eq_some_iff name segments

lemma Has.unique (h : vars.Has path v) (h' : vars.Has path w) : v = w :=
  Option.some.inj ((valueAt?_eq_some_iff.mpr h).symm.trans (valueAt?_eq_some_iff.mpr h'))

lemma valueAt?_eq_none_iff : vars.valueAt? path = none ↔ ∀ v, ¬vars.Has path v := by
  simp only [Option.eq_none_iff_forall_ne_some, ne_eq, valueAt?_eq_some_iff]

end Fields

namespace Number

/-- The number that a condition sees: an integer only as the nearest number of the format. -/
inductive Counts : Number → ℚ → Prop
  | int {z : ℤ} {q : ℚ} (h : Binary64.RoundsTo z q) : Counts (.int z) q
  | float {x : Binary64} {q : ℚ} (h : x.toRat? = some q) : Counts (.float x) q

lemma counts_iff {n : Number} {q : ℚ} : n.Counts q ↔ n.toBinary64.toRat? = some q := by
  cases n with
  | int z => exact ⟨fun | .int h => (Binary64.roundsTo_intCast z).mp h,
      fun h => .int ((Binary64.roundsTo_intCast z).mpr h)⟩
  | float x => exact ⟨fun | .float h => h, .float⟩

/-- A number is true if it counts as one other than zero. -/
lemma isTrue_iff {n : Number} : (!n.toBinary64.isNaN && !n.toBinary64.numEq .zero) = true ↔
    ∃ q, n.Counts q ∧ q ≠ 0 := by
  have hzero : Binary64.zero.toRat? = some 0 := congrArg some Binary64.magnitude_zero
  simp only [counts_iff, Bool.and_eq_true, Bool.not_eq_true']
  rw [← Bool.not_eq_true (Binary64.numEq _ _), Binary64.numEq_iff_toRat?, hzero]
  cases n.toBinary64 with
  | nan => simp [Binary64.isNaN, Binary64.toRat?]
  | signed negative rank => simp [Binary64.isNaN, Binary64.toRat?, eq_comm]

end Number

namespace Value

/-- The values that are true. -/
inductive IsTrue : Value → Prop
  | bool : IsTrue (.bool true)
  | number {n : Number} {q : ℚ} (h : n.Counts q) (hq : q ≠ 0) : IsTrue (.number n)
  | string {s : Text} (h : s ≠ []) : IsTrue (.string s)
  | array (items : List Value) : IsTrue (.array items)
  | object (fields : Fields) : IsTrue (.object fields)

/-- The values that are empty. -/
inductive IsVoid : Value → Prop
  | null : IsVoid .null
  | string : IsVoid (.string [])
  | array : IsVoid (.array [])
  | object : IsVoid (.object [])

/-- The number that a value counts as where order is asked for; without a value there is none. -/
inductive Counts : Option Value → ℚ → Prop
  | null : Counts (some .null) 0
  | false : Counts (some (.bool false)) 0
  | true : Counts (some (.bool true)) 1
  | number {n : Number} {q : ℚ} (h : n.Counts q) : Counts (some (.number n)) q
  | blank (b : Blank) : Counts (some (.string b.text)) 0
  | decimal {b a : Blank} {w : Decimal.Written} {q : ℚ} (h : Binary64.RoundsTo w.toRat q) :
    Counts (some (.string (b.text ++ w.text ++ a.text))) q

/-- Equality inside containers, where an integer and a number that is not kept as one differ. Arrays
are equal item by item; objects are equal if they have as many fields and for every field of the
one an equal field of the other. -/
inductive Alike : Value → Value → Prop
  | null : Alike .null .null
  | bool (b : Bool) : Alike (.bool b) (.bool b)
  | int (z : ℤ) : Alike (.number (.int z)) (.number (.int z))
  | float {x y : Binary64} {q : ℚ} (hx : x.toRat? = some q) (hy : y.toRat? = some q) :
    Alike (.number (.float x)) (.number (.float y))
  | string (s : Text) : Alike (.string s) (.string s)
  | array {xs ys : List Value} (h : List.Forall₂ Alike xs ys) : Alike (.array xs) (.array ys)
  | object {xs ys : Fields} (hlength : xs.length = ys.length)
    (h : ∀ field ∈ xs, Option.Rel Alike (some field.2) (ys.get? field.1)) :
    Alike (.object xs) (.object ys)

/-- Equality of what two operands stand for: numbers are equal as the numbers that they count as. -/
inductive Equals : Option Value → Option Value → Prop
  | absent : Equals none none
  | numbers {m n : Number} {q : ℚ} (hm : m.Counts q) (hn : n.Counts q) :
    Equals (some (.number m)) (some (.number n))
  | alike {v w : Value} (h : Alike v w) : Equals (some v) (some w)

/-- Of all that a condition may find only the true values are taken for true. -/
lemma truthy_iff {o : Option Value} : truthy o = true ↔ ∃ v, o = some v ∧ v.IsTrue := by
  cases o with
  | none => simp [truthy]
  | some v =>
    simp only [Option.some.injEq, exists_eq_left']
    cases v with
    | null => exact iff_of_false Bool.false_ne_true (nomatch ·)
    | bool b => cases b with
      | false => exact iff_of_false Bool.false_ne_true (nomatch ·)
      | true => exact iff_of_true rfl .bool
    | number n =>
      rw [truthy, n.isTrue_iff]
      constructor
      · rintro ⟨q, h, hq⟩
        exact .number h hq
      · intro h
        cases h with
        | number h hq => exact ⟨_, h, hq⟩
    | string s =>
      cases s with
      | nil => exact iff_of_false Bool.false_ne_true fun | .string h => h rfl
      | cons c s => exact iff_of_true rfl (.string (List.cons_ne_nil c s))
    | array items => exact iff_of_true rfl (.array items)
    | object fields => exact iff_of_true rfl (.object fields)

lemma isEmpty_iff {o : Option Value} : isEmpty o = true ↔ ∀ v, o = some v → v.IsVoid := by
  cases o with
  | none => simp [isEmpty]
  | some v =>
    simp only [Option.some.injEq, forall_eq']
    cases v with
    | null => exact iff_of_true rfl .null
    | bool b => exact iff_of_false Bool.false_ne_true (nomatch ·)
    | number n => exact iff_of_false Bool.false_ne_true (nomatch ·)
    | string s => cases s with
      | nil => exact iff_of_true rfl .string
      | cons c s => exact iff_of_false Bool.false_ne_true (nomatch ·)
    | array items => cases items with
      | nil => exact iff_of_true rfl .array
      | cons v items => exact iff_of_false Bool.false_ne_true (nomatch ·)
    | object fields => cases fields with
      | nil => exact iff_of_true rfl .object
      | cons field fields => exact iff_of_false Bool.false_ne_true (nomatch ·)

/-- What is read as a decimal holds no white space. -/
lemma isWord_written (w : Decimal.Written) : Text.IsWord w.text := by
  have hnonblank : w.text.all Decimal.isNumeralChar = true := by
    have hread := readNumeric?_eq w.text
    rw [w.readNumeral?_text, readNumeric?] at hread
    split at hread
    · assumption
    · cases hread
  refine ⟨fun h => ?_, fun c hc => ?_⟩
  · have := w.readNumeral?_text
    rw [h] at this
    cases this
  · have hc := List.all_eq_true.mp hnonblank c hc
    rw [Decimal.isNumeralChar, Bool.or_eq_true] at hc
    rcases hc with hc | hc
    · exact Text.isWhite_of_isWordChar (by simp [Text.isWordChar, Char.isAlphanum, hc])
    · have hall : ['.', '-', '+', 'e', 'E'].all (!Text.isWhite ·) = true := by decide
      simpa using List.all_eq_true.mp hall c (of_decide_eq_true hc)

/-- A text counts as the decimal that is read between the white space at its ends. -/
lemma counts_of_trim {s : Text} {x : Binary64} {q : ℚ} (hx : Decimal.readNumeral? s.trim = some x)
    (hq : x.toRat? = some q) : Counts (some (.string s)) q := by
  obtain ⟨b, a, hs⟩ := Text.exists_trim s
  obtain ⟨w, hw, hround⟩ := Decimal.readNumeral?_iff.mp ⟨x, hx, hq⟩
  rw [hs, ← hw]
  exact .decimal hround

lemma counts_string_iff {s : Text} {q : ℚ} : Counts (some (.string s)) q ↔
    (toNumber (some (.string s))).toRat? = some q := by
  rw [toNumber]
  constructor
  · intro h
    cases h with
    | blank b =>
      have htrim : Text.trim b.text = [] := by
        simpa using Text.trim_before (s := []) ⟨by simp, by simp⟩ b
      rw [htrim]
      exact congrArg some Binary64.magnitude_zero
    | @decimal b a w q h =>
      have hword := isWord_written w
      obtain ⟨x, hx, hq⟩ := Decimal.readNumeral?_iff.mpr ⟨w, rfl, h⟩
      rw [Text.trim_between hword.isTrimmed, if_neg (by simpa using hword.1), readNumeric?_eq, hx]
      exact hq
  · intro h
    split_ifs at h with hempty
    · obtain ⟨b, a, hs⟩ := Text.exists_trim s
      obtain rfl : 0 = q := Binary64.magnitude_zero.symm.trans (Option.some.inj h)
      rw [hs, List.isEmpty_iff.mp hempty, List.append_nil]
      exact .blank ⟨b.text ++ a.text, fun c hc =>
        (List.mem_append.mp hc).elim (b.white c) (a.white c)⟩
    · rw [readNumeric?_eq] at h
      cases hx : Decimal.readNumeral? s.trim with
      | none =>
        rw [hx] at h
        cases h
      | some x =>
        rw [hx] at h
        exact counts_of_trim hx h

/-- What no number is counted as is read as the NaN that nothing compares with. -/
lemma counts_iff {o : Option Value} {q : ℚ} : Counts o q ↔ (toNumber o).toRat? = some q := by
  have hzero : Binary64.zero.toRat? = some 0 := congrArg some Binary64.magnitude_zero
  have hone : Binary64.one.toRat? = some 1 := by decide +kernel
  cases o with
  | none => exact iff_of_false (nomatch ·) (nomatch ·)
  | some v =>
    cases v with
    | null =>
      rw [toNumber, hzero, Option.some.injEq]
      exact ⟨fun | .null => rfl, fun h => h ▸ .null⟩
    | bool b => cases b with
      | false =>
        rw [toNumber, if_neg Bool.false_ne_true, hzero, Option.some.injEq]
        exact ⟨fun | .false => rfl, fun h => h ▸ .false⟩
      | true =>
        rw [toNumber, if_pos rfl, hone, Option.some.injEq]
        exact ⟨fun | .true => rfl, fun h => h ▸ .true⟩
    | number n =>
      rw [toNumber, ← Number.counts_iff]
      exact ⟨fun | .number h => h, .number⟩
    | string s => exact counts_string_iff
    | array items => exact iff_of_false (nomatch ·) (nomatch ·)
    | object fields => exact iff_of_false (nomatch ·) (nomatch ·)

lemma Counts.unique {o : Option Value} {p q : ℚ} (h : Counts o p) (h' : Counts o q) : p = q :=
  Option.some.inj ((counts_iff.mp h).symm.trans (counts_iff.mp h'))

lemma number_same_iff_alike {m n : Number} :
    m.same n = true ↔ Alike (.number m) (.number n) := by
  cases m with
  | int a =>
    cases n with
    | int b =>
      rw [Number.same, beq_iff_eq]
      constructor
      · rintro rfl
        exact .int a
      · intro h
        cases h
        rfl
    | float y => exact iff_of_false Bool.false_ne_true fun h => by cases h
  | float x =>
    cases n with
    | int b => exact iff_of_false Bool.false_ne_true fun h => by cases h
    | float y =>
      rw [Number.same, Binary64.numEq_iff_toRat?]
      constructor
      · rintro ⟨q, hx, hy⟩
        exact .float hx hy
      · intro h
        cases h with
        | float hx hy => exact ⟨_, hx, hy⟩

mutual

lemma same_iff_alike : ∀ v w : Value, same v w = true ↔ Alike v w
  | .null, w => by
    cases w with
    | null => exact iff_of_true rfl .null
    | _ => exact iff_of_false Bool.false_ne_true (nomatch ·)
  | .bool a, w => by
    cases w with
    | bool b =>
      rw [same, beq_iff_eq]
      exact ⟨fun h => h ▸ .bool a, fun | .bool _ => rfl⟩
    | _ => exact iff_of_false Bool.false_ne_true (nomatch ·)
  | .number m, w => by
    cases w with
    | number n => exact number_same_iff_alike
    | _ => exact iff_of_false Bool.false_ne_true (nomatch ·)
  | .string a, w => by
    cases w with
    | string b =>
      rw [same, beq_iff_eq]
      exact ⟨fun h => h ▸ .string a, fun | .string _ => rfl⟩
    | _ => exact iff_of_false Bool.false_ne_true (nomatch ·)
  | .array xs, w => by
    cases w with
    | array ys =>
      rw [same, sameItems_iff_alike xs ys]
      exact ⟨.array, fun | .array h => h⟩
    | _ => exact iff_of_false Bool.false_ne_true (nomatch ·)
  | .object xs, w => by
    cases w with
    | object ys =>
      rw [same, Bool.and_eq_true, beq_iff_eq, sameEntries_iff_alike xs ys]
      exact ⟨fun h => .object h.1 h.2, fun | .object hlength h => ⟨hlength, h⟩⟩
    | _ => exact iff_of_false Bool.false_ne_true (nomatch ·)

lemma sameItems_iff_alike :
    ∀ xs ys : List Value, sameItems xs ys = true ↔ List.Forall₂ Alike xs ys
  | [], [] => iff_of_true rfl .nil
  | [], _ :: _ => iff_of_false Bool.false_ne_true (nomatch ·)
  | _ :: _, [] => iff_of_false Bool.false_ne_true (nomatch ·)
  | x :: xs, y :: ys => by
    rw [sameItems, Bool.and_eq_true, List.forall₂_cons, same_iff_alike x y,
      sameItems_iff_alike xs ys]

lemma sameEntries_iff_alike : ∀ xs ys : Fields, sameEntries xs ys = true ↔
    ∀ field ∈ xs, Option.Rel Alike (some field.2) (ys.get? field.1)
  | [], _ => by simp [sameEntries]
  | (key, v) :: xs, ys => by
    rw [sameEntries, Bool.and_eq_true, List.forall_mem_cons, sameEntries_iff_alike xs ys]
    refine and_congr_left fun _ => ?_
    cases ys.get? key with
    | none => exact iff_of_false Bool.false_ne_true (nomatch ·)
    | some w => exact (same_iff_alike v w).trans ⟨.some, fun | .some h => h⟩

end

/-- Numbers that are equal inside a container are equal outside of it. -/
lemma exists_counts_of_alike {m n : Number} (h : Alike (.number m) (.number n)) :
    ∃ q, m.Counts q ∧ n.Counts q := by
  have hsame := (number_same_iff.mp (number_same_iff_alike.mpr h)).1
  simpa only [Number.counts_iff] using Binary64.numEq_iff_toRat?.mp hsame

lemma strictEq_number_iff {m n : Number} :
    strictEq (some (.number m)) (some (.number n)) = true ↔
      Equals (some (.number m)) (some (.number n)) := by
  rw [strictEq, Binary64.numEq_iff_toRat?]
  simp only [← Number.counts_iff]
  constructor
  · rintro ⟨q, hm, hn⟩
    exact .numbers hm hn
  · intro h
    cases h with
    | numbers hm hn => exact ⟨_, hm, hn⟩
    | alike h => exact exists_counts_of_alike h

lemma strictEq_iff {o o' : Option Value} : strictEq o o' = true ↔ Equals o o' := by
  cases o with
  | none =>
    cases o' with
    | none => exact iff_of_true rfl .absent
    | some w => exact iff_of_false (by cases w <;> simp [strictEq]) fun h => by cases h
  | some v =>
    cases o' with
    | none => exact iff_of_false (by cases v <;> simp [strictEq]) fun h => by cases h
    | some w =>
      by_cases hv : ∃ n, v = .number n
      · obtain ⟨m, rfl⟩ := hv
        cases w with
        | number n => exact strictEq_number_iff
        | _ =>
          refine iff_of_false (by simp [strictEq, same]) fun h => ?_
          cases h with
          | alike h => cases h
      · have hv' : ∀ n, v ≠ .number n := fun n h => hv ⟨n, h⟩
        rw [strictEq_eq_same hv' w, same_iff_alike v w]
        refine ⟨.alike, fun h => ?_⟩
        cases h with
        | numbers => exact absurd rfl (hv' _)
        | alike h => exact h

end Value
end Stencil
