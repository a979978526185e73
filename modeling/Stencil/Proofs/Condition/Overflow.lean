import Stencil.LoopSource
import Stencil.Proofs.Condition.Integers
import Stencil.Proofs.Numerals

/-! Numerals beyond the binary64 format. Main statement: a literal, an operand or an item of a
comma list is read as a number or a string, unless it is a numeral that stands for a number too
large for the format, which is read as null and compares as zero. -/
namespace Stencil
open Binary64

namespace Value
variable {x : Binary64}

lemma ofBinary64_of_not_isFinite (h : x.isFinite = false) : ofBinary64 x = .null := by
  have hint : x.toInt? = none := by
    cases x with
    | nan => rfl
    | signed negative rank =>
      rw [isFinite] at h
      rw [toInt?, h]
      rfl
  rw [ofBinary64, Number.ofBinary64?, hint, h]
  rfl

/-- The magnitude of a small whole number is the one it is read off. -/
lemma wholeRank_of_units {n rank : ℕ} (hn : n < 2 ^ 53) (h : units rank = n * unitsPerOne) :
    wholeRank n = rank := by
  have hlimit : n < limit := hn.trans_le (two_pow_le_limit (by decide))
  refine units_strictMono.injective ?_
  rw [units_wholeRank hlimit, nearestNat_of_lt hn, h]

lemma place?_ofInt_of_toInt? {z : ℤ} (h : x.toInt? = some z) (hz : z.natAbs < 2 ^ 53) :
    (Binary64.ofInt z).place? = x.place? := by
  cases x with
  | nan => cases h
  | signed negative rank =>
    rw [toInt?] at h
    split at h
    · rename_i hwhole
      obtain ⟨-, hmod⟩ := Bool.and_eq_true_iff.mp hwhole
      have hunits := Nat.div_add_mod' (units rank) unitsPerOne
      rw [beq_iff_eq.mp hmod, Nat.add_zero] at hunits
      dsimp only at h
      generalize units rank / unitsPerOne = n at h hunits
      rw [place?_ofInt, place?]
      cases negative with
      | true =>
        obtain rfl : -(n : ℤ) = z := by simpa using h
        rw [mirrored_neg (by decide), wholeRank_of_units (by simpa using hz) hunits.symm]
        rfl
      | false =>
        obtain rfl : (n : ℤ) = z := by simpa using h
        rw [mirrored_natCast, wholeRank_of_units (by simpa using hz) hunits.symm]
        rfl
    · cases h

/-- A finite number is kept as a number at the same place. -/
lemma exists_number_ofBinary64 (h : x.isFinite = true) :
    ∃ m : Number, ofBinary64 x = .number m ∧ m.toBinary64.place? = x.place? := by
  rw [ofBinary64, Number.ofBinary64?]
  cases hint : x.toInt? with
  | none => exact ⟨.float x, by simp [h], rfl⟩
  | some z =>
    dsimp only
    split_ifs with hz
    · exact ⟨.int z, rfl, place?_ofInt_of_toInt? hint hz⟩
    · exact ⟨.float x, rfl, rfl⟩

end Value

namespace Numeral
variable (n : Numeral)

/-- Whether the digits stand for a number too large for the format. -/
def Overflows : Prop := n.decimal.Overflows

lemma exists_number_eq : ∃ rank, n.decimal.IsRankOf rank ∧ n.number = .signed n.negative rank :=
  (Decimal.exists_rank n.decimal).imp fun _ h => ⟨h, h.read n.negative⟩

variable {n}

lemma isFinite_number : n.number.isFinite = true ↔ ¬n.Overflows := by
  obtain ⟨rank, hrank, hnumber⟩ := n.exists_number_eq
  rw [hnumber, isFinite, decide_eq_true_iff]
  exact hrank.finite

lemma value_eq_null (h : n.Overflows) : n.value = .null :=
  Value.ofBinary64_of_not_isFinite (by
    rw [Bool.eq_false_iff, Ne, isFinite_number]
    exact not_not.mpr h)

lemma exists_number (h : ¬n.Overflows) :
    ∃ m : Number, n.value = .number m ∧ m.toBinary64.place? = n.number.place? :=
  Value.exists_number_ofBinary64 (isFinite_number.mpr h)

end Numeral

section Order
variable {x : Binary64} (m : MachineInt)

/-- Every 64-bit integer is below a number that is read off a decimal of at least `2 ^ 65`. -/
lemma numLt_of_large {d : Decimal} {rank : ℕ} (hrank : d.IsRankOf rank)
    (hd : (2 ^ 65 : ℕ) ≤ d.toRat) (hx : x.place? = some (rank : ℤ)) :
    (ofInt m).numLt x = true := by
  have hpower : wholeRank (2 ^ 64) < wholeRank (2 ^ 65) := by decide +kernel
  have hlt : mirrored wholeRank m.1 < rank :=
    calc mirrored wholeRank m.1 ≤ mirrored wholeRank ((2 ^ 64 : ℕ) : ℤ) :=
          mirrored_mono wholeRank_mono (by exact_mod_cast m.2.2.le)
      _ = wholeRank (2 ^ 64) := mirrored_natCast _
      _ < wholeRank (2 ^ 65) := by exact_mod_cast hpower
      _ ≤ rank := by exact_mod_cast hrank.mono _ hd
  rw [numLt, order?, place?_ofInt, hx]
  exact beq_iff_eq.mpr (congrArg some (compare_lt_iff_lt.mpr hlt))

lemma numLt_zero : (ofInt m).numLt .zero = true ↔ m.1 < 0 := by
  have hzero : nearestInt 0 = 0 := by decide
  have hone : nearestInt (-1) = -1 := by decide
  rw [show Binary64.zero = ofInt 0 by decide,
    numLt_ofInt m.natAbs_lt_limit (by simpa using limit_pos), hzero]
  constructor
  · intro h
    by_contra hm
    have := nearestInt_mono (not_lt.mp hm)
    omega
  · intro h
    have := nearestInt_mono (show m.1 ≤ -1 by omega)
    omega

end Order

namespace Literal

/-- The literals for null are the word itself and the numerals that overflow. -/
lemma scalar?_eq_null_iff {s : Text} :
    scalar? s = some .null ↔ s = "null".toList ∨ ∃ n : Numeral, n.text = s ∧ n.Overflows := by
  constructor
  · intro h
    by_cases hs : isNumeral s = true
    · obtain ⟨n, rfl⟩ := isNumeral_iff.mp hs
      refine .inr ⟨n, rfl, ?_⟩
      by_contra hn
      obtain ⟨m, hm, -⟩ := Numeral.exists_number hn
      rw [scalar?_numeral, hm] at h
      cases h
    · left
      rw [scalar?, numeral?, if_neg hs] at h
      split at h
      · cases h
      · dsimp only at h
        split_ifs at h with htrue hfalse hnull
        · cases h
        · cases h
        · exact hnull
  · rintro (rfl | ⟨n, rfl, hn⟩)
    · rfl
    · rw [scalar?_numeral, Numeral.value_eq_null hn]

end Literal

namespace Value

/-- A string or a number. -/
def IsPlain : Value → Prop
  | .string _ | .number _ => True
  | _ => False

lemma isPlain_ofBinary64 {x : Binary64} (h : x.isFinite = true) : (ofBinary64 x).IsPlain := by
  obtain ⟨m, hm, -⟩ := exists_number_ofBinary64 h
  rw [hm]
  trivial

end Value

namespace LoopSource

lemma written?_eq_none {s inner : Text} (h : Literal.unquote? s = some inner) :
    Decimal.written? s = none := by
  cases hd : Decimal.written? s with
  | none => rfl
  | some d =>
    have hall := Decimal.all_of_written? hd
    cases s with
    | nil => cases h
    | cons q s =>
      rw [Literal.unquote?] at h
      split at h
      · rename_i hq
        obtain ⟨hq, -⟩ := Bool.and_eq_true_iff.mp hq
        have hchar : Decimal.isNumeralChar q = true := List.all_eq_true.mp hall q List.mem_cons_self
        rcases Bool.or_eq_true_iff.mp hq with hq | hq <;>
        · rw [beq_iff_eq.mp hq] at hchar
          exact absurd hchar (by decide)
      · cases h

/-- An item is a string or a number unless it is a numeral that overflows. -/
lemma readItem_cases (s : Text) :
    (∃ d ∈ Decimal.written? s.trim, d.Overflows) ∧ readItem s = .null ∨
      (∀ d ∈ Decimal.written? s.trim, ¬d.Overflows) ∧ (readItem s).IsPlain := by
  rw [readItem]
  cases hquote : Literal.unquote? s.trim with
  | some inner =>
    rw [written?_eq_none hquote]
    exact .inr ⟨by simp, trivial⟩
  | none =>
    simp only [Value.toNumber, (Text.isTrimmed_trim s).trim_eq, Value.readNumeric?_eq,
      Decimal.readNumeral?_eq]
    cases hd : Decimal.written? s.trim with
    | none =>
      refine .inr ⟨by simp, ?_⟩
      cases s.trim with
      | nil => exact Value.isPlain_ofBinary64 (x := .zero) (by decide)
      | cons c rest => trivial
    | some d =>
      have hne : s.trim ≠ [] := by
        intro h
        rw [h] at hd
        cases hd
      obtain ⟨rank, hrank⟩ := Decimal.exists_rank d
      simp only [List.isEmpty_iff, hne, if_false, Option.map_some, Option.getD_some, hrank.read,
        isNaN, Bool.false_eq_true, Option.mem_some_iff, forall_eq', exists_eq_left']
      by_cases hover : d.Overflows
      · refine .inl ⟨hover, Value.ofBinary64_of_not_isFinite ?_⟩
        rw [isFinite, decide_eq_false_iff_not, hrank.finite]
        exact not_not.mpr hover
      · refine .inr ⟨hover, Value.isPlain_ofBinary64 ?_⟩
        rw [isFinite, decide_eq_true_iff]
        exact hrank.finite.mpr hover

lemma readCommaList_isPlain_iff {inner : Text} : (∀ v ∈ readCommaList inner, v.IsPlain) ↔
    ∀ s ∈ inner.splitOn ',', ∀ d ∈ Decimal.written? (Text.trim s), ¬d.Overflows := by
  rw [readCommaList, List.forall_mem_map]
  refine forall₂_congr fun s _ => ?_
  rcases readItem_cases s with ⟨⟨d, hd, hover⟩, hnull⟩ | ⟨hfits, hplain⟩
  · rw [hnull]
    exact iff_of_false id fun h => h d hd hover
  · exact iff_of_true hplain hfits

end LoopSource

namespace Grammar

lemma conditionHolds_numeral (l : Operand) (b : Blank) (op : Comparison) (a : Blank) (n : Numeral)
    (vars : Fields) : conditionHolds (Atom.compare l b op a (.numeral n)).text vars =
      op.holds (l.value vars) (Literal.scalar? n.text) := by
  rw [conditionHolds_atom, Literal.scalar?_numeral]
  rfl

/-- A numeral without a minus is above every 64-bit integer when it is large, but not when it is too
large for the format: then it takes the place of zero. -/
lemma lt_numeral {n : Numeral} (hn : n.negative = false) {p : Variable} {vars : Fields}
    {m : MachineInt} (hp : vars.valueAt? p.text = some (.number (.int m))) (b a : Blank) :
    (¬n.Overflows → (2 ^ 65 : ℕ) ≤ n.decimal.toRat →
      conditionHolds (Atom.compare (.var p) b .lt a (.numeral n)).text vars = true) ∧
    (n.Overflows → (conditionHolds (Atom.compare (.var p) b .lt a (.numeral n)).text vars = true ↔
      m.1 < 0)) := by
  rw [conditionHolds_numeral, Operand.value, hp, Literal.scalar?_numeral, Comparison.holds]
  constructor
  · intro hfits hlarge
    obtain ⟨k, hk, hplace⟩ := Numeral.exists_number hfits
    obtain ⟨rank, hrank, hnumber⟩ := n.exists_number_eq
    rw [hk]
    refine numLt_of_large m hrank hlarge ?_
    rw [Value.toNumber, hplace, hnumber, hn]
    rfl
  · intro hover
    rw [Numeral.value_eq_null hover]
    exact numLt_zero m

/-- A literal of digits is the number nearest to it, and conditions compare with that number, unless
the digits stand for a number too large for the format: the literal is then null, and no other
literal is but the word. The items of a comma list are strings and numbers, with the same
exception. -/
theorem numerals_overflow (n : Numeral) :
    (Literal.scalar? n.text = some .null ↔ n.Overflows) ∧
    ((∃ m : Number, Literal.scalar? n.text = some (.number m) ∧
      m.toBinary64.place? = n.number.place?) ↔ ¬n.Overflows) ∧
    (∀ (l : Operand) (b : Blank) (op : Comparison) (a : Blank) (vars : Fields),
      conditionHolds (Atom.compare l b op a (.numeral n)).text vars =
        op.holds (l.value vars) (Literal.scalar? n.text)) ∧
    (n.negative = false → ∀ (p : Variable) (vars : Fields) (m : MachineInt),
      vars.valueAt? p.text = some (.number (.int m)) → ∀ b a : Blank,
        (¬n.Overflows → (2 ^ 65 : ℕ) ≤ n.decimal.toRat →
          conditionHolds (Atom.compare (.var p) b .lt a (.numeral n)).text vars = true) ∧
        (n.Overflows →
          (conditionHolds (Atom.compare (.var p) b .lt a (.numeral n)).text vars = true ↔
            m.1 < 0))) ∧
    (∀ s : Text, Literal.scalar? s = some .null ↔
      s = "null".toList ∨ ∃ k : Numeral, k.text = s ∧ k.Overflows) ∧
    (∀ inner : Text, (∀ v ∈ LoopSource.readCommaList inner, v.IsPlain ∨ v = .null) ∧
      ((∀ v ∈ LoopSource.readCommaList inner, v.IsPlain) ↔
        ∀ s ∈ inner.splitOn ',', ∀ d ∈ Decimal.written? (Text.trim s), ¬d.Overflows)) := by
  refine ⟨?_, ?_, (conditionHolds_numeral · · · · n ·), fun hn p vars m hp => lt_numeral hn hp,
    fun s => Literal.scalar?_eq_null_iff, fun inner => ⟨?_, LoopSource.readCommaList_isPlain_iff⟩⟩
  · rw [Literal.scalar?_numeral]
    refine ⟨fun h => ?_, fun h => congrArg some (Numeral.value_eq_null h)⟩
    by_contra hn
    obtain ⟨m, hm, -⟩ := Numeral.exists_number hn
    rw [hm] at h
    cases h
  · rw [Literal.scalar?_numeral]
    constructor
    · rintro ⟨m, hm, -⟩ h
      rw [Numeral.value_eq_null h] at hm
      cases hm
    · intro h
      obtain ⟨m, hm, hplace⟩ := Numeral.exists_number h
      exact ⟨m, congrArg some hm, hplace⟩
  · intro v hv
    obtain ⟨s, -, rfl⟩ := List.mem_map.mp hv
    exact (LoopSource.readItem_cases s).elim (fun h => .inr h.2) fun h => .inl h.2

/-- A one with zeros behind it. -/
def tenTo (k : ℕ) : Numeral where
  negative := false
  whole := '1' :: List.replicate k '0'
  fraction := none
  whole_digits := by simp [Text.isWordOf]
  fraction_digits := by simp

/-- A context with one small number. -/
def five : Fields := [("x".toList, .number (.int 5))]

theorem numerals_overflow_tenTo :
    (tenTo 309).Overflows ∧ ¬(tenTo 20).Overflows ∧
    (conditionHolds (Atom.compare (.var letterX) space .lt space (.numeral (tenTo 309))).text
      five = true ↔ (5 : ℤ) < 0) ∧
    conditionHolds (Atom.compare (.var letterX) space .lt space (.numeral (tenTo 20))).text
      five = true := by
  obtain ⟨-, -, -, hlarge, -⟩ := numerals_overflow (tenTo 309)
  obtain ⟨-, -, -, hsmall, -⟩ := numerals_overflow (tenTo 20)
  have hover : (tenTo 309).Overflows := by
    change (limit : ℚ) ≤ (tenTo 309).decimal.toRat
    decide +kernel
  have hnot : ¬(tenTo 20).Overflows := by
    change ¬(limit : ℚ) ≤ (tenTo 20).decimal.toRat
    decide +kernel
  have hfive : five.valueAt? letterX.text = some (.number (.int 5)) := rfl
  refine ⟨hover, hnot, (hlarge rfl letterX five ⟨5, by decide⟩ hfive space space).2 hover,
    (hsmall rfl letterX five ⟨5, by decide⟩ hfive space space).1 hnot ?_⟩
  decide +kernel

lemma below_tenTo (k : ℕ) : "x < ".toList ++ '1' :: List.replicate k '0' =
    (Atom.compare (.var letterX) space .lt space (.numeral (tenTo k))).text := by
  simp [Atom.text, Operand.text, letterX, letter, space, tenTo, Numeral.text, Numeral.digits,
    Comparison.symbol]

/-- Five is not below the first power of ten that is too large for the format. -/
theorem conditionHolds_tenTo :
    conditionHolds ("x < ".toList ++ '1' :: List.replicate 309 '0') five = false := by
  rw [below_tenTo, conditionHolds_atom]
  decide +kernel

end Grammar

end Stencil
