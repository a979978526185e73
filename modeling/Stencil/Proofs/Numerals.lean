import Stencil.Proofs.Decimals
import Stencil.Proofs.Literals

/-! What numerals stand for, said without reading them: the rational number that the digits write.
Main statements: a literal is kept as the number of the binary64 format nearest to what it writes,
as an integer where that is one of at most 53 bits, and as null beyond the format; the texts that
are read as a decimal are those of one notation, each as the number nearest to what it writes. -/
namespace Stencil
open Binary64

namespace Decimal

/-- The number that a row of decimal digits writes. -/
def written (s : Text) : ℕ := Nat.ofDigits 10 (s.reverse.map fun c => c.toNat - '0'.toNat)

lemma valueOfDigits_eq (s : Text) : valueOfDigits s = written s := by
  rw [valueOfDigits, written, Nat.ofDigits_eq_foldr, List.foldr_map, List.foldr_reverse]
  simp only [digitValue, Nat.cast_id, Nat.add_comm]

/-- A number with one of two signs. -/
def signed (negative : Bool) (q : ℚ) : ℚ := if negative then -q else q

lemma toRat_nonneg (d : Decimal) : 0 ≤ d.toRat := by
  rw [toRat]
  positivity

/-- A decimal is read as the number nearest to it. -/
lemma roundsTo_signed (d : Decimal) (negative : Bool) {r : ℚ} :
    RoundsTo (signed negative d.toRat) r ↔
      (ofDecimal negative d.digits d.exponent).toRat? = some r := by
  obtain ⟨rank, hrank⟩ := d.exists_rank
  have hnonneg := d.toRat_nonneg
  rw [hrank.read negative]
  refine roundsTo_iff ?_ (fun h => ?_) fun h => ?_
  · have habs : |signed negative d.toRat| = d.toRat := by
      cases negative with
      | true => rw [signed, if_pos rfl, abs_neg, abs_of_nonneg hnonneg]
      | false => rw [signed, if_neg Bool.false_ne_true, abs_of_nonneg hnonneg]
    rw [habs]
    exact hrank.nearest
  · cases negative with
    | true => rfl
    | false => exact absurd h hnonneg.not_gt
  · cases negative with
    | true =>
      rw [signed, if_pos rfl, neg_pos] at h
      exact absurd h hnonneg.not_gt
    | false => rfl

end Decimal

section Kept

lemma magnitude_infinityRank : magnitude infinityRank = 2 ^ 1024 := by
  have hunits : units infinityRank = 2 ^ 1024 * unitsPerOne := by decide +kernel
  rw [magnitude, hunits, Nat.cast_mul, mul_div_cancel_right₀ _ cast_unitsPerOne_pos.ne']
  exact Nat.cast_pow 2 1024

/-- How a number of the format is kept as a value: a whole number of at most 53 bits as an integer,
and infinity not at all. -/
inductive Value.Keeps (r : ℚ) : Value → Prop
  | int {z : ℤ} (hr : r = z) (hz : |z| < 2 ^ 53) : Keeps r (.number (.int z))
  | float {x : Binary64} (hx : x.toRat? = some r) (hr : |r| < 2 ^ 1024)
    (hwhole : ∀ z : ℤ, r = z → 2 ^ 53 ≤ |z|) : Keeps r (.number (.float x))
  | null (hr : 2 ^ 1024 ≤ |r|) : Keeps r .null

section
variable {x y : Binary64} {r : ℚ}

lemma abs_of_toRat? {negative : Bool} {rank : ℕ}
    (hx : (Binary64.signed negative rank).toRat? = some r) : |r| = magnitude rank := by
  obtain rfl := Option.some.inj hx
  cases negative with
  | true => rw [if_pos rfl, abs_neg, abs_of_nonneg (magnitude_nonneg rank)]
  | false => rw [if_neg Bool.false_ne_true, abs_of_nonneg (magnitude_nonneg rank)]

lemma isFinite_iff_of_toRat? (hx : x.toRat? = some r) : x.isFinite = true ↔ |r| < 2 ^ 1024 := by
  cases x with
  | nan => cases hx
  | signed negative rank =>
    rw [abs_of_toRat? hx, ← magnitude_infinityRank, magnitude_strictMono.lt_iff_lt, isFinite,
      decide_eq_true_iff]

/-- Apart from zero every rational is at most one number of the format. -/
lemma eq_of_toRat? (hx : x.toRat? = some r) (hy : y.toRat? = some r) (hr : r ≠ 0) : x = y := by
  cases x with
  | nan => cases hx
  | signed negative rank =>
    cases y with
    | nan => cases hy
    | signed negative' rank' =>
      have hrank : rank = rank' :=
        magnitude_strictMono.injective ((abs_of_toRat? hx).symm.trans (abs_of_toRat? hy))
      subst hrank
      have hsign := (Option.some.inj hx).trans (Option.some.inj hy).symm
      have hne : -magnitude rank ≠ magnitude rank := fun h => by
        have hzero : magnitude rank = 0 := self_eq_neg.mp h.symm
        exact hr (abs_eq_zero.mp ((abs_of_toRat? hx).trans hzero))
      cases negative <;> cases negative' <;> simp [hne, Ne.symm hne] at hsign ⊢

/-- The numbers that are read as an integer are those that stand for one. -/
lemma toInt?_eq_some_iff {z : ℤ} :
    x.toInt? = some z ↔ x.isFinite = true ∧ x.toRat? = some (z : ℚ) := by
  cases x with
  | nan => simp [toInt?, toRat?]
  | signed negative rank =>
    have hpos := cast_unitsPerOne_pos.ne'
    rw [toInt?, isFinite, decide_eq_true_iff, toRat?, Option.some.injEq]
    by_cases h : (decide (rank < infinityRank) && units rank % unitsPerOne == 0) = true
    · rw [if_pos h]
      obtain ⟨hfinite, hmod⟩ := Bool.and_eq_true_iff.mp h
      obtain ⟨w, hw⟩ := Nat.dvd_of_mod_eq_zero (beq_iff_eq.mp hmod)
      have hmagnitude : magnitude rank = w := by
        rw [magnitude, hw, Nat.cast_mul, mul_div_cancel_left₀ _ hpos]
      rw [and_iff_right (by simpa using hfinite), Option.some.injEq, hw,
        Nat.mul_div_cancel_left _ unitsPerOne_pos, hmagnitude]
      cases negative <;> exact_mod_cast Iff.rfl
    · rw [if_neg h]
      refine iff_of_false (by simp) ?_
      rintro ⟨hfinite, hz⟩
      -- a whole number is a multiple of the units in one
      have hunits : (units rank : ℚ) = (z.natAbs * unitsPerOne : ℕ) := by
        have hx : (Binary64.signed negative rank).toRat? = some (z : ℚ) := congrArg some hz
        have habs : magnitude rank = z.natAbs := by
          rw [← abs_of_toRat? hx, ← Int.cast_abs, Int.abs_eq_natAbs, Int.cast_natCast]
        rw [Nat.cast_mul, ← habs, magnitude, div_mul_cancel₀ _ hpos]
      have hmod : units rank % unitsPerOne = 0 := by
        rw [Nat.cast_injective hunits, Nat.mul_mod_left]
      simp [hfinite, hmod] at h

end

namespace Value
variable {r : ℚ} {x : Binary64} {v w : Value}

lemma abs_lt_of_int {z : ℤ} (hr : r = z) (hz : |z| < 2 ^ 53) : |r| < 2 ^ 1024 := by
  have hcast : |r| < 2 ^ 53 := by
    rw [hr]
    exact_mod_cast hz
  exact hcast.trans_le (pow_le_pow_right₀ (by norm_num) (by decide))

lemma Keeps.unique (hv : Keeps r v) (hw : Keeps r w) : v = w := by
  cases hv with
  | @int z hr hz =>
    cases hw with
    | int hr' _ =>
      obtain rfl := Int.cast_injective (hr.symm.trans hr')
      rfl
    | float _ _ hwhole => exact absurd hz (hwhole z hr).not_gt
    | null hlarge => exact absurd (abs_lt_of_int hr hz) hlarge.not_gt
  | float hx hsmall hwhole =>
    cases hw with
    | @int z hr hz => exact absurd hz (hwhole z hr).not_gt
    | float hy _ _ =>
      have hne : r ≠ 0 := fun h => absurd (hwhole 0 (by simpa using h)) (by decide)
      rw [eq_of_toRat? hx hy hne]
    | null hlarge => exact absurd hsmall hlarge.not_gt
  | null hlarge =>
    cases hw with
    | int hr hz => exact absurd (abs_lt_of_int hr hz) hlarge.not_gt
    | float _ hsmall _ => exact absurd hsmall hlarge.not_gt
    | null _ => rfl

/-- A number of the format becomes the value that it is kept as. -/
lemma keeps_iff (hx : x.toRat? = some r) : Keeps r v ↔ v = ofBinary64 x := by
  have hkeeps : Keeps r (ofBinary64 x) := by
    rw [ofBinary64, Number.ofBinary64?]
    cases hint : x.toInt? with
    | some z =>
      obtain ⟨hfinite, hz⟩ := toInt?_eq_some_iff.mp hint
      obtain rfl := Option.some.inj (hx.symm.trans hz)
      dsimp only
      split_ifs with hsmall
      · refine .int rfl ?_
        rw [Int.abs_eq_natAbs]
        exact_mod_cast hsmall
      · refine .float hx ((isFinite_iff_of_toRat? hx).mp hfinite) fun w hw => ?_
        obtain rfl := Int.cast_injective hw
        rw [Int.abs_eq_natAbs]
        exact_mod_cast not_lt.mp hsmall
    | none =>
      have hnone (z : ℤ) (hz : x.isFinite = true) : r ≠ z := by
        rintro rfl
        have := toInt?_eq_some_iff.mpr ⟨hz, hx⟩
        rw [hint] at this
        cases this
      dsimp only
      split_ifs with hfinite
      · exact .float hx ((isFinite_iff_of_toRat? hx).mp hfinite) fun z hz =>
          absurd hz (hnone z hfinite)
      · rw [isFinite_iff_of_toRat? hx] at hfinite
        exact .null (not_lt.mp hfinite)
  exact ⟨fun h => h.unique hkeeps, fun h => h ▸ hkeeps⟩

end Value

end Kept

namespace Numeral
variable (n : Numeral)

/-- The number that the digits write, with its sign. -/
def toRat : ℚ :=
  Decimal.signed n.negative
    (Decimal.written (n.whole ++ n.fraction.getD []) / 10 ^ (n.fraction.getD []).length)

/-- The value of a literal: the number nearest to what it writes, as it is kept. -/
def Means (v : Value) : Prop := ∃ r, RoundsTo n.toRat r ∧ v.Keeps r

/-- What the digits stand for. -/
def decimal : Decimal where
  digits := Decimal.valueOfDigits (n.whole ++ n.fraction.getD [])
  exponent := -((n.fraction.getD []).length : ℤ)

lemma toRat_eq : n.toRat = Decimal.signed n.negative n.decimal.toRat := by
  rw [toRat, Decimal.toRat, decimal, Decimal.valueOfDigits_eq, zpow_neg, zpow_natCast,
    div_eq_mul_inv]

lemma means_iff {v : Value} : n.Means v ↔ v = n.value := by
  have hread {r : ℚ} : RoundsTo n.toRat r ↔ n.number.toRat? = some r := by
    rw [toRat_eq]
    exact n.decimal.roundsTo_signed n.negative
  constructor
  · rintro ⟨r, hr, hkeeps⟩
    exact (Value.keeps_iff (hread.mp hr)).mp hkeeps
  · rintro rfl
    obtain ⟨rank, hrank⟩ := n.decimal.exists_rank
    have hx : n.number.toRat? = some (Decimal.signed n.negative (magnitude rank)) :=
      congrArg toRat? (hrank.read n.negative)
    exact ⟨_, hread.mpr hx, (Value.keeps_iff hx).mpr rfl⟩

end Numeral

namespace Decimal

/-- A sign, which may be left out. -/
inductive Sign
  | none
  | plus
  | minus

namespace Sign

def text : Sign → Text
  | .none => []
  | .plus => ['+']
  | .minus => ['-']

def isMinus : Sign → Bool
  | .minus => true
  | _ => false

end Sign

/-- The exponent part of a decimal. -/
structure Power where
  letter : Char
  sign : Sign
  digits : Text
  isLetter : letter = 'e' ∨ letter = 'E'
  isDigits : digits.isWordOf Char.isDigit = true

namespace Power
variable (p : Power)

def text : Text := p.letter :: p.sign.text ++ p.digits

def exponent : ℤ := if p.sign.isMinus then -(written p.digits : ℤ) else written p.digits

end Power

/-- A decimal as a string may hold it: digits with at most one point among or around them, behind an
optional sign and before an optional exponent. -/
structure Written where
  sign : Sign
  whole : Text
  fraction : Option Text
  power : Option Power
  isDigits : ∀ c ∈ whole ++ fraction.getD [], c.isDigit = true
  nonempty : whole ++ fraction.getD [] ≠ []

namespace Written
variable (w : Written)

def digits : Text := w.whole ++ w.fraction.getD []

def powerText : Text := w.power.elim [] Power.text

def pointText : Text := w.fraction.elim [] ('.' :: ·)

def text : Text := w.sign.text ++ (w.whole ++ (w.pointText ++ w.powerText))

/-- The power of ten that the digits are counted in. -/
def exponent : ℤ := w.power.elim 0 Power.exponent - (w.fraction.getD []).length

/-- The number that is written. -/
def toRat : ℚ := signed w.sign.isMinus (written w.digits * 10 ^ w.exponent)

end Written

section Reading

/-- Behind a sign stands something that is none. -/
lemma splitSign_append (sign : Sign) {s : Text} (h : ∀ c ∈ s.head?, c ≠ '-' ∧ c ≠ '+') :
    splitSign (sign.text ++ s) = (sign.isMinus, s) := by
  cases sign with
  | plus => rfl
  | minus => rfl
  | none =>
    rw [Sign.text, List.nil_append]
    unfold splitSign
    split
    · exact absurd rfl (h '-' rfl).1
    · exact absurd rfl (h '+' rfl).2
    · rfl

lemma exists_sign (s : Text) :
    ∃ sign : Sign, s = sign.text ++ (splitSign s).2 ∧ (splitSign s).1 = sign.isMinus := by
  unfold splitSign
  split
  · exact ⟨.minus, rfl, rfl⟩
  · exact ⟨.plus, rfl, rfl⟩
  · exact ⟨.none, rfl, rfl⟩

lemma readExponent?_text (p : Power) : readExponent? p.text = some p.exponent := by
  have hhead : ∀ c ∈ p.digits.head?, c ≠ '-' ∧ c ≠ '+' := fun c hc => by
    have hdigit := Text.of_mem_isWordOf p.isDigits (List.mem_of_mem_head? hc)
    constructor <;> rintro rfl <;> exact absurd hdigit (by decide)
  have hletter : (p.letter == 'e' || p.letter == 'E') = true := by
    rcases p.isLetter with h | h <;> rw [h] <;> rfl
  rw [Power.text, List.cons_append, readExponent?, if_pos hletter, splitSign_append _ hhead]
  simp only [p.isDigits, if_true, valueOfDigits_eq, Power.exponent]

lemma exists_power {s : Text} {e : ℤ} (h : readExponent? s = some e) :
    ∃ p : Option Power, s = p.elim [] Power.text ∧ e = p.elim 0 Power.exponent := by
  cases s with
  | nil => exact ⟨none, rfl, (Option.some.inj h).symm⟩
  | cons c s =>
    rw [readExponent?] at h
    split at h
    · rename_i hletter
      obtain ⟨sign, hs, hsign⟩ := exists_sign s
      dsimp only at h
      split at h
      · rename_i hdigits
        refine ⟨some ⟨c, sign, (splitSign s).2, by simpa using hletter, hdigits⟩, ?_, ?_⟩
        · exact congrArg (c :: ·) hs
        · rw [hsign, valueOfDigits_eq] at h
          exact (Option.some.inj h).symm
      · cases h
    · cases h

namespace Written
variable (w : Written)

lemma digit_of_mem_whole {c : Char} (hc : c ∈ w.whole) : c.isDigit = true :=
  w.isDigits c (List.mem_append_left _ hc)

lemma digit_of_mem_fraction {f : Text} (hf : w.fraction = some f) {c : Char} (hc : c ∈ f) :
    c.isDigit = true :=
  w.isDigits c (List.mem_append_right _ (by rwa [hf]))

lemma head?_powerText : ∀ c ∈ w.powerText.head?, c.isDigit = false ∧ c ≠ '.' := by
  rw [powerText]
  cases w.power with
  | none => simp
  | some p =>
    intro c hc
    obtain rfl : p.letter = c := Option.some.inj hc
    rcases p.isLetter with h | h <;> rw [h] <;> decide

/-- What stands behind the digits before the point. -/
lemma head?_pointText :
    ∀ c ∈ (w.pointText ++ w.powerText).head?, c.isDigit = false := by
  rw [pointText]
  cases w.fraction with
  | none => exact fun c hc => (w.head?_powerText c hc).1
  | some f =>
    intro c hc
    obtain rfl : '.' = c := Option.some.inj hc
    decide

lemma head?_unsigned :
    ∀ c ∈ (w.whole ++ (w.pointText ++ w.powerText)).head?, c ≠ '-' ∧ c ≠ '+' := by
  intro c hc
  have hkind : c.isDigit = true ∨ c = '.' := by
    cases hw : w.whole with
    | cons d rest =>
      rw [hw] at hc
      obtain rfl : d = c := Option.some.inj hc
      exact .inl (w.digit_of_mem_whole (hw ▸ List.mem_cons_self))
    | nil =>
      cases hf : w.fraction with
      | none => exact absurd (by rw [hw, hf]; rfl) w.nonempty
      | some f =>
        rw [hw, pointText, hf] at hc
        exact .inr (Option.some.inj hc).symm
  rcases hkind with h | rfl
  · constructor <;> rintro rfl <;> exact absurd h (by decide)
  · decide

lemma splitFraction_eq :
    splitFraction (w.pointText ++ w.powerText) = (w.fraction.getD [], w.powerText) := by
  have hhead := w.head?_powerText
  rw [pointText]
  cases hf : w.fraction with
  | some f =>
    exact Literal.span_digits (fun c hc => w.digit_of_mem_fraction hf hc) fun c hc => (hhead c hc).1
  | none =>
    rw [Option.elim, List.nil_append]
    unfold splitFraction
    split
    · exact absurd rfl (hhead '.' (by simp_all)).2
    · rfl

lemma readExponent?_powerText :
    readExponent? w.powerText = some (w.power.elim 0 Power.exponent) := by
  rw [powerText]
  cases w.power with
  | none => rfl
  | some p => exact readExponent?_text p

lemma readNumeral?_text : readNumeral? w.text =
    some (ofDecimal w.sign.isMinus (valueOfDigits w.digits) w.exponent) := by
  have hspan := Literal.span_digits (fun c hc => w.digit_of_mem_whole hc) w.head?_pointText
  rw [readNumeral?, text, splitSign_append _ w.head?_unsigned]
  simp only [hspan, w.splitFraction_eq, w.readExponent?_powerText]
  rw [if_neg (by simpa using w.nonempty)]
  rfl

end Written

lemma span_isDigit (s : Text) : (∀ c ∈ (s.span Char.isDigit).1, c.isDigit = true) ∧
    s = (s.span Char.isDigit).1 ++ (s.span Char.isDigit).2 := by
  rw [List.span_eq_takeWhile_dropWhile]
  exact ⟨fun c hc => List.mem_takeWhile_imp hc, List.takeWhile_append_dropWhile.symm⟩

lemma exists_point (s : Text) : ∃ f : Option Text, s = f.elim [] ('.' :: ·) ++ (splitFraction s).2 ∧
    (splitFraction s).1 = f.getD [] ∧ ∀ c ∈ f.getD [], c.isDigit = true := by
  unfold splitFraction
  split
  · rename_i s
    obtain ⟨hdigits, hs⟩ := span_isDigit s
    exact ⟨some (s.span Char.isDigit).1, congrArg ('.' :: ·) hs, rfl, hdigits⟩
  · exact ⟨none, rfl, rfl, by simp⟩

/-- What is read as a decimal is one as it is written. -/
lemma exists_written {s : Text} {x : Binary64} (h : readNumeral? s = some x) :
    ∃ w : Written, w.text = s := by
  obtain ⟨sign, hs, -⟩ := exists_sign s
  obtain ⟨hwhole, hrest⟩ := span_isDigit (splitSign s).2
  obtain ⟨f, hpoint, hf, hfraction⟩ := exists_point ((splitSign s).2.span Char.isDigit).2
  rw [readNumeral?] at h
  dsimp only at h
  split at h
  · cases h
  · rename_i hne
    obtain ⟨e, he, -⟩ := Option.bind_eq_some_iff.mp h
    obtain ⟨p, hp, -⟩ := exists_power he
    rw [hf] at hne
    refine ⟨⟨sign, ((splitSign s).2.span Char.isDigit).1, f, p, fun c hc => ?_, by simpa using hne⟩,
      ?_⟩
    · exact (List.mem_append.mp hc).elim (hwhole c) (hfraction c)
    · rw [Written.text, Written.pointText, Written.powerText, ← hp, ← hpoint, ← hrest]
      exact hs.symm

/-- A text is read as a decimal if it is one as it is written, and then as the number nearest to
it. -/
theorem readNumeral?_iff {s : Text} {r : ℚ} :
    (∃ x, readNumeral? s = some x ∧ x.toRat? = some r) ↔
      ∃ w : Written, w.text = s ∧ RoundsTo w.toRat r := by
  have hread (w : Written) : RoundsTo w.toRat r ↔ (ofDecimal w.sign.isMinus
      (valueOfDigits w.digits) w.exponent).toRat? = some r := by
    rw [Written.toRat, ← valueOfDigits_eq]
    exact roundsTo_signed ⟨valueOfDigits w.digits, w.exponent⟩ w.sign.isMinus
  constructor
  · rintro ⟨x, hx, hr⟩
    obtain ⟨w, rfl⟩ := exists_written hx
    rw [w.readNumeral?_text] at hx
    obtain rfl := Option.some.inj hx
    exact ⟨w, rfl, (hread w).mpr hr⟩
  · rintro ⟨w, rfl, hr⟩
    exact ⟨_, w.readNumeral?_text, (hread w).mp hr⟩

end Reading

end Decimal

/-- Every text that is read as a decimal has only characters that the reader of strings lets
through. -/
lemma Value.readNumeric?_eq (s : Text) : readNumeric? s = Decimal.readNumeral? s := by
  rw [readNumeric?]
  split
  · rfl
  · rename_i hs
    rw [Decimal.readNumeral?_eq]
    cases h : Decimal.written? s with
    | none => rfl
    | some d => exact absurd (Decimal.all_of_written? h) hs

end Stencil
