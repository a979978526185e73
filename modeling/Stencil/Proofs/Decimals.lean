import Stencil.Decimal
import Stencil.Proofs.Nearest
import Stencil.Proofs.Spacing

/-! Decimal numerals as rational numbers. Main statements: a decimal is read as the number of the
binary64 format nearest to it, as infinity just when it is at least the limit of the format, and
reading it keeps the order to the whole numbers. -/
namespace Stencil
open Binary64

namespace Decimal

/-- The number that a decimal stands for. -/
def toRat (d : Decimal) : ℚ := d.digits * 10 ^ d.exponent

/-- Whether a decimal is too large for the format. -/
def Overflows (d : Decimal) : Prop := (limit : ℚ) ≤ d.toRat

section Range
variable {n k : ℕ}

lemma toRat_natCast : (⟨n, k⟩ : Decimal).toRat = (n * 10 ^ k : ℕ) := by
  simp [toRat]

lemma toRat_negSucc : (⟨n, .negSucc k⟩ : Decimal).toRat = n / (10 ^ (k + 1) : ℕ) := by
  rw [toRat, zpow_negSucc, ← div_eq_mul_inv, Nat.cast_pow, Nat.cast_ofNat]

lemma natCast_le_toRat_negSucc {m : ℕ} :
    (m : ℚ) ≤ (⟨n, .negSucc k⟩ : Decimal).toRat ↔ m * 10 ^ (k + 1) ≤ n := by
  rw [toRat_negSucc, le_div_iff₀ (by positivity)]
  exact_mod_cast Iff.rfl

lemma limit_le_ten_pow (h : 400 < k) : limit ≤ 10 ^ k := by
  calc limit ≤ 2 ^ (3 * k) := (limit_lt_two_pow (by omega)).le
    _ = 8 ^ k := pow_mul 2 3 k
    _ ≤ 10 ^ k := Nat.pow_le_pow_left (by decide) k

/-- Digits that stand so far behind the point are below the middle of the smallest magnitude. -/
lemma two_mul_toRat_le (h : 400 + n.log2 < k) :
    2 * (⟨n, .negSucc k⟩ : Decimal).toRat ≤ magnitude 1 := by
  have hnat : 2 * n * unitsPerOne ≤ 10 ^ (k + 1) :=
    calc 2 * n * unitsPerOne = n * (2 * unitsPerOne) := by ring
      _ = n * 2 ^ 1075 := congrArg (n * ·) (by decide +kernel)
      _ ≤ 2 ^ (n.log2 + 1) * 2 ^ 1075 := Nat.mul_le_mul_right _ Nat.lt_log2_self.le
      _ = 2 ^ (n.log2 + 1 + 1075) := (pow_add 2 _ _).symm
      _ ≤ 2 ^ (3 * (k + 1)) := Nat.pow_le_pow_right two_pos (by omega)
      _ = 8 ^ (k + 1) := pow_mul 2 3 (k + 1)
      _ ≤ 10 ^ (k + 1) := Nat.pow_le_pow_left (by decide) (k + 1)
  have hunit : units 1 = 1 := by decide +kernel
  rw [toRat_negSucc, magnitude, hunit, ← mul_div_assoc, div_le_div_iff₀ (by positivity)
    cast_unitsPerOne_pos, Nat.cast_one, one_mul]
  exact_mod_cast hnat

lemma wholeRank_le_nearestRank {m den : ℕ} (hden : 0 < den) (h : m * den ≤ n) :
    wholeRank m ≤ nearestRank (n * unitsPerOne) den := by
  rw [wholeRank, ← nearestRank_mul_mul hden, Nat.one_mul]
  refine nearestRank_mono ?_ den
  rw [Nat.mul_right_comm]
  exact Nat.mul_le_mul_right _ h

section Read
variable (hn : n ≠ 0) (negative : Bool)
include hn

lemma ofDecimal_natCast (hk : k ≤ 400) :
    ofDecimal negative n k = .signed negative (wholeRank (n * 10 ^ k)) := by
  unfold ofDecimal
  rw [if_neg hn, if_neg (by omega), if_neg (by omega)]
  rfl

lemma ofDecimal_of_large (hk : 400 < k) :
    ofDecimal negative n k = .signed negative infinityRank := by
  unfold ofDecimal
  rw [if_neg hn, if_pos (by omega)]

lemma ofDecimal_negSucc (hk : k ≤ 400 + n.log2) :
    ofDecimal negative n (.negSucc k) =
      .signed negative (nearestRank (n * unitsPerOne) (10 ^ (k + 1))) := by
  unfold ofDecimal
  rw [if_neg hn, if_neg (by omega), if_neg (by omega)]
  rfl

lemma ofDecimal_of_small (hk : 400 + n.log2 < k) :
    ofDecimal negative n (.negSucc k) = .signed negative 0 := by
  unfold ofDecimal
  rw [if_neg hn, if_neg (by omega), if_pos (by omega)]

end Read

/-- What the magnitude of a decimal has to satisfy: it is the nearest one, finite unless the decimal
overflows, and beyond that of every whole number that the decimal is beyond. -/
structure IsRankOf (d : Decimal) (rank : ℕ) : Prop where
  read : ∀ negative, ofDecimal negative d.digits d.exponent = .signed negative rank
  nearest : IsNearestRank d.toRat rank
  finite : rank < infinityRank ↔ ¬d.Overflows
  mono : ∀ m : ℕ, (m : ℚ) ≤ d.toRat → wholeRank m ≤ rank

/-- Up to the middle between zero and the smallest magnitude nothing is left. -/
lemma isRankOf_zero {d : Decimal} (hd : 2 * d.toRat ≤ magnitude 1)
    (hread : ∀ negative, ofDecimal negative d.digits d.exponent = .signed negative 0) :
    IsRankOf d 0 := by
  have hone : d.toRat < 1 := by
    have hunit : magnitude 1 ≤ 1 := by
      rw [magnitude, div_le_one cast_unitsPerOne_pos]
      exact_mod_cast (by decide +kernel : units 1 ≤ unitsPerOne)
    linarith
  refine ⟨hread, .of_neighbours (Nat.zero_le _) (fun _ => ?_) (by simp), ?_, fun m hm => ?_⟩
  · rw [magnitude_zero, zero_add]
    exact hd.lt_or_eq.imp_right fun h => ⟨h, by decide⟩
  · refine iff_of_true (by decide) (not_le.mpr (hone.trans_le ?_))
    exact_mod_cast limit_pos
  · obtain rfl : m = 0 := by
      have hlt : (m : ℚ) < (1 : ℕ) := by simpa using hm.trans_lt hone
      exact Nat.lt_one_iff.mp (Nat.cast_lt.mp hlt)
    decide

lemma isRankOf_infinityRank {d : Decimal} (hd : d.Overflows)
    (hread : ∀ negative, ofDecimal negative d.digits d.exponent = .signed negative infinityRank) :
    IsRankOf d infinityRank where
  read := hread
  nearest := isNearestRank_infinityRank hd
  finite := iff_of_false (lt_irrefl _) (not_not.mpr hd)
  mono _ _ := min_le_left _ _

lemma exists_rank_natCast (n k : ℕ) : ∃ rank, IsRankOf ⟨n, k⟩ rank := by
  have hle (m : ℕ) : (m : ℚ) ≤ (⟨n, k⟩ : Decimal).toRat ↔ m ≤ n * 10 ^ k := by
    rw [toRat_natCast, Nat.cast_le]
  rcases eq_or_ne n 0 with rfl | hn
  · exact ⟨0, isRankOf_zero (by simp [toRat, magnitude_nonneg]) fun _ => if_pos rfl⟩
  rcases lt_or_ge 400 k with hk | hk
  · refine ⟨infinityRank, isRankOf_infinityRank ?_ (ofDecimal_of_large hn · hk)⟩
    rw [Overflows, hle]
    exact (limit_le_ten_pow hk).trans (Nat.le_mul_of_pos_left _ (Nat.pos_of_ne_zero hn))
  · refine ⟨_, (ofDecimal_natCast hn · hk), ?_, ?_, fun m hm => wholeRank_mono ((hle m).mp hm)⟩
    · rw [toRat_natCast]
      exact isNearestRank_wholeRank _
    · rw [wholeRank_lt_infinityRank, Overflows, hle, not_le]

lemma exists_rank_negSucc (n k : ℕ) : ∃ rank, IsRankOf ⟨n, .negSucc k⟩ rank := by
  rcases eq_or_ne n 0 with rfl | hn
  · exact ⟨0, isRankOf_zero (by simp [toRat, magnitude_nonneg]) fun _ => if_pos rfl⟩
  rcases lt_or_ge (400 + n.log2) k with hk | hk
  · exact ⟨0, isRankOf_zero (two_mul_toRat_le hk) (ofDecimal_of_small hn · hk)⟩
  · refine ⟨_, (ofDecimal_negSucc hn · hk), ?_, ?_, fun m hm =>
      wholeRank_le_nearestRank (by positivity) (natCast_le_toRat_negSucc.mp hm)⟩
    · have h := isNearestRank_nearestRank (n * unitsPerOne)
        (show 0 < 10 ^ (k + 1) by positivity)
      rwa [Nat.cast_mul, mul_div_mul_right _ _ cast_unitsPerOne_pos.ne', ← toRat_negSucc] at h
    · rw [nearestRank_lt_infinityRank (by positivity), Overflows, natCast_le_toRat_negSucc, not_le,
        ← Nat.mul_assoc, Nat.mul_lt_mul_right unitsPerOne_pos, Nat.mul_comm limit]

/-- Every decimal has a magnitude. -/
lemma exists_rank (d : Decimal) : ∃ rank, IsRankOf d rank := by
  obtain ⟨n, e⟩ := d
  cases e with
  | ofNat k => exact exists_rank_natCast n k
  | negSucc k => exact exists_rank_negSucc n k

end Range

section Notation

/-- The decimal that a numeral stands for, but for its sign. -/
def written? (s : Text) : Option Decimal := do
  let (whole, s) := (splitSign s).2.span Char.isDigit
  let (fraction, s) := splitFraction s
  if (whole ++ fraction).isEmpty then none
  let exponent ← readExponent? s
  return ⟨valueOfDigits (whole ++ fraction), exponent - fraction.length⟩

lemma readNumeral?_eq (s : Text) : readNumeral? s =
    (written? s).map fun d => ofDecimal (splitSign s).1 d.digits d.exponent := by
  unfold readNumeral? written?
  simp only
  split
  · rfl
  · cases readExponent? (splitFraction ((splitSign s).2.span Char.isDigit).2).2 <;> rfl

/-- The characters of a numeral. -/
def isNumeralChar (c : Char) : Bool := c.isDigit || c ∈ ['.', '-', '+', 'e', 'E']

lemma all_splitSign {s : Text} (h : (splitSign s).2.all isNumeralChar = true) :
    s.all isNumeralChar = true := by
  unfold splitSign at h
  split at h
  · simpa [isNumeralChar] using h
  · simpa [isNumeralChar] using h
  · exact h

lemma all_of_isDigit {s : Text} (h : s.all Char.isDigit = true) : s.all isNumeralChar = true := by
  rw [List.all_eq_true] at h ⊢
  intro c hc
  rw [isNumeralChar, h c hc, Bool.true_or]

lemma all_span {s : Text} (h : (s.span Char.isDigit).2.all isNumeralChar = true) :
    s.all isNumeralChar = true := by
  rw [List.span_eq_takeWhile_dropWhile] at h
  rw [← List.takeWhile_append_dropWhile (p := Char.isDigit) (l := s), List.all_append,
    all_of_isDigit List.all_takeWhile, Bool.true_and]
  exact h

lemma all_splitFraction {s : Text} (h : (splitFraction s).2.all isNumeralChar = true) :
    s.all isNumeralChar = true := by
  unfold splitFraction at h
  split at h
  · simpa [isNumeralChar] using all_span h
  · exact h

lemma all_of_readExponent? {s : Text} {e : ℤ} (h : readExponent? s = some e) :
    s.all isNumeralChar = true := by
  unfold readExponent? at h
  split at h
  · rfl
  · rename_i c s
    split at h
    · rename_i hc
      split at h
      rename_i negative digits hsign
      split at h
      · rename_i hdigits
        have hword : digits.all Char.isDigit = true := (Bool.and_eq_true_iff.mp hdigits).2
        have hs : s.all isNumeralChar = true := all_splitSign (by
          rw [hsign]
          exact all_of_isDigit hword)
        rcases Bool.or_eq_true_iff.mp hc with hc | hc
        · simpa [isNumeralChar, beq_iff_eq.mp hc] using hs
        · simpa [isNumeralChar, beq_iff_eq.mp hc] using hs
      · cases h
    · cases h

lemma all_of_written? {s : Text} {d : Decimal} (h : written? s = some d) :
    s.all isNumeralChar = true := by
  unfold written? at h
  simp only at h
  split at h
  · cases h
  · obtain ⟨e, he, -⟩ := Option.bind_eq_some_iff.mp h
    exact all_splitSign (all_span (all_splitFraction (all_of_readExponent? he)))

end Notation

end Decimal
end Stencil
