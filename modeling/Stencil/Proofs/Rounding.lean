import Stencil.Binary64
import Mathlib

/-! Rounding to the binary64 format. Main statements: rounding keeps the order, the magnitudes that
stay finite are those below the middle between the largest one and the next power of two, and a
whole number is rounded to 53 significant bits. -/
namespace Stencil.Binary64

section Quotient
variable {num num' den den' m : ℕ}

lemma roundHalfEven_le (num den : ℕ) : roundHalfEven num den ≤ num / den + 1 := by
  unfold roundHalfEven
  dsimp only
  split <;> omega

lemma le_roundHalfEven (num den : ℕ) : num / den ≤ roundHalfEven num den := by
  unfold roundHalfEven
  dsimp only
  split <;> omega

@[simp] lemma roundHalfEven_one (n : ℕ) : roundHalfEven n 1 = n := by
  simp [roundHalfEven, Nat.mod_one]

lemma roundHalfEven_mono (h : num ≤ num') (den : ℕ) :
    roundHalfEven num den ≤ roundHalfEven num' den := by
  have hdiv := Nat.div_le_div_right (c := den) h
  rcases hdiv.lt_or_eq with hlt | heq
  · have := roundHalfEven_le num den
    have := le_roundHalfEven num' den
    omega
  · -- of two numerators with the same whole part the larger one has the larger remainder
    have hmod : num % den ≤ num' % den := by
      have hnum := Nat.div_add_mod num den
      have hnum' := Nat.div_add_mod num' den
      rw [heq] at hnum
      omega
    unfold roundHalfEven
    simp only [heq, Bool.or_eq_true, Bool.and_eq_true, decide_eq_true_eq, beq_iff_eq]
    split_ifs <;> omega

lemma roundHalfEven_mul_mul {c : ℕ} (hc : 0 < c) (num den : ℕ) :
    roundHalfEven (num * c) (den * c) = roundHalfEven num den := by
  have htwice : 2 * (num % den * c) = 2 * (num % den) * c := (Nat.mul_assoc _ _ _).symm
  simp only [roundHalfEven, Nat.mul_div_mul_right num den hc, Nat.mul_mod_mul_right, htwice,
    Nat.mul_lt_mul_right hc]
  congr 1
  simp [Nat.mul_left_inj hc.ne', beq_eq_decide]

/-- An even number is reached from the half below it on. -/
lemma roundHalfEven_lt_iff (hden : 0 < den) (hm : m % 2 = 0) (hpos : 0 < m) :
    roundHalfEven num den < m ↔ 2 * num < (2 * m - 1) * den := by
  obtain ⟨k, rfl⟩ : ∃ k, m = k + 1 := ⟨m - 1, by omega⟩
  have hnum := Nat.div_add_mod num den
  have hrem := Nat.mod_lt num hden
  have hdouble : (2 * (k + 1) - 1) * den = 2 * (den * k) + den := by
    rw [show 2 * (k + 1) - 1 = 2 * k + 1 by omega]
    ring
  rw [hdouble]
  rcases lt_trichotomy (num / den) k with hlt | heq | hgt
  · have hround := roundHalfEven_le num den
    have hmul : den * (num / den + 1) ≤ den * k := Nat.mul_le_mul_left den hlt
    rw [Nat.mul_succ] at hmul
    refine iff_of_true (by omega) (by omega)
  · rw [heq] at hnum
    simp only [roundHalfEven, heq, Bool.or_eq_true, Bool.and_eq_true, decide_eq_true_eq,
      beq_iff_eq]
    split_ifs <;> omega
  · have hround := le_roundHalfEven num den
    have hmul : den * (k + 1) ≤ den * (num / den) := Nat.mul_le_mul_left den hgt
    rw [Nat.mul_succ] at hmul
    refine iff_of_false (by omega) (by omega)

end Quotient

section Rank
variable {num num' den den' : ℕ}

lemma binade_eq : binade = 2 ^ 52 := rfl

lemma binade_pos : 0 < binade := by decide

/-- The power of two that the significand of a rounded quotient is counted in. -/
def shift (num den : ℕ) : ℕ := Nat.log2 (num / den) - 52

/-- The significand of a rounded quotient. -/
def mantissa (num den : ℕ) : ℕ := roundHalfEven num (den <<< shift num den)

/-- The rank of a rounded quotient in a format whose powers never end. -/
def openRank (num den : ℕ) : ℕ := shift num den * binade + mantissa num den

lemma nearestRank_eq (num den : ℕ) :
    nearestRank num den = min infinityRank (openRank num den) := rfl

lemma div_lt_two_pow (num den : ℕ) : num / den < 2 ^ (53 + shift num den) :=
  Nat.lt_log2_self.trans_le (Nat.pow_le_pow_right two_pos (by unfold shift; omega))

lemma two_pow_le_div (h : 0 < shift num den) : 2 ^ (52 + shift num den) ≤ num / den := by
  have hne : num / den ≠ 0 := by
    intro h0
    rw [shift, h0] at h
    exact absurd h (by decide)
  exact (Nat.le_log2 hne).mp (by unfold shift at h ⊢; omega)

lemma mantissa_le (num den : ℕ) : mantissa num den ≤ 2 * binade := by
  have hlt : num / (den <<< shift num den) < 2 * binade := by
    rw [Nat.shiftLeft_eq, ← Nat.div_div_eq_div_mul, Nat.div_lt_iff_lt_mul (by positivity),
      binade_eq, ← pow_succ', ← pow_add]
    exact div_lt_two_pow num den
  exact (roundHalfEven_le _ _).trans hlt

/-- A significand is written in full unless the quotient is subnormal. -/
lemma binade_le_mantissa (h : 0 < shift num den) : binade ≤ mantissa num den := by
  refine le_trans ?_ (le_roundHalfEven _ _)
  rw [Nat.shiftLeft_eq, ← Nat.div_div_eq_div_mul, Nat.le_div_iff_mul_le (by positivity), binade_eq,
    ← pow_add]
  exact two_pow_le_div h

lemma shift_mono (h : num ≤ num') (den : ℕ) : shift num den ≤ shift num' den := by
  have := Nat.log_mono_right (b := 2) (Nat.div_le_div_right (c := den) h)
  rw [← Nat.log2_eq_log_two, ← Nat.log2_eq_log_two] at this
  unfold shift
  omega

lemma openRank_mono (h : num ≤ num') (den : ℕ) : openRank num den ≤ openRank num' den := by
  unfold openRank
  rcases (shift_mono h den).lt_or_eq with hlt | heq
  · -- the larger quotient has a full significand, and the smaller one at most the next power
    have hle := mantissa_le num den
    have hge := binade_le_mantissa (Nat.zero_lt_of_lt hlt)
    have hmul := Nat.mul_le_mul_right binade (Nat.succ_le_of_lt hlt)
    rw [Nat.succ_mul] at hmul
    omega
  · rw [mantissa, mantissa, heq]
    exact Nat.add_le_add_left (roundHalfEven_mono h _) _

lemma nearestRank_mono (h : num ≤ num') (den : ℕ) : nearestRank num den ≤ nearestRank num' den :=
  min_le_min_left _ (openRank_mono h den)

lemma shift_mul_mul {c : ℕ} (hc : 0 < c) (num den : ℕ) :
    shift (num * c) (den * c) = shift num den := by
  rw [shift, shift, Nat.mul_div_mul_right num den hc]

lemma nearestRank_mul_mul {c : ℕ} (hc : 0 < c) (num den : ℕ) :
    nearestRank (num * c) (den * c) = nearestRank num den := by
  have hden : (den * c) <<< shift num den = (den <<< shift num den) * c := by
    rw [Nat.shiftLeft_eq, Nat.shiftLeft_eq, Nat.mul_right_comm]
  rw [nearestRank_eq, nearestRank_eq, openRank, openRank, mantissa, mantissa, shift_mul_mul hc,
    hden, roundHalfEven_mul_mul hc]

/-- A quotient is rounded below a power of two when it is smaller than the middle between this
power and the largest magnitude before it. -/
lemma openRank_lt_iff (hden : 0 < den) (k : ℕ) :
    openRank num den < (k + 3) * binade ↔ num < den * ((2 ^ 54 - 1) * 2 ^ k) := by
  have hmantissa := mantissa_le num den
  have hpos := binade_pos
  have hsum : (k + 3) * binade = (k + 1) * binade + 2 * binade := by ring
  rw [openRank, hsum, Nat.mul_comm den]
  rcases lt_trichotomy (shift num den) (k + 1) with hlt | heq | hgt
  · have hmul := Nat.mul_le_mul_right binade (Nat.succ_le_of_lt hlt)
    rw [Nat.succ_mul] at hmul
    refine iff_of_true (by omega) ((Nat.div_lt_iff_lt_mul hden).mp ?_)
    calc num / den < 2 ^ (53 + shift num den) := div_lt_two_pow num den
      _ ≤ 2 ^ (53 + k) := Nat.pow_le_pow_right two_pos (by omega)
      _ = 2 ^ 53 * 2 ^ k := pow_add 2 53 k
      _ ≤ (2 ^ 54 - 1) * 2 ^ k := Nat.mul_le_mul_right _ (by decide)
  · -- the last power: the significand must not reach its double
    have hround : roundHalfEven num (den <<< (k + 1)) < 2 * binade ↔
        2 * num < (2 * (2 * binade) - 1) * den <<< (k + 1) :=
      roundHalfEven_lt_iff (by rw [Nat.shiftLeft_eq]; positivity) (by decide) (by decide)
    have htwice : (2 * (2 * binade) - 1) * den <<< (k + 1) = 2 * ((2 ^ 54 - 1) * 2 ^ k * den) := by
      rw [Nat.shiftLeft_eq, show 2 * (2 * binade) - 1 = 2 ^ 54 - 1 by decide, pow_succ]
      ring
    rw [htwice, Nat.mul_lt_mul_left two_pos] at hround
    rw [mantissa, heq, ← hround]
    omega
  · have hmul := Nat.mul_le_mul_right binade (Nat.succ_le_of_lt hgt)
    rw [Nat.succ_mul] at hmul
    have hfull := binade_le_mantissa (Nat.zero_lt_of_lt hgt)
    refine iff_of_false (by omega) (not_lt.mpr ((Nat.le_div_iff_mul_le hden).mp ?_))
    calc (2 ^ 54 - 1) * 2 ^ k ≤ 2 ^ 54 * 2 ^ k := Nat.mul_le_mul_right _ (by decide)
      _ = 2 ^ (54 + k) := (pow_add 2 54 k).symm
      _ ≤ 2 ^ (52 + shift num den) := Nat.pow_le_pow_right two_pos (by omega)
      _ ≤ num / den := two_pow_le_div (Nat.zero_lt_of_lt hgt)

/-- The first whole number that is too large for the format, which is the middle between the
largest finite magnitude and `2 ^ 1024`. -/
def limit : ℕ := (2 ^ 54 - 1) <<< 970

lemma two_pow_le_shiftLeft {a j k l : ℕ} (ha : 2 ^ j ≤ a) (h : k ≤ j + l) : 2 ^ k ≤ a <<< l := by
  rw [Nat.shiftLeft_eq]
  calc 2 ^ k ≤ 2 ^ (j + l) := Nat.pow_le_pow_right two_pos h
    _ = 2 ^ j * 2 ^ l := pow_add 2 j l
    _ ≤ a * 2 ^ l := Nat.mul_le_mul_right _ ha

lemma shiftLeft_lt_two_pow {a j k l : ℕ} (ha : a < 2 ^ j) (h : j + l ≤ k) : a <<< l < 2 ^ k := by
  rw [Nat.shiftLeft_eq]
  calc a * 2 ^ l < 2 ^ j * 2 ^ l := Nat.mul_lt_mul_of_pos_right ha (Nat.two_pow_pos l)
    _ = 2 ^ (j + l) := (pow_add 2 j l).symm
    _ ≤ 2 ^ k := Nat.pow_le_pow_right two_pos h

lemma two_pow_le_limit {k : ℕ} (h : k ≤ 1023) : 2 ^ k ≤ limit :=
  two_pow_le_shiftLeft (j := 53) (by decide) h

lemma limit_lt_two_pow {k : ℕ} (h : 1024 ≤ k) : limit < 2 ^ k :=
  shiftLeft_lt_two_pow (j := 54) (by decide) h

lemma limit_pos : 0 < limit := (Nat.two_pow_pos 0).trans_le (two_pow_le_limit (Nat.zero_le 1023))

lemma unitsPerOne_pos : 0 < unitsPerOne := by
  rw [unitsPerOne, Nat.shiftLeft_eq]
  positivity

lemma shiftLeft_mul_shiftLeft (a k l : ℕ) : a <<< k * 1 <<< l = a * 2 ^ (k + l) := by
  rw [Nat.shiftLeft_eq, Nat.one_shiftLeft, Nat.mul_assoc, ← pow_add]

lemma nearestRank_lt_infinityRank (hden : 0 < den) :
    nearestRank num den < infinityRank ↔ num < den * (limit * unitsPerOne) := by
  rw [nearestRank_eq, min_lt_iff, or_iff_right (lt_irrefl _), limit, unitsPerOne,
    shiftLeft_mul_shiftLeft]
  exact openRank_lt_iff hden (970 + 1074)

lemma wholeRank_lt_infinityRank {n : ℕ} : wholeRank n < infinityRank ↔ n < limit := by
  rw [wholeRank, nearestRank_lt_infinityRank one_pos, Nat.one_mul,
    Nat.mul_lt_mul_right unitsPerOne_pos]

lemma wholeRank_mono : Monotone wholeRank := fun _ _ h =>
  nearestRank_mono (Nat.mul_le_mul_right _ h) 1

end Rank

section Units

/-- The ranks by the power of two their significand is counted in. The largest significand of a
power is the smallest one of the next. -/
lemma units_add {e m : ℕ} (he : e = 0 ∨ binade ≤ m) (hm : m ≤ 2 * binade) :
    units (e * binade + m) = m <<< e := by
  have hpos := binade_pos
  rcases hm.lt_or_eq with hlt | rfl
  · rcases lt_or_ge m binade with hsmall | hfull
    · obtain rfl : e = 0 := he.resolve_right hsmall.not_ge
      have hdiv : m / binade = 0 := Nat.div_eq_of_lt hsmall
      rw [Nat.zero_mul, Nat.zero_add, units, significand, if_pos hsmall, scale, hdiv]
    · obtain ⟨k, rfl⟩ := Nat.exists_eq_add_of_le hfull
      have hk : k < binade := by omega
      have hrank : e * binade + (binade + k) = k + (e + 1) * binade := by ring
      have hdiv : (k + (e + 1) * binade) / binade = e + 1 := by
        rw [Nat.add_mul_div_right _ _ hpos, Nat.div_eq_of_lt hk, Nat.zero_add]
      have hmod : (k + (e + 1) * binade) % binade = k := by
        rw [Nat.add_mul_mod_self_right, Nat.mod_eq_of_lt hk]
      have hlarge : ¬k + (e + 1) * binade < binade := by
        rw [Nat.succ_mul]
        omega
      rw [hrank, units, significand, if_neg hlarge, hmod, scale, hdiv, Nat.add_sub_cancel]
  · have hrank : e * binade + 2 * binade = 0 + (e + 2) * binade := by ring
    have hdiv : (0 + (e + 2) * binade) / binade = e + 2 := by
      rw [Nat.add_mul_div_right _ _ hpos, Nat.zero_div, Nat.zero_add]
    have hmod : (0 + (e + 2) * binade) % binade = 0 := by
      rw [Nat.add_mul_mod_self_right, Nat.zero_mod]
    have hlarge : ¬0 + (e + 2) * binade < binade := by
      rw [Nat.add_mul]
      omega
    rw [hrank, units, significand, if_neg hlarge, hmod, scale, hdiv, Nat.add_zero,
      show e + 2 - 1 = e + 1 by omega, Nat.shiftLeft_eq, Nat.shiftLeft_eq, pow_succ]
    ring

lemma exists_of_rank (rank : ℕ) :
    ∃ e m, rank = e * binade + m ∧ (e = 0 ∨ binade ≤ m) ∧ m < 2 * binade := by
  have hpos := binade_pos
  have hdiv := Nat.div_add_mod' rank binade
  have hmod := Nat.mod_lt rank hpos
  rcases hq : rank / binade with _ | q
  · exact ⟨0, rank % binade, by rw [hq] at hdiv; exact hdiv.symm, .inl rfl, by omega⟩
  · refine ⟨q, binade + rank % binade, ?_, .inr (by omega), by omega⟩
    rw [hq, Nat.succ_mul] at hdiv
    omega

lemma units_strictMono : StrictMono units := by
  refine strictMono_nat_of_lt_succ fun rank => ?_
  obtain ⟨e, m, rfl, he, hm⟩ := exists_of_rank rank
  rw [Nat.add_assoc, units_add he hm.le, units_add (by omega) hm, Nat.shiftLeft_eq,
    Nat.shiftLeft_eq]
  exact Nat.mul_lt_mul_of_pos_right m.lt_succ_self (Nat.two_pow_pos e)

@[simp] lemma units_zero : units 0 = 0 := by decide

lemma units_openRank (num den : ℕ) :
    units (openRank num den) = mantissa num den <<< shift num den :=
  units_add (Nat.eq_zero_or_pos _ |>.imp_right binade_le_mantissa) (mantissa_le num den)

end Units

section Whole

/-- The number nearest to a natural number among those with at most 53 significant bits. -/
def nearestNat (n : ℕ) : ℕ := mantissa n 1 <<< shift n 1

lemma nearestNat_mono : Monotone nearestNat := by
  intro n m h
  rw [nearestNat, nearestNat, ← units_openRank, ← units_openRank]
  exact units_strictMono.monotone (openRank_mono h 1)

lemma nearestNat_of_lt {n : ℕ} (h : n < 2 ^ 53) : nearestNat n = n := by
  have hshift : shift n 1 = 0 := by
    rcases Nat.eq_zero_or_pos n with rfl | hn
    · rfl
    · have := (Nat.log2_lt hn.ne').mpr h
      rw [shift, Nat.div_one]
      omega
  rw [nearestNat, mantissa, hshift, Nat.shiftLeft_zero, Nat.shiftLeft_zero, roundHalfEven_one]

lemma nearestNat_of_le {n : ℕ} (h : n ≤ 2 ^ 53) : nearestNat n = n := by
  rcases h.lt_or_eq with hlt | rfl
  · exact nearestNat_of_lt hlt
  · decide

lemma log2_mul_two_pow {n : ℕ} (hn : n ≠ 0) (k : ℕ) : Nat.log2 (n * 2 ^ k) = Nat.log2 n + k := by
  have hle := Nat.le_log_of_pow_le Nat.one_lt_two
    (Nat.le_mul_of_pos_left (2 ^ k) (Nat.pos_of_ne_zero hn))
  have hdiv := Nat.log_div_base_pow 2 (n * 2 ^ k) k
  rw [Nat.mul_div_cancel _ (Nat.two_pow_pos k)] at hdiv
  rw [Nat.log2_eq_log_two, Nat.log2_eq_log_two]
  omega

/-- The significand of a whole number does not depend on the unit it is counted in. -/
lemma mantissa_shiftLeft_shift (n k : ℕ) :
    mantissa (n * 1 <<< k) 1 <<< shift (n * 1 <<< k) 1 = nearestNat n * 1 <<< k := by
  rw [Nat.one_shiftLeft]
  rcases Nat.eq_zero_or_pos n with rfl | hn
  · simp [mantissa, shift, nearestNat]
  have hlog := log2_mul_two_pow hn.ne' k
  rcases lt_or_ge n (2 ^ 53) with hsmall | hlarge
  · -- the unit is fine enough for the number itself
    have hlt := (Nat.log2_lt hn.ne').mpr hsmall
    obtain ⟨j, hj⟩ : ∃ j, k = j + shift (n * 2 ^ k) 1 := Nat.exists_eq_add_of_le' (by
      rw [shift, Nat.div_one]
      omega)
    have hnum : n * 2 ^ k = n * 2 ^ j * 2 ^ shift (n * 2 ^ k) 1 := by
      rw [Nat.mul_assoc, ← pow_add, ← hj]
    have hmantissa : mantissa (n * 2 ^ k) 1 = n * 2 ^ j := by
      have := roundHalfEven_mul_mul (Nat.two_pow_pos (shift (n * 2 ^ k) 1)) (n * 2 ^ j) 1
      rwa [← hnum, roundHalfEven_one, ← Nat.shiftLeft_eq 1] at this
    rw [hmantissa, nearestNat_of_lt hsmall, Nat.shiftLeft_eq]
    exact hnum.symm
  · have hge := (Nat.le_log2 hn.ne').mpr hlarge
    have hshift : shift (n * 2 ^ k) 1 = shift n 1 + k := by
      rw [shift, shift, Nat.div_one, Nat.div_one]
      omega
    have hden : 1 <<< shift (n * 2 ^ k) 1 = 1 <<< shift n 1 * 2 ^ k := by
      rw [hshift, Nat.one_shiftLeft, Nat.one_shiftLeft, pow_add]
    have hmantissa : mantissa (n * 2 ^ k) 1 = mantissa n 1 := by
      rw [mantissa, hden, roundHalfEven_mul_mul (Nat.two_pow_pos k), mantissa]
    rw [hmantissa, hshift, nearestNat, Nat.shiftLeft_eq, Nat.shiftLeft_eq, pow_add, Nat.mul_assoc]

lemma units_wholeRank {n : ℕ} (h : n < limit) :
    units (wholeRank n) = nearestNat n * unitsPerOne := by
  have hopen : wholeRank n = openRank (n * unitsPerOne) 1 := by
    have := wholeRank_lt_infinityRank.mpr h
    rw [wholeRank, nearestRank_eq] at this ⊢
    omega
  rw [hopen, units_openRank]
  exact mantissa_shiftLeft_shift n 1074

end Whole

section Integer

/-- A function of magnitudes, continued to the other side of zero. -/
def mirrored (f : ℕ → ℕ) (z : ℤ) : ℤ := if z < 0 then -(f z.natAbs : ℤ) else f z.natAbs

/-- The number nearest to an integer among those with at most 53 significant bits. -/
def nearestInt (z : ℤ) : ℤ := mirrored nearestNat z

section Mirrored
variable {f : ℕ → ℕ}

lemma mirrored_mono (hf : Monotone f) : Monotone (mirrored f) := by
  intro x y hxy
  have hpos : 0 ≤ x → f x.natAbs ≤ f y.natAbs := fun h => hf (by omega)
  have hneg : y < 0 → f y.natAbs ≤ f x.natAbs := fun h => hf (by omega)
  unfold mirrored
  split_ifs <;> omega

lemma mirrored_strictMono (hf : StrictMono f) : StrictMono (mirrored f) := by
  intro x y hxy
  have hzero : x.natAbs ≠ 0 → f 0 < f x.natAbs := fun h => hf (Nat.pos_of_ne_zero h)
  have hpos : 0 ≤ x → f x.natAbs < f y.natAbs := fun h => hf (by omega)
  have hneg : y < 0 → f y.natAbs < f x.natAbs := fun h => hf (by omega)
  unfold mirrored
  split_ifs <;> omega

lemma mirrored_natCast (n : ℕ) : mirrored f n = f n := by simp [mirrored]

lemma mirrored_neg (hf : f 0 = 0) (n : ℕ) : mirrored f (-n) = -f n := by
  rcases Nat.eq_zero_or_pos n with rfl | hn
  · simp [mirrored, hf]
  · simp [mirrored, hn]

lemma mirrored_mirrored (hf : f 0 = 0) (g : ℕ → ℕ) (z : ℤ) :
    mirrored f (mirrored g z) = mirrored (f ∘ g) z := by
  by_cases hz : z < 0
  · rw [mirrored.eq_def g, mirrored.eq_def (f ∘ g), if_pos hz, if_pos hz, mirrored_neg hf]
    rfl
  · rw [mirrored.eq_def g, mirrored.eq_def (f ∘ g), if_neg hz, if_neg hz, mirrored_natCast]
    rfl

end Mirrored

variable {a b : ℤ}

lemma place?_ofInt (z : ℤ) : (ofInt z).place? = some (mirrored wholeRank z) := by
  simp [ofInt, place?, mirrored]

/-- The place of an integer, counted in units, is that of the number nearest to it. -/
lemma mirrored_units_wholeRank (ha : a.natAbs < limit) :
    mirrored units (mirrored wholeRank a) = nearestInt a * unitsPerOne := by
  rw [mirrored_mirrored units_zero, mirrored, Function.comp_apply, units_wholeRank ha, nearestInt,
    mirrored]
  split_ifs <;> simp

/-- Integers are ordered as the numbers nearest to them. -/
lemma order?_ofInt (ha : a.natAbs < limit) (hb : b.natAbs < limit) :
    (ofInt a).order? (ofInt b) = some (compare (nearestInt a) (nearestInt b)) := by
  have hpos : (0 : ℤ) < unitsPerOne := by exact_mod_cast unitsPerOne_pos
  have hmono := mirrored_strictMono units_strictMono
  rw [order?, place?_ofInt, place?_ofInt]
  refine congrArg some ?_
  rcases lt_trichotomy (nearestInt a) (nearestInt b) with h | h | h
  · rw [compare_lt_iff_lt.mpr h, compare_lt_iff_lt, ← hmono.lt_iff_lt, mirrored_units_wholeRank ha,
      mirrored_units_wholeRank hb]
    exact Int.mul_lt_mul_of_pos_right h hpos
  · rw [compare_eq_iff_eq.mpr h, compare_eq_iff_eq, ← hmono.injective.eq_iff,
      mirrored_units_wholeRank ha, mirrored_units_wholeRank hb, h]
  · rw [compare_gt_iff_gt.mpr h, compare_gt_iff_gt, ← hmono.lt_iff_lt,
      mirrored_units_wholeRank ha, mirrored_units_wholeRank hb]
    exact Int.mul_lt_mul_of_pos_right h hpos

lemma nearestInt_mono : Monotone nearestInt := mirrored_mono nearestNat_mono

lemma nearestInt_of_le (h : a.natAbs ≤ 2 ^ 53) : nearestInt a = a := by
  rw [nearestInt, mirrored, nearestNat_of_le h]
  split_ifs <;> omega

end Integer

end Stencil.Binary64
