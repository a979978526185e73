import Stencil.Proofs.Rounding

/-! What rounding to the binary64 format is to achieve, said by distances: the magnitude of the
format that is nearest to a number, and of two that are equally near the one of even rank. Main
statements: a number has one nearest magnitude, a quotient is rounded to it, and the numbers of the
format are ordered as the rationals that they stand for. -/
namespace Stencil.Binary64

/-- The number that a rank stands for. Infinity takes the place of the power of two behind the
largest finite magnitude. -/
def magnitude (rank : ℕ) : ℚ := units rank / unitsPerOne

structure IsNearestRank (q : ℚ) (rank : ℕ) : Prop where
  le : rank ≤ infinityRank
  nearest : ∀ other ≤ infinityRank, |magnitude rank - q| ≤ |magnitude other - q|
  even : ∀ other ≤ infinityRank, other ≠ rank → |magnitude rank - q| = |magnitude other - q| →
    Even rank

section Magnitude

lemma cast_unitsPerOne_pos : (0 : ℚ) < unitsPerOne := by exact_mod_cast unitsPerOne_pos

lemma magnitude_strictMono : StrictMono magnitude := fun a b h => by
  have hunits : (units a : ℚ) < units b := by exact_mod_cast units_strictMono h
  exact div_lt_div_of_pos_right hunits cast_unitsPerOne_pos

@[simp] lemma magnitude_zero : magnitude 0 = 0 := by simp [magnitude]

lemma magnitude_nonneg (rank : ℕ) : 0 ≤ magnitude rank := by
  rw [← magnitude_zero]
  exact magnitude_strictMono.monotone (Nat.zero_le rank)

end Magnitude

section Middle
variable {a b q : ℚ} (h : a < b)
include h

/-- Beyond the middle of two numbers the larger one is nearer. -/
lemma abs_sub_lt_iff_middle : |b - q| < |a - q| ↔ a + b < 2 * q := by
  rw [← sq_lt_sq]
  constructor <;> intro hq <;> nlinarith

lemma abs_sub_lt_iff_middle' : |a - q| < |b - q| ↔ 2 * q < a + b := by
  rw [← sq_lt_sq]
  constructor <;> intro hq <;> nlinarith

lemma abs_sub_eq_iff_middle : |b - q| = |a - q| ↔ a + b = 2 * q := by
  have hright := abs_sub_lt_iff_middle (q := q) h
  have hleft := abs_sub_lt_iff_middle' (q := q) h
  rw [← not_iff_not, ← Ne, ← Ne, ne_iff_lt_or_gt, ne_iff_lt_or_gt, hright, hleft]

end Middle

namespace IsNearestRank
variable {q : ℚ} {rank : ℕ}

/-- A rank between two nearest ones would be nearer, and next to each other they are not both
even. -/
lemma unique {other : ℕ} (h : IsNearestRank q rank) (h' : IsNearestRank q other) :
    rank = other := by
  wlog hlt : rank < other generalizing rank other
  · rcases (not_lt.mp hlt).lt_or_eq with hgt | heq
    · exact (this h' h hgt).symm
    · exact heq.symm
  have hdist : |magnitude rank - q| = |magnitude other - q| :=
    le_antisymm (h.nearest other h'.le) (h'.nearest rank h.le)
  have heven := h.even other h'.le hlt.ne' hdist
  have heven' := h'.even rank h.le hlt.ne hdist.symm
  have hnext : rank + 1 < other := by
    refine (Nat.succ_le_of_lt hlt).lt_of_ne ?_
    rintro rfl
    exact Nat.even_add_one.mp heven' heven
  have hleft := magnitude_strictMono rank.lt_succ_self
  have hright := magnitude_strictMono hnext
  have hcloser : |magnitude (rank + 1) - q| < |magnitude rank - q| := by
    rw [abs_sub_lt_iff_middle hleft]
    have hmiddle := (abs_sub_eq_iff_middle (magnitude_strictMono hlt)).mp hdist.symm
    linarith
  exact absurd (h.nearest (rank + 1) (hnext.le.trans h'.le)) hcloser.not_ge

/-- It is enough to compare with the two neighbours. -/
lemma of_neighbours (hle : rank ≤ infinityRank)
    (habove : rank < infinityRank → 2 * q < magnitude rank + magnitude (rank + 1) ∨
      2 * q = magnitude rank + magnitude (rank + 1) ∧ Even rank)
    (hbelow : ∀ k, rank = k + 1 → magnitude k + magnitude rank < 2 * q ∨
      magnitude k + magnitude rank = 2 * q ∧ Even rank) : IsNearestRank q rank := by
  have hmono := magnitude_strictMono.monotone
  have hnear (other : ℕ) (hother : other ≤ infinityRank) (hne : other ≠ rank) :
      |magnitude rank - q| ≤ |magnitude other - q| ∧
        (|magnitude rank - q| = |magnitude other - q| → Even rank) := by
    rcases hne.lt_or_gt with hlt | hgt
    · obtain ⟨k, rfl⟩ := Nat.exists_eq_add_of_lt hlt
      have hstep := hmono (Nat.le_add_right other k)
      rw [← not_lt, abs_sub_lt_iff_middle' (magnitude_strictMono hlt),
        abs_sub_eq_iff_middle (magnitude_strictMono hlt)]
      rcases hbelow (other + k) rfl with h | ⟨h, heven⟩
      · exact ⟨by linarith, fun _ => by linarith⟩
      · exact ⟨by linarith, fun _ => heven⟩
    · have hstep := hmono (Nat.succ_le_of_lt hgt)
      rw [← not_lt, abs_sub_lt_iff_middle (magnitude_strictMono hgt), eq_comm,
        abs_sub_eq_iff_middle (magnitude_strictMono hgt)]
      rcases habove (hgt.trans_le hother) with h | ⟨h, heven⟩
      · exact ⟨by linarith, fun _ => by linarith⟩
      · exact ⟨by linarith, fun _ => heven⟩
  refine ⟨hle, fun other hother => ?_, fun other hother hne => (hnear other hother hne).2⟩
  by_cases hne : other = rank
  · rw [hne]
  · exact (hnear other hother hne).1

end IsNearestRank

section Quotient
variable {num den : ℕ}

/-- A quotient lies between the middles on both sides of the whole number it is rounded to, and in
such a middle only if this number is even. -/
lemma roundHalfEven_between (num : ℕ) (hden : 0 < den) :
    let m := roundHalfEven num den
    (2 * num < (2 * m + 1) * den ∨ 2 * num = (2 * m + 1) * den ∧ Even m) ∧
      (2 * m * den < 2 * num + den ∨ 2 * m * den = 2 * num + den ∧ Even m) := by
  have hnum := Nat.div_add_mod num den
  have hrem := Nat.mod_lt num hden
  rw [Nat.mul_comm den] at hnum
  simp only [roundHalfEven, Bool.or_eq_true, Bool.and_eq_true, decide_eq_true_eq, beq_iff_eq,
    Nat.even_iff, Nat.add_mul, Nat.mul_assoc]
  split_ifs with h
  · simp only [Nat.add_mul, Nat.mul_add]
    omega
  · omega

/-- The magnitude behind a rounded quotient is at least one step of the significand away. -/
lemma le_units_openRank_succ (num den : ℕ) :
    (mantissa num den + 1) * 2 ^ shift num den ≤ units (openRank num den + 1) := by
  rcases (mantissa_le num den).lt_or_eq with hlt | heq
  · have hfull := Nat.eq_zero_or_pos (shift num den) |>.imp_right fun h =>
      (binade_le_mantissa h).trans (Nat.le_succ _)
    rw [openRank, Nat.add_assoc, units_add hfull hlt, Nat.shiftLeft_eq]
  · have hrank : openRank num den + 1 = (shift num den + 1) * binade + (binade + 1) := by
      rw [openRank, heq]
      ring
    rw [hrank, units_add (.inr (Nat.le_succ _)) (by decide), heq, Nat.shiftLeft_eq, pow_succ']
    nlinarith [Nat.two_pow_pos (shift num den)]

/-- The magnitude before it is one step away, unless the significand is the smallest of its power:
then nothing was rounded up. -/
lemma units_of_openRank_eq_succ {k : ℕ} (hk : openRank num den = k + 1) :
    (∃ m, mantissa num den = m + 1 ∧ units k = m * 2 ^ shift num den) ∨
      units (openRank num den) ≤ num / den := by
  rcases Nat.eq_zero_or_pos (shift num den) with hzero | hpos
  · left
    rw [openRank, hzero, Nat.zero_mul, Nat.zero_add] at hk
    have hle := mantissa_le num den
    refine ⟨k, hk, ?_⟩
    have hunits := units_add (e := 0) (m := k) (.inl rfl) (by omega)
    rw [Nat.zero_mul, Nat.zero_add, Nat.shiftLeft_zero] at hunits
    rw [hunits, hzero, pow_zero, Nat.mul_one]
  · rcases (binade_le_mantissa hpos).lt_or_eq with hlt | heq
    · left
      obtain ⟨m, hm⟩ := Nat.exists_eq_succ_of_ne_zero (Nat.ne_zero_of_lt hlt)
      have hle := mantissa_le num den
      refine ⟨m, hm, ?_⟩
      obtain rfl : k = shift num den * binade + m := by
        rw [openRank, hm] at hk
        omega
      rw [units_add (.inr (by omega)) (by omega), Nat.shiftLeft_eq]
    · right
      rw [units_openRank, ← heq, Nat.shiftLeft_eq, binade_eq, ← pow_add]
      exact two_pow_le_div hpos

variable (num) (hden : 0 < den)
include hden

/-- Quotients and middles of magnitudes, counted in units. -/
lemma two_mul_lt_iff (a b : ℕ) : 2 * (num / (den * unitsPerOne) : ℚ) < magnitude a + magnitude b ↔
    2 * num < (units a + units b) * den := by
  have hden' : (0 : ℚ) < den := by exact_mod_cast hden
  rw [magnitude, magnitude, ← add_div, ← mul_div_assoc, ← div_div,
    div_lt_div_iff_of_pos_right cast_unitsPerOne_pos, div_lt_iff₀ hden']
  exact_mod_cast Iff.rfl

lemma lt_two_mul_iff (a b : ℕ) : magnitude a + magnitude b < 2 * (num / (den * unitsPerOne) : ℚ) ↔
    (units a + units b) * den < 2 * num := by
  have hden' : (0 : ℚ) < den := by exact_mod_cast hden
  rw [magnitude, magnitude, ← add_div, ← mul_div_assoc, ← div_div,
    div_lt_div_iff_of_pos_right cast_unitsPerOne_pos, lt_div_iff₀ hden']
  exact_mod_cast Iff.rfl

lemma middle_eq_iff (a b : ℕ) : magnitude a + magnitude b = 2 * (num / (den * unitsPerOne) : ℚ) ↔
    (units a + units b) * den = 2 * num := by
  have hlt := two_mul_lt_iff num hden a b
  have hgt := lt_two_mul_iff num hden a b
  rw [← not_iff_not, ← Ne, ← Ne, ne_iff_lt_or_gt, ne_iff_lt_or_gt, hgt, hlt]

omit hden in
lemma even_openRank (h : Even (mantissa num den)) : Even (openRank num den) :=
  ((show Even binade by decide).mul_left _).add h

lemma isNearestRank_openRank (hle : openRank num den ≤ infinityRank) :
    IsNearestRank (num / (den * unitsPerOne)) (openRank num den) := by
  have hscaled : den <<< shift num den = 2 ^ shift num den * den := by
    rw [Nat.shiftLeft_eq, Nat.mul_comm]
  obtain ⟨habove, hbelow⟩ := roundHalfEven_between num
    (show 0 < den <<< shift num den by rw [hscaled]; positivity)
  rw [← mantissa, hscaled, ← Nat.mul_assoc] at habove hbelow
  have hunits : units (openRank num den) = mantissa num den * 2 ^ shift num den := by
    rw [units_openRank, Nat.shiftLeft_eq]
  refine .of_neighbours hle (fun _ => ?_) fun k hk => ?_
  · rw [two_mul_lt_iff num hden, eq_comm, middle_eq_iff num hden, eq_comm]
    have hstep : (2 * mantissa num den + 1) * 2 ^ shift num den * den ≤
        (units (openRank num den) + units (openRank num den + 1)) * den := by
      refine Nat.mul_le_mul_right den ?_
      have hnext := le_units_openRank_succ num den
      rw [hunits]
      linarith
    rcases habove with h | ⟨h, heven⟩
    · exact .inl (h.trans_le hstep)
    · rcases hstep.lt_or_eq with hlt | heq
      · exact .inl (h.trans_lt hlt)
      · exact .inr ⟨h.trans heq, even_openRank num heven⟩
  · rw [lt_two_mul_iff num hden, middle_eq_iff num hden]
    rcases units_of_openRank_eq_succ hk with ⟨m, hm, hprev⟩ | hfloor
    · have hstep : (units k + units (openRank num den)) * den + 2 ^ shift num den * den =
          2 * mantissa num den * 2 ^ shift num den * den := by
        rw [hprev, hunits, hm]
        ring
      rcases hbelow with h | ⟨h, heven⟩
      · exact .inl (by omega)
      · exact .inr ⟨by omega, even_openRank num heven⟩
    · left
      have hprev : units k < units (openRank num den) := units_strictMono (by omega)
      calc (units k + units (openRank num den)) * den
          < 2 * units (openRank num den) * den := Nat.mul_lt_mul_of_pos_right (by omega) hden
        _ ≤ 2 * num := by
          rw [Nat.mul_assoc]
          exact Nat.mul_le_mul_left 2 ((Nat.le_div_iff_mul_le hden).mp hfloor)

omit hden in
/-- What is at least the limit is at least as near to infinity as to any finite magnitude. -/
lemma isNearestRank_infinityRank {q : ℚ} (h : limit ≤ q) : IsNearestRank q infinityRank := by
  refine .of_neighbours le_rfl (fun h => absurd h (lt_irrefl _)) fun k hk => ?_
  have hmiddle : magnitude k + magnitude infinityRank = 2 * limit := by
    have hunits : units k + units infinityRank = 2 * limit * unitsPerOne := by
      obtain rfl : k = infinityRank - 1 := by omega
      decide +kernel
    rw [magnitude, magnitude, ← add_div, div_eq_iff cast_unitsPerOne_pos.ne']
    exact_mod_cast hunits
  rw [hmiddle]
  rcases h.lt_or_eq with hlt | heq
  · exact .inl (by linarith)
  · exact .inr ⟨by rw [heq], by decide⟩

/-- A quotient is rounded to the magnitude nearest to it. -/
theorem isNearestRank_nearestRank :
    IsNearestRank (num / (den * unitsPerOne)) (nearestRank num den) := by
  rw [nearestRank_eq]
  rcases le_or_gt (openRank num den) infinityRank with hle | hgt
  · rw [min_eq_right hle]
    exact isNearestRank_openRank num hden hle
  · rw [min_eq_left hgt.le]
    refine isNearestRank_infinityRank ?_
    have hlarge : ¬num < den * (limit * unitsPerOne) := by
      rw [← nearestRank_lt_infinityRank hden, nearestRank_eq, min_eq_left hgt.le]
      exact lt_irrefl _
    have hden' : (0 : ℚ) < den := by exact_mod_cast hden
    rw [← div_div, le_div_iff₀ cast_unitsPerOne_pos, le_div_iff₀ hden', mul_comm]
    exact_mod_cast not_lt.mp hlarge

end Quotient

lemma isNearestRank_wholeRank (n : ℕ) : IsNearestRank n (wholeRank n) := by
  have h := isNearestRank_nearestRank (n * unitsPerOne) one_pos
  rwa [Nat.cast_mul, Nat.cast_one, one_mul, mul_div_cancel_right₀ _ cast_unitsPerOne_pos.ne'] at h

/-- A magnitude of the format is the nearest one to itself. -/
lemma isNearestRank_magnitude {rank : ℕ} (h : rank ≤ infinityRank) :
    IsNearestRank (magnitude rank) rank where
  le := h
  nearest other _ := by
    rw [sub_self, abs_zero]
    exact abs_nonneg _
  even other _ hne heq := by
    rw [sub_self, abs_zero, eq_comm, abs_eq_zero, sub_eq_zero] at heq
    exact absurd (magnitude_strictMono.injective heq) hne

section Signed
variable {x y : Binary64} {q r : ℚ}

/-- The number of the format that is nearest to `q`. -/
def RoundsTo (q r : ℚ) : Prop :=
  ∃ rank, IsNearestRank |q| rank ∧ r = if q < 0 then -magnitude rank else magnitude rank

lemma RoundsTo.unique {r' : ℚ} (h : RoundsTo q r) (h' : RoundsTo q r') : r = r' := by
  obtain ⟨rank, hrank, rfl⟩ := h
  obtain ⟨rank', hrank', rfl⟩ := h'
  rw [hrank.unique hrank']

/-- A number of the format as a rational. -/
def toRat? : Binary64 → Option ℚ
  | .nan => none
  | .signed negative rank => some (if negative then -magnitude rank else magnitude rank)

lemma roundsTo_iff {negative : Bool} {rank : ℕ} (h : IsNearestRank |q| rank)
    (hneg : q < 0 → negative = true) (hpos : 0 < q → negative = false) :
    RoundsTo q r ↔ (signed negative rank).toRat? = some r := by
  have hr : RoundsTo q (if negative then -magnitude rank else magnitude rank) := by
    refine ⟨rank, h, ?_⟩
    rcases lt_trichotomy q 0 with hlt | rfl | hgt
    · rw [hneg hlt, if_pos rfl, if_pos hlt]
    · obtain rfl : rank = 0 := by
        refine h.unique ?_
        rw [abs_zero, ← magnitude_zero]
        exact isNearestRank_magnitude (Nat.zero_le _)
      simp
    · rw [hpos hgt, if_neg Bool.false_ne_true, if_neg hgt.not_gt]
  rw [toRat?, Option.some.injEq]
  exact ⟨fun h' => hr.unique h', fun heq => heq ▸ hr⟩

/-- An integer is read as the number nearest to it. -/
lemma roundsTo_intCast (z : ℤ) : RoundsTo z r ↔ (ofInt z).toRat? = some r := by
  refine roundsTo_iff ?_ (fun h => ?_) fun h => ?_
  · rw [← Int.cast_abs, Int.abs_eq_natAbs, Int.cast_natCast]
    exact isNearestRank_wholeRank z.natAbs
  · simpa using h
  · simpa using h.le

/-- Ranks stand on both sides of zero as the rationals do. -/
lemma toRat?_eq (x : Binary64) :
    x.toRat? = x.place?.map fun z => (mirrored units z : ℚ) / unitsPerOne := by
  cases x with
  | nan => rfl
  | signed negative rank =>
    cases negative with
    | true => simp [toRat?, place?, mirrored_neg, magnitude, neg_div]
    | false => simp [toRat?, place?, mirrored_natCast, magnitude]

lemma place_strictMono : StrictMono fun z : ℤ => (mirrored units z : ℚ) / unitsPerOne :=
  fun a b h => by
    have hunits : (mirrored units a : ℚ) < mirrored units b := by
      exact_mod_cast mirrored_strictMono units_strictMono h
    exact div_lt_div_of_pos_right hunits cast_unitsPerOne_pos

lemma order?_eq_some_iff {o : Ordering} : x.order? y = some o ↔
    ∃ p q : ℚ, x.toRat? = some p ∧ y.toRat? = some q ∧ compare p q = o := by
  rw [order?, toRat?_eq, toRat?_eq]
  cases x.place? with
  | none => simp
  | some a =>
    cases y.place? with
    | none => simp
    | some b =>
      have hcompare : compare ((mirrored units a : ℚ) / unitsPerOne)
          ((mirrored units b : ℚ) / unitsPerOne) = compare a b := by
        rw [← cmp_eq_compare, ← cmp_eq_compare]
        exact place_strictMono.cmp_map_eq a b
      simp [hcompare]

lemma numEq_iff_toRat? : x.numEq y = true ↔ ∃ p, x.toRat? = some p ∧ y.toRat? = some p := by
  rw [numEq, beq_iff_eq, order?_eq_some_iff]
  constructor
  · rintro ⟨p, q, hx, hy, hpq⟩
    obtain rfl := compare_eq_iff_eq.mp hpq
    exact ⟨p, hx, hy⟩
  · rintro ⟨p, hx, hy⟩
    exact ⟨p, p, hx, hy, compare_eq_iff_eq.mpr rfl⟩

lemma numLt_iff_toRat? :
    x.numLt y = true ↔ ∃ p q : ℚ, x.toRat? = some p ∧ y.toRat? = some q ∧ p < q := by
  rw [numLt, beq_iff_eq, order?_eq_some_iff]
  simp only [compare_lt_iff_lt]

lemma numLe_iff_toRat? :
    x.numLe y = true ↔ ∃ p q : ℚ, x.toRat? = some p ∧ y.toRat? = some q ∧ p ≤ q := by
  rw [numLe, Bool.or_eq_true, numLt_iff_toRat?, numEq_iff_toRat?]
  constructor
  · rintro (⟨p, q, hx, hy, hpq⟩ | ⟨p, hx, hy⟩)
    · exact ⟨p, q, hx, hy, hpq.le⟩
    · exact ⟨p, p, hx, hy, le_rfl⟩
  · rintro ⟨p, q, hx, hy, hpq⟩
    rcases hpq.lt_or_eq with hlt | rfl
    · exact .inl ⟨p, q, hx, hy, hlt⟩
    · exact .inr ⟨p, hx, hy⟩

end Signed
end Stencil.Binary64
