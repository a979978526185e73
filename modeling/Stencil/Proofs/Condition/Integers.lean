import Stencil.Proofs.Condition.Grammar
import Stencil.Proofs.Equality
import Stencil.Proofs.Rounding

/-! Integers in conditions. Main statement: two integers are compared as the binary64 numbers
nearest to them, so that their own order decides unless they are different and round to one number;
inside containers integers are compared exactly. -/
namespace Stencil

/-- The integers of the signed and the unsigned 64-bit range. -/
abbrev MachineInt := {n : ℤ // -2 ^ 63 ≤ n ∧ n < 2 ^ 64}

namespace Comparison

/-- The relation of integers that a comparison stands for. -/
def Relates : Comparison → ℤ → ℤ → Prop
  | .ge, x, y => y ≤ x
  | .le, x, y => x ≤ y
  | .eq, x, y => x = y
  | .ne, x, y => x ≠ y
  | .gt, x, y => y < x
  | .lt, x, y => x < y

end Comparison

section Order
open Binary64

lemma MachineInt.natAbs_lt_limit (n : MachineInt) : n.1.natAbs < limit := by
  have hlimit := two_pow_le_limit (show 64 ≤ 1023 by decide)
  have := n.2
  omega

variable {m n : ℤ}

/-- The order of integers survives the rounding unless they are different and become equal. -/
lemma relates_nearestInt_iff :
    (∀ op : Comparison, op.Relates (nearestInt m) (nearestInt n) ↔ op.Relates m n) ↔
      (m = n ∨ nearestInt m ≠ nearestInt n) := by
  constructor
  · intro h
    rw [← imp_iff_or_not]
    exact (h .eq).mp
  · rintro (rfl | hne) op
    · cases op <;> simp [Comparison.Relates]
    · have hle := nearestInt_mono (a := m) (b := n)
      have hge := nearestInt_mono (a := n) (b := m)
      rcases lt_trichotomy m n with hlt | rfl | hgt
      · have := nearestInt_mono hlt.le
        cases op <;> simp only [Comparison.Relates] <;> omega
      · exact absurd rfl hne
      · have := nearestInt_mono hgt.le
        cases op <;> simp only [Comparison.Relates] <;> omega

variable (hm : m.natAbs < limit) (hn : n.natAbs < limit)
include hm hn

lemma numEq_ofInt : (ofInt m).numEq (ofInt n) = true ↔ nearestInt m = nearestInt n := by
  rw [numEq, order?_ofInt hm hn]
  simp

lemma numLt_ofInt : (ofInt m).numLt (ofInt n) = true ↔ nearestInt m < nearestInt n := by
  rw [numLt, order?_ofInt hm hn]
  simp [compare_lt_iff_lt]

lemma numLe_ofInt : (ofInt m).numLe (ofInt n) = true ↔ nearestInt m ≤ nearestInt n := by
  rw [numLe, Bool.or_eq_true, numLt_ofInt hm hn, numEq_ofInt hm hn, le_iff_lt_or_eq]

lemma holds_integers (op : Comparison) :
    op.holds (some (.number (.int m))) (some (.number (.int n))) = true ↔
      op.Relates (nearestInt m) (nearestInt n) := by
  cases op with
  | ge => exact numLe_ofInt hn hm
  | le => exact numLe_ofInt hm hn
  | eq => exact numEq_ofInt hm hn
  | ne =>
    rw [Comparison.Relates, Ne, ← numEq_ofInt hm hn, Comparison.holds, Bool.not_eq_true']
    exact Bool.not_eq_true _ |>.symm.to_iff
  | gt => exact numLt_ofInt hn hm
  | lt => exact numLt_ofInt hm hn

end Order

namespace Grammar
open Binary64 Value

/-- Every comparison of the two variables comes out as that of the two integers. -/
def ComparesAs (vars : Fields) (p q : Variable) (m n : ℤ) : Prop :=
  ∀ (b : Blank) (op : Comparison) (a : Blank),
    conditionHolds (Atom.compare (.var p) b op a (.var q)).text vars = true ↔ op.Relates m n

variable {vars : Fields} {p q : Variable} {m n : MachineInt}

lemma comparesAs_iff (hp : vars.valueAt? p.text = some (.number (.int m)))
    (hq : vars.valueAt? q.text = some (.number (.int n))) {x y : ℤ} :
    ComparesAs vars p q x y ↔
      ∀ op : Comparison, op.Relates (nearestInt m) (nearestInt n) ↔ op.Relates x y := by
  have hatom (b : Blank) (op : Comparison) (a : Blank) :
      conditionHolds (Atom.compare (.var p) b op a (.var q)).text vars = true ↔
        op.Relates (nearestInt m) (nearestInt n) := by
    rw [conditionHolds_atom, Atom.holds, Operand.value, Operand.value, hp, hq]
    exact holds_integers m.natAbs_lt_limit n.natAbs_lt_limit op
  simp only [ComparesAs, hatom]
  exact ⟨fun h op => h .none op .none, fun h _ op _ => h op⟩

/-- Two integers compare as the numbers of 53 significant bits nearest to them. This is their own
order unless they are different and round to one number, as no two of at most `2 ^ 53` do. Inside a
container two integers are equal when they are the same, so that arrays are equal place by place
and objects key by key, but in a finer equality than that of `==`, which is an equivalence. -/
theorem integers_compare (hp : vars.valueAt? p.text = some (.number (.int m)))
    (hq : vars.valueAt? q.text = some (.number (.int n))) :
    ComparesAs vars p q (nearestInt m) (nearestInt n) ∧
    (ComparesAs vars p q m n ↔ m = n ∨ nearestInt m ≠ nearestInt n) ∧
    (m.1.natAbs ≤ 2 ^ 53 → n.1.natAbs ≤ 2 ^ 53 → ComparesAs vars p q m n) ∧
    (∀ x y : ℤ, EqualInside (.number (.int x)) (.number (.int y)) ↔ x = y) ∧
    (∀ xs ys : List Value, strictEq (some (.array xs)) (some (.array ys)) = true ↔
      ∀ i : ℕ, Option.Rel EqualInside xs[i]? ys[i]?) ∧
    (∀ xs ys : Fields, xs.keys.Nodup → ys.keys.Nodup →
      (strictEq (some (.object xs)) (some (.object ys)) = true ↔
        ∀ key, Option.Rel EqualInside (xs.get? key) (ys.get? key))) ∧
    Equivalence fun v w : Read => strictEq v.1 w.1 = true := by
  refine ⟨?_, ?_, fun hm hn => ?_, fun x y => ?_, fun _ _ => strictEq_array,
    fun _ _ => strictEq_object, strictEq_equivalence⟩
  · exact (comparesAs_iff hp hq).mpr fun _ => Iff.rfl
  · rw [comparesAs_iff hp hq, relates_nearestInt_iff, Subtype.ext_iff]
  · rw [comparesAs_iff hp hq, nearestInt_of_le hm, nearestInt_of_le hn]
    exact fun _ => Iff.rfl
  · rw [← same_iff, Same, same, Number.same, beq_iff_eq]

/-- A variable named by one letter. -/
def letter (c : Char) (alpha : c.isAlpha = true) (digit : c.isDigit = false) : Variable where
  text := [c]
  simple := by simp [Text.isSimplePath, Text.isWordOf, Text.isWordChar, Char.isAlphanum, alpha]
  ne_and := by simp
  ne_or := by simp
  ne_true := by simp
  ne_false := by simp
  ne_null := by simp
  ne_numeral k hk := by
    rcases k.mem_text (c := c) (by simp [hk]) with rfl | rfl | h
    · exact absurd alpha (by decide)
    · exact absurd alpha (by decide)
    · exact Bool.false_ne_true (digit.symm.trans h)

def letterX : Variable := letter 'x' rfl rfl

def letterY : Variable := letter 'y' rfl rfl

def space : Blank := ⟨[' '], by simp [Text.isWhite]⟩

/-- Two neighbours beyond `2 ^ 53`, of which the first rounds to the second. -/
def neighbours : Fields :=
  [("x".toList, .number (.int 9007199254740993)), ("y".toList, .number (.int 9007199254740992))]

theorem integers_compare_neighbours :
    neighbours.valueAt? letterX.text = some (.number (.int 9007199254740993)) ∧
    neighbours.valueAt? letterY.text = some (.number (.int 9007199254740992)) ∧
    ¬ComparesAs neighbours letterX letterY 9007199254740993 9007199254740992 := by
  refine ⟨rfl, rfl, fun h => ?_⟩
  let m : MachineInt := ⟨9007199254740993, by decide⟩
  let n : MachineInt := ⟨9007199254740992, by decide⟩
  have hx : neighbours.valueAt? letterX.text = some (.number (.int m)) := rfl
  have hy : neighbours.valueAt? letterY.text = some (.number (.int n)) := rfl
  obtain ⟨-, hiff, -⟩ := integers_compare hx hy
  revert h
  rw [hiff]
  decide

/-- The variables hold different integers. -/
theorem conditionHolds_neighbours : conditionHolds "x == y".toList neighbours = true := by
  have hatom := conditionHolds_atom neighbours
    (.compare (.var letterX) space .eq space (.var letterY))
  exact hatom.trans (by decide +kernel)

end Grammar
end Stencil
