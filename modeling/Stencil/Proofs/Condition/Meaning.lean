import Stencil.Proofs.Condition.Integers
import Stencil.Proofs.Meaning

/-! What written conditions mean. Main statement: a condition holds among given variables just when
each of its groups has an atom that is true of them, and what makes an atom true is said by where
its paths lead and by what the values there are, not by how they are evaluated. -/
namespace Stencil

/-- What a comparison says of two operands: equality and its negation compare values, and every
other comparison the numbers that the two count as, if both count as one. -/
def Comparison.RelatesValues : Comparison → Option Value → Option Value → Prop
  | .eq, l, r => Value.Equals l r
  | .ne, l, r => ¬Value.Equals l r
  | .ge, l, r => ∃ p q, Value.Counts l p ∧ Value.Counts r q ∧ q ≤ p
  | .le, l, r => ∃ p q, Value.Counts l p ∧ Value.Counts r q ∧ p ≤ q
  | .gt, l, r => ∃ p q, Value.Counts l p ∧ Value.Counts r q ∧ q < p
  | .lt, l, r => ∃ p q, Value.Counts l p ∧ Value.Counts r q ∧ p < q

lemma Comparison.holds_iff (op : Comparison) (l r : Option Value) :
    op.holds l r = true ↔ op.RelatesValues l r := by
  cases op with
  | eq => exact Value.strictEq_iff
  | ne =>
    rw [Comparison.holds, Bool.not_eq_true', ← Bool.not_eq_true, Value.strictEq_iff, RelatesValues]
  | le => simp only [holds, RelatesValues, Value.counts_iff, Binary64.numLe_iff_toRat?]
  | lt => simp only [holds, RelatesValues, Value.counts_iff, Binary64.numLt_iff_toRat?]
  | ge =>
    simp only [holds, RelatesValues, Value.counts_iff, Binary64.numLe_iff_toRat?]
    rw [exists_comm]
    simp only [and_left_comm]
  | gt =>
    simp only [holds, RelatesValues, Value.counts_iff, Binary64.numLt_iff_toRat?]
    rw [exists_comm]
    simp only [and_left_comm]

namespace Grammar

/-- What an operand stands for: a literal for its value, and a path for the value that it has, if
it has one. -/
inductive Operand.Stands (vars : Fields) : Operand → Option Value → Prop
  | has {p : Variable} {v : Value} (h : vars.Has p.text v) : Stands vars (.var p) (some v)
  | absent {p : Variable} (h : ∀ v, ¬vars.Has p.text v) : Stands vars (.var p) none
  | constant (k : Constant) : Stands vars (.constant k) (some k.value)
  | numeral {n : Numeral} {v : Value} (h : n.Means v) : Stands vars (.numeral n) (some v)
  | quoted (q : Quote) (s : Text) (bare : ∀ c ∈ s, IsBare c) :
    Stands vars (.quoted q s bare) (some (.string s))

/-- A path is defined if it has a value other than null, and empty unless it has one that is not
empty. -/
def Test.Passes (vars : Fields) (path : Text) : Test → Prop
  | .defined => ∃ v, vars.Has path v ∧ v ≠ .null
  | .empty => ∀ v, vars.Has path v → v.IsVoid

/-- What makes an atom true. -/
def Atom.IsTrue (vars : Fields) : Atom → Prop
  | .truthy p _ _ => ∃ v, vars.Has p.text v ∧ v.IsTrue
  | .constant b => b = true
  | .test p _ none _ kind => kind.Passes vars p.text
  | .test p _ (some _) _ kind => ¬kind.Passes vars p.text
  | .compare l _ op _ r => ∃ a b, l.Stands vars a ∧ r.Stands vars b ∧ op.RelatesValues a b

variable {vars : Fields}

lemma Operand.stands_iff {o : Operand} {a : Option Value} :
    o.Stands vars a ↔ a = o.value vars := by
  constructor
  · intro h
    cases h with
    | has h => exact (Fields.valueAt?_eq_some_iff.mpr h).symm
    | absent h => exact (Fields.valueAt?_eq_none_iff.mpr h).symm
    | numeral h => exact congrArg some (Numeral.means_iff _ |>.mp h)
    | constant k => rfl
    | quoted q s bare => rfl
  · rintro rfl
    cases o with
    | var p =>
      rw [value]
      cases h : vars.valueAt? p.text with
      | none => exact .absent (Fields.valueAt?_eq_none_iff.mp h)
      | some v => exact .has (Fields.valueAt?_eq_some_iff.mp h)
    | constant k => exact .constant k
    | numeral n => exact .numeral (n.means_iff.mpr rfl)
    | quoted q s bare => exact .quoted q s bare

lemma Operand.Stands.unique {o : Operand} {a b : Option Value} (ha : o.Stands vars a)
    (hb : o.Stands vars b) : a = b :=
  (Operand.stands_iff.mp ha).trans (Operand.stands_iff.mp hb).symm

lemma Test.holds_iff (kind : Test) (path : Text) :
    kind.holds (vars.valueAt? path) = true ↔ kind.Passes vars path := by
  cases kind with
  | defined =>
    simp only [Passes, ← Fields.valueAt?_eq_some_iff]
    rw [holds]
    cases vars.valueAt? path with
    | none => simp [Condition.isDefined]
    | some v => cases v <;> simp [Condition.isDefined]
  | empty =>
    rw [holds, Value.isEmpty_iff]
    simp only [Passes, Fields.valueAt?_eq_some_iff]

lemma Atom.holds_iff (atom : Atom) : atom.holds vars = true ↔ atom.IsTrue vars := by
  cases atom with
  | truthy p _ _ =>
    rw [holds, Value.truthy_iff]
    simp only [IsTrue, Fields.valueAt?_eq_some_iff]
  | constant b => exact Iff.rfl
  | test p _ negation _ kind =>
    cases negation with
    | none => simpa [holds, IsTrue] using kind.holds_iff p.text
    | some _ => simpa [holds, IsTrue] using not_congr (kind.holds_iff p.text)
  | compare l _ op _ r =>
    rw [holds, Comparison.holds_iff]
    simp only [IsTrue, Operand.stands_iff]
    constructor
    · exact fun h => ⟨_, _, rfl, rfl, h⟩
    · rintro ⟨_, _, rfl, rfl, h⟩
      exact h

/-- A condition holds just when each of its groups has an atom that is true. -/
theorem conditionHolds_written (w : Written) (vars : Fields) :
    conditionHolds w.text vars = true ↔
      ∀ group ∈ w.groups.items, ∃ atom ∈ group.items, atom.IsTrue vars := by
  rw [conditionHolds_text, List.all_eq_true]
  refine forall₂_congr fun group _ => ?_
  rw [List.any_eq_true]
  exact exists_congr fun atom => and_congr_right fun _ => atom.holds_iff

/-- A variable whose side conditions can be decided. -/
def variableOf (s : Text) (simple : s.isSimplePath = true)
    (notNumeral : Literal.isNumeral s = false) (notWord : s ∉ ["and".toList, "or".toList,
      "true".toList, "false".toList, "null".toList]) : Variable where
  text := s
  simple := simple
  ne_and h := notWord (by simp [h])
  ne_or h := notWord (by simp [h])
  ne_true h := notWord (by simp [h])
  ne_false h := notWord (by simp [h])
  ne_null h := notWord (by simp [h])
  ne_numeral := Literal.ne_of_isNumeral notNumeral

def userAge : Variable := variableOf "user.age".toList rfl rfl (by decide)

def userName : Variable := variableOf "user.name".toList rfl rfl (by decide)

def userTags : Path where
  text := "user.tags".toList
  simple := by decide
  ne_and := by decide
  ne_or := by decide

/-- Two and a half. -/
def fiveHalves : Numeral where
  negative := false
  whole := ['2']
  fraction := some ['5']
  whole_digits := by decide
  fraction_digits := by decide

/-- A quoted name. -/
def quotedName (s : Text) (h : s.all Text.isWordChar = true) : Operand :=
  .quoted .single s fun c hc => isBare_of_isWordChar (List.all_eq_true.mp h c hc)

def user : Fields := [("age".toList, .number (.int 36)), ("name".toList, .string "ada".toList),
  ("tags".toList, .array [])]

/-- A variable with fields of three kinds. -/
def member : Fields := [("user".toList, .object user)]

def gap : Gap := ⟨space, by decide⟩

/-- The user is old enough, and is of that name or has no tags. -/
def untagged : Written where
  before := .none
  groups := .join (.last (.compare (.var userAge) space .ge space (.numeral fiveHalves))) gap gap
    (.last (.join (.compare (.var userName) space .eq space (quotedName "bob".toList rfl)) gap gap
      (.last (.test userTags gap none gap .empty))))
  after := .none

/-- The user is too young or of another name. -/
def stranger : Written where
  before := .none
  groups := .last (.join (.compare (.var userAge) space .lt space (.numeral fiveHalves)) gap gap
    (.last (.compare (.var userName) space .ne space (quotedName "ada".toList rfl))))
  after := .none

/-- Of the three atoms of the first condition the second is false; the second condition has no true
one. -/
theorem conditionHolds_written_member :
    conditionHolds "user.age >= 2.5 and user.name == 'bob' or user.tags is empty".toList member =
      true ∧
    conditionHolds "user.age < 2.5 or user.name != 'ada'".toList member = false := by
  have huser : member.Leads ["user".toList] (.object user) := .start rfl
  have hage : member.Has userAge.text (.number (.int 36)) := huser.step (.field rfl)
  have hname : member.Has userName.text (.string "ada".toList) := huser.step (.field rfl)
  have htags : member.Has userTags.text (.array []) := huser.step (.field rfl)
  have hsix : Value.Counts (some (.number (.int 36))) 36 :=
    .number (.int ((Binary64.roundsTo_intCast 36).mpr (by decide +kernel)))
  have hhalves : Value.Counts (some fiveHalves.value) (5 / 2) :=
    Value.counts_iff.mpr (by decide +kernel)
  have hnumeral : (Operand.numeral fiveHalves).Stands member (some fiveHalves.value) :=
    .numeral (fiveHalves.means_iff.mpr rfl)
  constructor
  · refine (conditionHolds_written untagged member).mpr
      (List.forall_mem_cons.mpr ⟨?_, List.forall_mem_singleton.mpr ?_⟩)
    · exact ⟨_, List.mem_singleton_self _, _, _, .has hage, hnumeral, 36, 5 / 2, hsix, hhalves,
        by norm_num⟩
    · refine ⟨.test userTags gap none gap .empty,
        List.mem_cons_of_mem _ (List.mem_singleton_self _), fun v hv => ?_⟩
      obtain rfl := hv.unique htags
      exact .array
  · refine Bool.eq_false_iff.mpr fun h => ?_
    obtain ⟨atom, hatom, htrue⟩ :=
      (conditionHolds_written stranger member).mp h _ (List.mem_singleton_self _)
    obtain rfl | rfl := List.mem_pair.mp hatom
    · obtain ⟨a, b, ha, hb, p, q, hp, hq, hlt⟩ := htrue
      obtain rfl := ha.unique (.has hage)
      obtain rfl := hb.unique hnumeral
      obtain rfl := hp.unique hsix
      obtain rfl := hq.unique hhalves
      exact absurd hlt (by norm_num)
    · obtain ⟨a, b, ha, hb, hne⟩ := htrue
      obtain rfl := ha.unique (.has hname)
      obtain rfl := hb.unique (.quoted _ _ _)
      exact hne (.alike (.string _))

end Grammar
end Stencil
