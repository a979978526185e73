import Stencil.Proofs.Merging

/-! Equality of values. Main statements: the `==` of conditions is an equivalence of the values
that have no NaN and no key twice, and containers are equal under it just when their parts are,
place by place, in the equality that tells numbers apart by their kind. -/
namespace Stencil

namespace Binary64
variable {x y : Binary64}

lemma numEq_iff : x.numEq y = true ↔ ∃ z, x.place? = some z ∧ y.place? = some z := by
  rw [numEq, order?, beq_iff_eq]
  cases x.place? with
  | none => simp
  | some p =>
    cases y.place? with
    | none => simp
    | some q => simpa using eq_comm

lemma exists_place? (h : x ≠ .nan) : ∃ z, x.place? = some z := by
  cases x with
  | nan => exact absurd rfl h
  | signed negative rank => exact ⟨_, rfl⟩

lemma numEq_refl (h : x ≠ .nan) : x.numEq x = true :=
  numEq_iff.mpr ((exists_place? h).imp fun _ hz => ⟨hz, hz⟩)

lemma numEq_symm (h : x.numEq y = true) : y.numEq x = true :=
  numEq_iff.mpr ((numEq_iff.mp h).imp fun _ hz => hz.symm)

lemma numEq_trans {z : Binary64} (hxy : x.numEq y = true) (hyz : y.numEq z = true) :
    x.numEq z = true := by
  obtain ⟨p, hx, hy⟩ := numEq_iff.mp hxy
  obtain ⟨q, hy', hz⟩ := numEq_iff.mp hyz
  obtain rfl : p = q := Option.some.inj (hy.symm.trans hy')
  exact numEq_iff.mpr ⟨p, hx, hz⟩

end Binary64

namespace Value

/-- The values JSON can express: no number is a NaN, and no object has a key twice. -/
inductive Proper : Value → Prop
  | null : Proper .null
  | bool (b : Bool) : Proper (.bool b)
  | number (n : Number) (h : n.toBinary64 ≠ .nan) : Proper (.number n)
  | string (s : Text) : Proper (.string s)
  | array (items : List Value) (h : ∀ v ∈ items, Proper v) : Proper (.array items)
  | object (fields : Fields) (nodup : fields.keys.Nodup) (h : ∀ entry ∈ fields, Proper entry.2) :
    Proper (.object fields)

/-- Two values are the same part of a container. -/
abbrev Same (v w : Value) : Prop := same v w = true

section Places
variable {α : Type} {r : α → α → Prop} {o o' o'' : Option α}

lemma optionRel_refl (h : ∀ v ∈ o, r v v) : Option.Rel r o o := by
  cases o with
  | none => exact .none
  | some v => exact .some (h v rfl)

lemma optionRel_symm (h : ∀ v ∈ o, ∀ w ∈ o', r v w → r w v) (hrel : Option.Rel r o o') :
    Option.Rel r o' o := by
  cases hrel with
  | none => exact .none
  | some hvw => exact .some (h _ rfl _ rfl hvw)

lemma optionRel_trans (h : ∀ v ∈ o, ∀ w ∈ o', ∀ u ∈ o'', r v w → r w u → r v u)
    (hrel : Option.Rel r o o') (hrel' : Option.Rel r o' o'') : Option.Rel r o o'' := by
  cases hrel with
  | none =>
    cases hrel'
    exact .none
  | some hvw =>
    cases hrel' with
    | some hwu => exact .some (h _ rfl _ rfl _ rfl hvw hwu)

lemma eq_none_iff_of_optionRel (hrel : Option.Rel r o o') : o = none ↔ o' = none := by
  cases hrel <;> simp

end Places

section Parts

lemma sameItems_iff {xs ys : List Value} :
    sameItems xs ys = true ↔ ∀ i : ℕ, Option.Rel Same xs[i]? ys[i]? := by
  induction xs generalizing ys with
  | nil =>
    cases ys with
    | nil => simp [sameItems]
    | cons y ys =>
      refine iff_of_false (by simp [sameItems]) fun h => ?_
      cases h 0
  | cons x xs ih =>
    cases ys with
    | nil =>
      refine iff_of_false (by simp [sameItems]) fun h => ?_
      cases h 0
    | cons y ys =>
      rw [sameItems, Bool.and_eq_true, ih]
      constructor
      · rintro ⟨hhead, htail⟩ (_ | i)
        · exact .some hhead
        · exact htail i
      · intro h
        refine ⟨?_, fun i => h (i + 1)⟩
        cases h 0 with
        | some hhead => exact hhead

lemma sameEntries_iff {xs ys : Fields} :
    sameEntries xs ys = true ↔ ∀ entry ∈ xs, ∃ w, ys.get? entry.1 = some w ∧ Same entry.2 w := by
  induction xs with
  | nil => simp [sameEntries]
  | cons entry xs ih =>
    obtain ⟨key, v⟩ := entry
    rw [sameEntries, Bool.and_eq_true, ih, List.forall_mem_cons]
    refine and_congr_left fun _ => ?_
    cases ys.get? key <;> simp

/-- Objects without repeated keys are equal when they have equal values under every key. -/
lemma sameFields_iff {xs ys : Fields} (hx : xs.keys.Nodup) (hy : ys.keys.Nodup) :
    Same (.object xs) (.object ys) ↔ ∀ key, Option.Rel Same (xs.get? key) (ys.get? key) := by
  rw [Same, same, Bool.and_eq_true, beq_iff_eq, sameEntries_iff]
  constructor
  · rintro ⟨hlen, h⟩ key
    -- as many keys, and each of the first among the second, are the same keys
    have hsub : xs.keys ⊆ ys.keys := by
      intro k hk
      obtain ⟨entry, hentry, rfl⟩ := List.mem_map.mp hk
      obtain ⟨w, hw, -⟩ := h entry hentry
      exact List.mem_map.mpr ⟨_, Entries.mem_of_get? hw, rfl⟩
    have hperm : xs.keys.Perm ys.keys :=
      (List.subperm_of_subset hx hsub).perm_of_length_le (by simp [Entries.keys, hlen])
    cases hkey : xs.get? key with
    | none =>
      rw [Entries.get?_eq_none_iff.mpr fun hmem =>
        Entries.get?_eq_none_iff.mp hkey (hperm.mem_iff.mpr hmem)]
      exact .none
    | some v =>
      obtain ⟨w, hw, hvw⟩ := h _ (Entries.mem_of_get? hkey)
      rw [hw]
      exact .some hvw
  · intro h
    have hmem (k : Text) : k ∈ xs.keys ↔ k ∈ ys.keys := by
      rw [← not_iff_not, ← Entries.get?_eq_none_iff, ← Entries.get?_eq_none_iff]
      exact eq_none_iff_of_optionRel (h k)
    refine ⟨?_, fun entry hentry => ?_⟩
    · have hperm := (List.perm_ext_iff_of_nodup hx hy).mpr hmem
      simpa [Entries.keys] using hperm.length_eq
    · have := h entry.1
      rw [Entries.get?_of_mem hx hentry] at this
      cases hw : ys.get? entry.1 with
      | none =>
        rw [hw] at this
        cases this
      | some w =>
        rw [hw] at this
        cases this with
        | some hvw => exact ⟨w, rfl, hvw⟩

end Parts

section Equivalence
variable {v w u : Value}

lemma number_same_refl {n : Number} (h : n.toBinary64 ≠ .nan) : n.same n = true := by
  cases n with
  | int n => exact beq_self_eq_true n
  | float x => exact Binary64.numEq_refl h

lemma number_same_symm {n m : Number} (h : n.same m = true) : m.same n = true := by
  cases n <;> cases m <;> simp_all [Number.same, Binary64.numEq_symm]

lemma number_same_trans {n m k : Number} (h : n.same m = true) (h' : m.same k = true) :
    n.same k = true := by
  cases n <;> cases m <;> cases k <;> simp_all [Number.same]
  exact Binary64.numEq_trans h h'

lemma same_refl (hv : Proper v) : Same v v := by
  induction hv with
  | null => rfl
  | bool b => exact beq_self_eq_true b
  | number n h => exact number_same_refl h
  | string s => exact beq_self_eq_true s
  | array items h ih =>
    exact sameItems_iff.mpr fun i => optionRel_refl fun v hv => ih v (List.mem_of_getElem? hv)
  | object fields nodup h ih =>
    exact (sameFields_iff nodup nodup).mpr fun key =>
      optionRel_refl fun v hv => ih (key, v) (Entries.mem_of_get? hv)

lemma same_symm (hv : Proper v) (hw : Proper w) (h : Same v w) : Same w v := by
  induction hv generalizing w with
  | null | bool | number | string =>
    cases w <;> simp_all [Same, same, number_same_symm]
  | array items hitems ih =>
    cases hw with
    | array items' hitems' =>
      refine sameItems_iff.mpr fun i => optionRel_symm (fun v hv w hw => ?_) (sameItems_iff.mp h i)
      exact ih v (List.mem_of_getElem? hv) (hitems' w (List.mem_of_getElem? hw))
    | _ => cases h
  | object fields nodup hfields ih =>
    cases hw with
    | object fields' nodup' hfields' =>
      refine (sameFields_iff nodup' nodup).mpr fun key => optionRel_symm (fun v hv w hw => ?_)
        ((sameFields_iff nodup nodup').mp h key)
      exact ih (key, v) (Entries.mem_of_get? hv) (hfields' (key, w) (Entries.mem_of_get? hw))
    | _ => cases h

lemma same_trans (hv : Proper v) (hw : Proper w) (hu : Proper u) (h : Same v w) (h' : Same w u) :
    Same v u := by
  induction hv generalizing w u with
  | null | bool | string => cases w <;> cases u <;> simp_all [Same, same]
  | number n _ =>
    cases w <;> cases u <;> simp_all only [Same, same, Bool.false_eq_true]
    exact number_same_trans h h'
  | array items hitems ih =>
    cases hw with
    | array items' hitems' =>
      cases hu with
      | array items'' hitems'' =>
        refine sameItems_iff.mpr fun i => optionRel_trans (fun v hv w hw u hu => ?_)
          (sameItems_iff.mp h i) (sameItems_iff.mp h' i)
        exact ih v (List.mem_of_getElem? hv) (hitems' w (List.mem_of_getElem? hw))
          (hitems'' u (List.mem_of_getElem? hu))
      | _ => cases h'
    | _ => cases h
  | object fields nodup hfields ih =>
    cases hw with
    | object fields' nodup' hfields' =>
      cases hu with
      | object fields'' nodup'' hfields'' =>
        refine (sameFields_iff nodup nodup'').mpr fun key =>
          optionRel_trans (fun v hv w hw u hu => ?_) ((sameFields_iff nodup nodup').mp h key)
            ((sameFields_iff nodup' nodup'').mp h' key)
        exact ih (key, v) (Entries.mem_of_get? hv) (hfields' (key, w) (Entries.mem_of_get? hw))
          (hfields'' (key, u) (Entries.mem_of_get? hu))
      | _ => cases h'
    | _ => cases h

end Equivalence

section Strict
variable {v w : Value}

/-- Numbers that a container tells apart even where `==` takes them for equal: two different
integers, or an integer and a number that is not kept as one. -/
def ToldApart : Value → Value → Prop
  | .number (.int n), .number (.int m) => n ≠ m
  | .number (.int _), .number (.float _) => True
  | .number (.float _), .number (.int _) => True
  | _, _ => False

/-- Equality inside a container. -/
def EqualInside (v w : Value) : Prop := strictEq (some v) (some w) = true ∧ ¬ToldApart v w

lemma number_same_iff {n m : Number} : n.same m = true ↔
    n.toBinary64.numEq m.toBinary64 = true ∧ ¬ToldApart (.number n) (.number m) := by
  cases n with
  | int n =>
    cases m with
    | int m =>
      have hint : (Binary64.ofInt n).numEq (.ofInt n) = true :=
        Binary64.numEq_refl (by simp [Binary64.ofInt])
      simp only [Number.same, beq_iff_eq, ToldApart, not_not, Number.toBinary64]
      exact ⟨fun h => ⟨h ▸ hint, h⟩, And.right⟩
    | float y => simp [Number.same, ToldApart]
  | float x => cases m <;> simp [Number.same, ToldApart, Number.toBinary64]

lemma strictEq_eq_same (hv : ∀ n, v ≠ .number n) (w : Value) :
    strictEq (some v) (some w) = same v w := by
  cases v with
  | number n => exact absurd rfl (hv n)
  | _ => simp [strictEq]

lemma ne_number_of_same (hv : ∀ n, v ≠ .number n) (h : Same v w) : ∀ n, w ≠ .number n := by
  rintro n rfl
  cases v with
  | number m => exact hv m rfl
  | _ => cases h

lemma same_iff : Same v w ↔ EqualInside v w := by
  by_cases hv : ∃ n, v = .number n
  · obtain ⟨n, rfl⟩ := hv
    cases w with
    | number m => exact number_same_iff
    | _ => simp [same, EqualInside, strictEq]
  · have hv' : ∀ n, v ≠ .number n := fun n h => hv ⟨n, h⟩
    rw [EqualInside, strictEq_eq_same hv', iff_self_and]
    intro _
    cases v with
    | number n => exact absurd rfl (hv' n)
    | _ => simp [ToldApart]

lemma strictEq_array {xs ys : List Value} :
    strictEq (some (.array xs)) (some (.array ys)) = true ↔
      ∀ i : ℕ, Option.Rel EqualInside xs[i]? ys[i]? := by
  have hrel : Same = EqualInside := funext₂ fun _ _ => propext same_iff
  rw [← hrel, ← sameItems_iff, strictEq, same]
  simp

lemma strictEq_object {xs ys : Fields} (hx : xs.keys.Nodup) (hy : ys.keys.Nodup) :
    strictEq (some (.object xs)) (some (.object ys)) = true ↔
      ∀ key, Option.Rel EqualInside (xs.get? key) (ys.get? key) := by
  have hrel : Same = EqualInside := funext₂ fun _ _ => propext same_iff
  rw [← hrel, ← sameFields_iff hx hy, strictEq]
  simp

/-- What an operand of a comparison can be: no value, or one that JSON can express. -/
abbrev Read := {o : Option Value // ∀ v ∈ o, Proper v}

lemma strictEq_refl {o : Option Value} (ho : ∀ v ∈ o, Proper v) : strictEq o o = true := by
  cases o with
  | none => rfl
  | some v =>
    by_cases hv : ∃ n, v = .number n
    · obtain ⟨n, rfl⟩ := hv
      cases ho _ rfl with
      | number n h => exact Binary64.numEq_refl h
    · rw [strictEq_eq_same fun n h => hv ⟨n, h⟩]
      exact same_refl (ho v rfl)

lemma strictEq_symm {o o' : Option Value} (ho : ∀ v ∈ o, Proper v) (ho' : ∀ v ∈ o', Proper v)
    (h : strictEq o o' = true) : strictEq o' o = true := by
  cases o with
  | none => cases o' <;> simp_all [strictEq]
  | some v =>
    cases o' with
    | none => simp [strictEq] at h
    | some w =>
      by_cases hv : ∃ n, v = .number n
      · obtain ⟨n, rfl⟩ := hv
        cases w with
        | number m => exact Binary64.numEq_symm h
        | _ => cases h
      · have hv' : ∀ n, v ≠ .number n := fun n h => hv ⟨n, h⟩
        rw [strictEq_eq_same hv'] at h
        rw [strictEq_eq_same (ne_number_of_same hv' h)]
        exact same_symm (ho v rfl) (ho' w rfl) h

lemma strictEq_trans {o o' o'' : Option Value} (ho : ∀ v ∈ o, Proper v) (ho' : ∀ v ∈ o', Proper v)
    (ho'' : ∀ v ∈ o'', Proper v) (h : strictEq o o' = true) (h' : strictEq o' o'' = true) :
    strictEq o o'' = true := by
  cases o' with
  | none =>
    obtain rfl : o = none := by cases o <;> simp_all [strictEq]
    exact h'
  | some w =>
    obtain ⟨v, rfl⟩ : ∃ v, o = some v := by cases o <;> simp_all [strictEq]
    obtain ⟨u, rfl⟩ : ∃ u, o'' = some u := by cases o'' <;> simp_all [strictEq]
    by_cases hv : ∃ n, v = .number n
    · obtain ⟨n, rfl⟩ := hv
      cases w with
      | number m =>
        cases u with
        | number k => exact Binary64.numEq_trans h h'
        | _ => cases h'
      | _ => cases h
    · have hv' : ∀ n, v ≠ .number n := fun n h => hv ⟨n, h⟩
      rw [strictEq_eq_same hv'] at h ⊢
      rw [strictEq_eq_same (ne_number_of_same hv' h)] at h'
      exact same_trans (ho v rfl) (ho' w rfl) (ho'' u rfl) h h'

lemma strictEq_equivalence : Equivalence fun a b : Read => strictEq a.1 b.1 = true where
  refl a := strictEq_refl a.2
  symm {a b} := strictEq_symm a.2 b.2
  trans {a b c} := strictEq_trans a.2 b.2 c.2

end Strict

end Value
end Stencil
