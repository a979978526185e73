import Stencil.Proofs.Congruence
import Stencil.Proofs.InMemory
import Stencil.Proofs.Table
import Stencil.Proofs.WrittenTag

/-! What a rendering depends on. The templates that it loads decide how it ends: it ends alike
wherever they have the same texts, and without one of them it fails. That the set of used files
holds these templates is a matter of the renderer, which has to enter each of them by itself. Main
statements: a renderer enters every template that it loads and nothing else, so that the used files
of a rendering are exactly the templates of the store that it depends on. -/
namespace Stencil

namespace Rendering
variable {α β : Type} {read other : Text → Except Text Text}

/-- Nothing follows a failure. -/
lemma Outcome.andThen_of_error {o : Outcome α} {e : TemplateError} (ho : o.result = .error e)
    (f : α → Outcome β) : o.andThen f = ⟨o.used, .error e⟩ := by
  obtain ⟨used, result⟩ := o
  obtain rfl : result = .error e := ho
  rfl

/-- The templates that a rendering loads, in order, when `read` answers. It does not matter what
the rendering enters into the set of used files. -/
def loads (read : Text → Except Text Text) : {α : Type} → Rendering α → List Text
  | _, .done _ | _, .failed _ | _, .use _ => []
  | _, .load identifier =>
    match read identifier with
    | .ok _ => [identifier]
    | .error _ => []
  | _, .andThen x f =>
    match (x.run read).result with
    | .ok a => x.loads read ++ (f a).loads read
    | .error _ => x.loads read

lemma loads_andThen_of_ok {x : Rendering α} {a : α} (hx : (x.run read).result = .ok a)
    (f : α → Rendering β) : (andThen x f).loads read = x.loads read ++ (f a).loads read := by
  rw [loads, hx]

lemma loads_andThen_of_error {x : Rendering α} {e : TemplateError}
    (hx : (x.run read).result = .error e) (f : α → Rendering β) :
    (andThen x f).loads read = x.loads read := by
  rw [loads, hx]

/-- A rendering that succeeds ends alike wherever all that it loads has the same text. -/
lemma run_eq_of_loads {x : Rendering α} {a : α} (hok : (x.run read).result = .ok a)
    (h : ∀ identifier ∈ x.loads read, other identifier = read identifier) :
    x.run other = x.run read := by
  induction x with
  | done a => rfl
  | failed e => rfl
  | use identifier => rfl
  | load identifier =>
    cases hread : read identifier with
    | error reason => simp [run, hread] at hok
    | ok content =>
      have := h identifier (by simp [loads, hread])
      simp only [run, this]
  | andThen x f ihx ihf =>
    rw [run] at hok
    obtain ⟨b, hb, hok⟩ := Outcome.exists_of_result_andThen hok
    rw [loads_andThen_of_ok hb] at h
    have hx := ihx hb fun identifier hmem => h identifier (List.mem_append_left _ hmem)
    have hf := ihf b hok fun identifier hmem => h identifier (List.mem_append_right _ hmem)
    rw [run, run, hx]
    refine Outcome.andThen_congr fun b' hb' => ?_
    obtain rfl : b = b' := Except.ok.inj (hb.symm.trans hb')
    exact hf

/-- Where a template is missing, a rendering that loads it fails, if everything else is there. -/
lemma result_of_missing {x : Rendering α} {identifier reason : Text}
    (hmem : identifier ∈ x.loads read) (hmissing : other identifier = .error reason)
    (hsame : ∀ key, key ≠ identifier → other key = read key) :
    (x.run other).result = .error (.loadFailed identifier reason) := by
  induction x with
  | done a => cases hmem
  | failed e => cases hmem
  | use key => cases hmem
  | load key =>
    cases hread : read key with
    | error _ => simp [loads, hread] at hmem
    | ok content =>
      obtain rfl : identifier = key := by simpa [loads, hread] using hmem
      simp only [run, hmissing]
  | andThen x f ihx ihf =>
    rw [run]
    by_cases hx : identifier ∈ x.loads read
    · rw [Outcome.andThen_of_error (ihx hx)]
    · -- the first part does without the template, so it ends as before
      cases hb : (x.run read).result with
      | error e =>
        rw [loads_andThen_of_error hb] at hmem
        exact absurd hmem hx
      | ok b =>
        rw [loads_andThen_of_ok hb] at hmem
        have hlater := (List.mem_append.mp hmem).resolve_left hx
        have heq := run_eq_of_loads hb fun key hkey =>
          hsame key fun h => hx (h ▸ hkey)
        rw [heq, Outcome.result_andThen hb]
        exact ihf b hlater

/-- Every template that is loaded is entered into the set of used files, and nothing else is. -/
def Records (x : Rendering α) : Prop := ∀ read, (x.run read).used = x.loads read

lemma records_bind {x : Rendering α} {f : α → Rendering β} (hx : x.Records)
    (hf : ∀ a, (f a).Records) : (x >>= f).Records := by
  intro read
  have hloads : (x >>= f).loads read = (andThen x f).loads read := by
    cases x <;> rfl
  rw [run_bind, hloads, loads, ← hx read]
  rcases x.run read with ⟨used, e | a⟩
  · rfl
  · exact congrArg (used ++ ·) (hf a read)

lemma congruence_records : Congruence fun _ x _ => Records x where
  done _ _ := rfl
  bind := records_bind

end Rendering

namespace Renderer
open Rendering (Outcome Records congruence_records)
variable (r : Renderer)

/-- A template that is fetched is entered right behind the load. -/
lemma records_consult {α : Type} {f : Text × Text → Rendering α} (reference directory : Text)
    (hf : ∀ found, (f found).Records) : (r.consult reference directory f).Records := by
  intro read
  rw [consult]
  rcases r.fetch_cases reference directory with ⟨e, hfetch⟩ | ⟨identifier, -, hfetch⟩
  · rw [hfetch]
    rfl
  · let load : Rendering (Text × Text) := .andThen (.load identifier) fun source =>
      .done (identifier, source)
    let rest : Text × Text → Rendering α := fun found => .andThen (.use found.1) fun _ => f found
    have hsite : (r.fetch reference directory >>= fun found => do
        Rendering.use found.1
        f found) = .andThen load rest := by
      rw [hfetch]
      rfl
    rw [hsite]
    cases hread : read identifier with
    | error reason =>
      have hrun : load.run read = ⟨[], .error (.loadFailed identifier reason)⟩ := by
        simp only [load, Rendering.run, hread, Outcome.andThen]
      have hloads : load.loads read = [] := by
        simp only [load, Rendering.loads, Rendering.run, hread]
      rw [Rendering.loads_andThen_of_error (congrArg Outcome.result hrun), Rendering.run, hrun,
        hloads]
      rfl
    | ok source =>
      have hrun : load.run read = ⟨[], .ok (identifier, source)⟩ := by
        simp only [load, Rendering.run, hread, Outcome.andThen, Outcome.behind_nil]
      have hloads : load.loads read = [identifier] := by
        simp only [load, Rendering.loads, Rendering.run, hread, List.append_nil]
      rw [Rendering.loads_andThen_of_ok (congrArg Outcome.result hrun), Rendering.run, hrun, hloads]
      exact congrArg (identifier :: ·) (hf (identifier, source) read)

/-- Of all that is loaded on the way nothing is left out of the set of used files, and nothing else
gets into it. -/
theorem records_perform (vars : Fields) (call : Call) : (r.perform vars call).Records := by
  have hrelated : Related (fun _ x _ => Records x) r r :=
    { congruence := congruence_records
      whitespace := rfl
      consult := r.records_consult
      items := fun source vars => by
        unfold Rendering.ofExcept
        split <;> exact fun _ => rfl
      tooDeep := fun _ _ => rfl }
  exact hrelated.perform rfl le_rfl vars call

end Renderer

namespace Rendered

lemma mem_insertSorted {identifier other : Text} {identifiers : List Text} :
    other ∈ insertSorted identifier identifiers ↔ other = identifier ∨ other ∈ identifiers := by
  induction identifiers with
  | nil => simp [insertSorted]
  | cons first rest ih =>
    rw [insertSorted]
    split
    · rename_i heq
      simp [heq]
    · split
      · simp
      · simp only [List.mem_cons, ih]
        tauto

@[simp] lemma mem_sorted {identifier : Text} {identifiers : List Text} :
    identifier ∈ sorted identifiers ↔ identifier ∈ identifiers := by
  induction identifiers with
  | nil => rfl
  | cons first rest ih =>
    change identifier ∈ insertSorted first (sorted rest) ↔ _
    rw [mem_insertSorted, ih, List.mem_cons]

lemma pairwise_insertSorted (identifier : Text) {identifiers : List Text}
    (h : identifiers.Pairwise (· < ·)) :
    (insertSorted identifier identifiers).Pairwise (· < ·) := by
  induction identifiers with
  | nil => exact List.pairwise_singleton _ _
  | cons first rest ih =>
    obtain ⟨hfirst, hrest⟩ := List.pairwise_cons.mp h
    rw [insertSorted]
    split
    · exact h
    · rename_i hne
      split
      · rename_i hlt
        refine List.pairwise_cons.mpr ⟨fun other hother => ?_, h⟩
        rcases List.mem_cons.mp hother with rfl | hother
        · exact hlt
        · exact lt_trans hlt (hfirst other hother)
      · rename_i hlt
        refine List.pairwise_cons.mpr ⟨fun other hother => ?_, ih hrest⟩
        rcases mem_insertSorted.mp hother with rfl | hother
        · exact lt_of_le_of_ne (not_lt.mp hlt) (Ne.symm hne)
        · exact hfirst other hother

/-- The used files stand in strictly rising order. -/
lemma pairwise_sorted (identifiers : List Text) : (sorted identifiers).Pairwise (· < ·) := by
  induction identifiers with
  | nil => exact .nil
  | cons first rest ih => exact pairwise_insertSorted first ih

end Rendered

lemma Entries.get?_erase {α : Type} (entries : Entries α) (key k : Text) :
    (entries.erase key).get? k = if k = key then none else entries.get? k := by
  induction entries with
  | nil => simp [erase]
  | cons entry rest ih =>
    obtain ⟨k', v⟩ := entry
    rw [erase, List.filter_cons, ← erase]
    by_cases hk : k' = key
    · subst hk
      rw [if_neg (by simp), ih]
      split
      · rfl
      · rename_i hne
        rw [get?_cons_of_ne (Ne.symm hne)]
    · rw [if_pos (by simpa using hk)]
      by_cases hk' : k' = k
      · subst hk'
        rw [get?_cons_self, get?_cons_self, if_neg hk]
      · rw [get?_cons_of_ne hk', get?_cons_of_ne hk', ih]

namespace Store

/-- The store without the template of an identifier. -/
def without (store : Store) (identifier : Text) : Store := ⟨store.templates.erase identifier⟩

lemma get?_without (store : Store) (identifier key : Text) :
    (store.without identifier).get? key = if key = identifier then none else store.get? key :=
  Entries.get?_erase store.templates identifier key

lemma read_eq_of_get? {store other : Store} {identifier : Text}
    (h : other.get? identifier = store.get? identifier) :
    other.read identifier = store.read identifier := by
  rw [read, read, h]

/-- The used files of a call that succeeds are in strictly rising order, they are all that the
result depends on, and the call fails for want of any one of them. -/
theorem usedFiles_exact {store : Store} {call : Call} {vars : Fields} {options : Options}
    {baseDirectory content : Text} {files : List Text}
    (h : store.perform call vars options baseDirectory = .ok ⟨content, files⟩) :
    files.Pairwise (· < ·) ∧
    (∀ other : Store, (∀ file ∈ files, other.get? file = store.get? file) →
      other.perform call vars options baseDirectory = .ok ⟨content, files⟩) ∧
    ∀ file ∈ files, (store.without file).perform call vars options baseDirectory =
      .error (.loadFailed file missing) := by
  obtain ⟨hok, rfl⟩ := Rendered.ofOutcome_eq_ok.mp h
  let r : Renderer := { Renderer.inMemory options with baseDirectory }
  have hrecords := r.records_perform vars call store.read
  refine ⟨Rendered.pairwise_sorted _, fun other hother => ?_, fun file hfile => ?_⟩
  · have hread := Rendering.run_eq_of_loads hok fun identifier hmem =>
      read_eq_of_get? (hother identifier (Rendered.mem_sorted.mpr (hrecords ▸ hmem)))
    rw [← h, perform, perform, hread]
  · have hmissing : (store.without file).read file = .error missing := by
      rw [read, get?_without, if_pos rfl]
    have hsame (key : Text) (hkey : key ≠ file) : (store.without file).read key = store.read key :=
      read_eq_of_get? (by rw [get?_without, if_neg hkey])
    have hloaded := Rendered.mem_sorted.mp hfile
    rw [hrecords] at hloaded
    have hfail := Rendering.result_of_missing hloaded hmissing hsame
    rw [perform, Rendered.ofOutcome, hfail]
    rfl

/-- A gazette with a masthead, a shared footer and an inclusion for every item. -/
def gazette : Store := .ofList
  [("masthead.yapl".toList,
      "<{% block lead %}{% endblock %}|{% block foot %}{% endblock %}>".toList),
    ("parts.yapl".toList, "{% block foot %}end{% endblock %}".toList),
    ("item.yapl".toList, "[{{ item }}]".toList),
    ("unused.yapl".toList, "{{ item }}".toList),
    ("issue.yapl".toList, writeTag .control "extends \"masthead\"".toList ++
      writeTag .control "mixin \"parts\"".toList ++
      "{% block lead %}{% for item in items %}".toList ++
      writeTag .control "include \"item\"".toList ++ "{% endfor %}{% endblock %}".toList)]

theorem usedFiles_gazette :
    let issue (store : Store) := store.perform (.file "issue".toList)
      [("items".toList, .array [.string "a".toList, .string "b".toList])]
    let files := ["issue.yapl".toList, "item.yapl".toList, "masthead.yapl".toList,
      "parts.yapl".toList]
    issue gazette = .ok ⟨"<[a][b]|end>".toList, files⟩ ∧
    issue (gazette.without "unused.yapl".toList) = .ok ⟨"<[a][b]|end>".toList, files⟩ ∧
    issue (gazette.without "item.yapl".toList) =
      .error (.loadFailed "item.yapl".toList missing) := by
  intro issue files
  have hissue : issue gazette = .ok ⟨"<[a][b]|end>".toList, files⟩ := by decide +kernel
  obtain ⟨-, hsame, hwithout⟩ := usedFiles_exact hissue
  exact ⟨hissue, hsame _ (by decide +kernel), hwithout _ (by decide)⟩

end Store
end Stencil
