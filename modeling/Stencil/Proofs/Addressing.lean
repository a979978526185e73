import Stencil.Proofs.FilePath.NormalForm
import Stencil.Proofs.Merging
import Stencil.Store

/-! Identifiers of templates in memory. Main statement: a template that is added under one spelling
of a path is found under every other one, since both are the path that is followed from the top. -/
namespace Stencil

namespace FilePath
variable {p : FilePath}

/-- The path from its start on, above which nothing lies. -/
def fromTop (p : FilePath) : FilePath := ⟨p.absolute, (FilePath.mk true p.steps).normalize.steps⟩

lemma fromTop_of_absolute (h : p.absolute = true) : p.fromTop = p.normalize := by
  obtain ⟨absolute, steps⟩ := p
  obtain rfl : absolute = true := h
  rfl

lemma fromTop_fromTop (p : FilePath) : p.fromTop.fromTop = p.fromTop := by
  have h := congrArg steps (normalize_normalize ⟨true, p.steps⟩)
  exact congrArg (FilePath.mk p.absolute) h

/-- One path behind another, as texts. -/
lemma ofText_append_slash {a : Text} (ha : a ≠ []) (b : Text) :
    ofText (a ++ '/' :: b) = ⟨(ofText a).absolute, (ofText a).steps ++ (ofText b).steps⟩ := by
  obtain ⟨c, a, rfl⟩ := List.exists_cons_of_ne_nil ha
  have hsplit : (c :: a ++ '/' :: b).splitOn '/' = (c :: a).splitOn '/' ++ b.splitOn '/' :=
    List.splitOnP_append_cons (c :: a) b (beq_self_eq_true '/')
  rw [ofText, hsplit, List.filterMap_append]
  rfl

lemma ofText_absolute_eq_false {s : Text} (h : s.head? ≠ some '/') :
    (ofText s).absolute = false := beq_eq_false_iff_ne.mpr h

end FilePath

namespace Location
open FilePath (IsName down write ofText)

/-- A leading slash or none, and then names with a slash between each two, or nothing. -/
def IsCanonical (s : Text) : Prop :=
  let path := (Text.after? ['/'] s).getD s
  path = [] ∨ ∀ segment ∈ path.splitOn '/', IsName segment

lemma isCanonical_write {names : List Text} (h : ∀ name ∈ names, IsName name) (absolute : Bool) :
    IsCanonical (write absolute names) := by
  have hpath : (Text.after? ['/'] (write absolute names)).getD (write absolute names) =
      ['/'].intercalate names := by
    cases absolute with
    | true => rfl
    | false =>
      have hnone : Text.after? ['/'] (write false names) = none := by
        refine Option.eq_none_iff_forall_ne_some.mpr fun rest hrest => ?_
        rw [Text.after?_eq_some_iff, List.singleton_append] at hrest
        have habsolute : (ofText (write false names)).absolute = false := by
          rw [FilePath.ofText_write h]
        rw [hrest] at habsolute
        cases habsolute
      rw [hnone]
      rfl
  rw [IsCanonical, hpath]
  cases names with
  | nil => exact .inl rfl
  | cons first rest =>
    rw [List.splitOn_intercalate '/' (fun name hname => (h name hname).not_mem_slash) (by simp)]
    exact .inr h

/-- Following segments is taking steps, as far as no step leads above the top. -/
lemma foldl_push_filterMap (segments reversed : List Text) :
    (segments.filterMap FilePath.stepOf?).foldl (FilePath.push true) (down reversed) =
      down (segments.foldl follow reversed) := by
  induction segments generalizing reversed with
  | nil => rfl
  | cons segment segments ih =>
    rw [List.filterMap_cons, List.foldl_cons, follow]
    by_cases hplain : segment = [] ∨ segment = ['.']
    · rw [FilePath.stepOf?, if_pos hplain, if_pos hplain]
      exact ih reversed
    · rw [FilePath.stepOf?, if_neg hplain, if_neg hplain]
      by_cases hdots : segment = ['.', '.']
      · rw [if_pos hdots, if_pos hdots, ← ih]
        cases reversed <;> rfl
      · rw [if_neg hdots, if_neg hdots, ← ih]
        rfl

/-- A canonical identifier has the names that the path leads to from the top. -/
lemma exists_canonical_eq (s : Text) : ∃ names, (∀ name ∈ names, IsName name) ∧
    (ofText s).fromTop = ⟨(ofText s).absolute, down names⟩ ∧
    canonical s = write (ofText s).absolute names := by
  have hsteps : (FilePath.mk true (ofText s).steps).normalize.steps =
      down ((s.splitOn '/').foldl follow []).reverse := by
    have h := foldl_push_filterMap (s.splitOn '/') []
    rw [FilePath.normalize, down, List.map_reverse]
    exact congrArg List.reverse h
  refine ⟨((s.splitOn '/').foldl follow []).reverse, fun name hname => ?_, ?_, ?_⟩
  · have hmem : some (.text name) ∈ (FilePath.mk true (ofText s).steps).normalize.steps := by
      rw [hsteps]
      exact List.mem_map_of_mem hname
    have hstep := FilePath.mem_steps_of_mem_normalize hmem
    exact FilePath.isName_of_mem_ofText hstep
  · rw [FilePath.fromTop, hsteps]
  · rw [canonical, write, ofText]
    simp only [beq_iff_eq]

lemma isCanonical_canonical (s : Text) : IsCanonical (canonical s) := by
  obtain ⟨names, hnames, -, hs⟩ := exists_canonical_eq s
  rw [hs]
  exact isCanonical_write hnames _

lemma ofText_canonical (s : Text) : ofText (canonical s) = (ofText s).fromTop := by
  obtain ⟨names, hnames, htop, hs⟩ := exists_canonical_eq s
  rw [hs, htop, FilePath.ofText_write hnames]

lemma text?_fromTop (s : Text) : (ofText s).fromTop.text? = some (canonical s) := by
  obtain ⟨names, -, htop, hs⟩ := exists_canonical_eq s
  rw [htop, hs]
  exact FilePath.text?_eq rfl

/-- Two spellings have one canonical form if they are the same path from the top. -/
lemma canonical_eq_iff {s t : Text} :
    canonical s = canonical t ↔ (ofText s).fromTop = (ofText t).fromTop := by
  constructor
  · intro h
    rw [← ofText_canonical, ← ofText_canonical, h]
  · intro h
    have htext := text?_fromTop s
    rw [h, text?_fromTop] at htext
    exact (Option.some.inj htext).symm

lemma canonical_canonical (s : Text) : canonical (canonical s) = canonical s := by
  rw [canonical_eq_iff, ofText_canonical, FilePath.fromTop_fromTop]

end Location

namespace Store
open FilePath (ofText)

/-- A reference leads from its directory, and nowhere above the top. -/
lemma ofText_resolve (reference directory : Text) : ofText (resolve reference directory) =
    ((ofText directory).join (ofText reference)).fromTop := by
  rw [resolve]
  split
  · rename_i h
    rw [Location.ofText_canonical]
    by_cases hslash : reference.head? = some '/'
    · have habsolute : (ofText reference).absolute = true := beq_iff_eq.mpr hslash
      rw [FilePath.join, if_pos habsolute]
    · obtain rfl := h.resolve_left hslash
      have hrelative := FilePath.ofText_absolute_eq_false hslash
      rw [FilePath.join, if_neg (by simp [hrelative])]
      exact congrArg FilePath.fromTop (congrArg (FilePath.mk · (ofText reference).steps) hrelative)
  · rename_i h
    obtain ⟨hslash, hdirectory⟩ := not_or.mp h
    have hrelative := FilePath.ofText_absolute_eq_false hslash
    rw [Location.ofText_canonical, FilePath.ofText_append_slash hdirectory, FilePath.join,
      if_neg (by simp [hrelative])]

lemma exists_resolve_eq (reference directory : Text) :
    ∃ s, resolve reference directory = Location.canonical s := by
  unfold resolve
  split
  · exact ⟨_, rfl⟩
  · exact ⟨_, rfl⟩

lemma ofList_append_singleton (templates : List (Text × Text)) (entry : Text × Text) :
    ofList (templates ++ [entry]) = (ofList templates).add entry.1 entry.2 := by
  rw [ofList, List.foldl_append]
  rfl

/-- The last template of an identifier is the one that is found. -/
lemma get?_ofList (templates : List (Text × Text)) (key : Text) :
    (ofList templates).get? key =
      (templates.reverse.find? fun entry => Location.canonical entry.1 = key).map (·.2) := by
  induction templates using List.reverseRecOn with
  | nil => rfl
  | append_singleton templates entry ih =>
    rw [ofList_append_singleton, get?, add, Entries.get?_insert, List.reverse_concat,
      List.find?_cons]
    by_cases h : Location.canonical entry.1 = key
    · simp [h]
    · rw [get?] at ih
      simpa [h] using ih

lemma keys_ofList (templates : List (Text × Text)) :
    (ofList templates).templates.keys =
      (templates.map fun entry => Location.canonical entry.1).eraseDups := by
  induction templates using List.reverseRecOn with
  | nil => rfl
  | append_singleton templates entry ih =>
    rw [ofList_append_singleton, add, Entries.keys_insert, ih, List.map_append, List.map_singleton,
      eraseDups_append_singleton]
    simp only [List.mem_eraseDups]

/-- After any row of additions a reference means a canonical identifier, the one of the path that
it leads to from its directory. All spellings of that path, and no other texts, have this
canonical form, and the identifier means itself at the top. What is loaded is the last of
the templates that were added under an identifier with the same canonical form, and the store
holds one template for each canonical form. -/
theorem ofList_addressing (templates : List (Text × Text)) (reference directory : Text) :
    let store := ofList templates
    let identifier := resolve reference directory
    Location.IsCanonical identifier ∧
    ofText identifier = ((ofText directory).join (ofText reference)).fromTop ∧
    (∀ s, Location.canonical s = identifier ↔ (ofText s).fromTop = ofText identifier) ∧
    resolve identifier [] = identifier ∧
    store.load identifier =
      (match templates.reverse.find? fun entry => Location.canonical entry.1 = identifier with
      | some entry => .ok entry.2
      | none => .error (.loadFailed identifier missing)) ∧
    store.size = (templates.map fun entry => Location.canonical entry.1).toFinset.card := by
  intro store identifier
  obtain ⟨s, hs⟩ := exists_resolve_eq reference directory
  refine ⟨?_, ofText_resolve reference directory, fun other => ?_, ?_, ?_, ?_⟩
  · change Location.IsCanonical (resolve reference directory)
    rw [hs]
    exact Location.isCanonical_canonical s
  · change _ = resolve reference directory ↔ _ = ofText (resolve reference directory)
    rw [hs, Location.canonical_eq_iff, Location.ofText_canonical]
  · change resolve (resolve reference directory) [] = resolve reference directory
    rw [hs, resolve, if_pos (.inr rfl)]
    exact Location.canonical_canonical s
  · rw [load, read, get?_ofList]
    cases templates.reverse.find? fun entry => Location.canonical entry.1 = identifier <;> rfl
  · have hsize : store.size = store.templates.keys.length := (List.length_map _).symm
    rw [hsize, keys_ofList, ← List.toFinset_card_of_nodup (nodup_eraseDups _)]
    congr 1
    ext key
    simp only [List.mem_toFinset, List.mem_eraseDups]

end Store
end Stencil
