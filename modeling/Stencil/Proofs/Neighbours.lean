import Stencil.Proofs.Addressing
import Stencil.Proofs.Confinement

/-! References to templates beside the one that makes them. Main statement: a relative reference
starts in the directory of its template, unless the template lies right below the root, the
directory of which is taken for no directory at all. -/
namespace Stencil
open FilePath (IsName Written down write ofText)

namespace FilePath
variable {names : List Text}

/-- The directory of a file; the root lies in itself. -/
def parent (p : FilePath) : FilePath := ⟨p.absolute, p.steps.dropLast⟩

/-- Where a reference leads from the directory of a file. -/
def beside (file reference : FilePath) : FilePath := (file.parent.join reference).normalize

lemma parent_down (names : List Text) : parent ⟨true, down names⟩ = ⟨true, down names.dropLast⟩ := by
  rw [parent, down, down, List.map_dropLast]

lemma beside_eq (names : List Text) {reference : Text} (h : reference.head? ≠ some '/') :
    beside ⟨true, down names⟩ (ofText reference) =
      (FilePath.mk true (down names.dropLast ++ (ofText reference).steps)).normalize := by
  rw [beside, parent_down, join, if_neg (by simp [ofText_absolute_eq_false h])]

lemma mem_beside {reference : Text} (h : reference.head? ≠ some '/') {step : Step}
    (hstep : step ∈ (beside ⟨true, down names⟩ (ofText reference)).steps) :
    (∃ name ∈ names, step = some (.text name)) ∨ step ∈ (ofText reference).steps := by
  rw [beside_eq names h] at hstep
  rcases List.mem_append.mp (mem_steps_of_mem_normalize hstep) with hstep | hstep
  · obtain ⟨name, hname, rfl⟩ := List.mem_map.mp hstep
    exact .inl ⟨name, List.dropLast_subset names hname, rfl⟩
  · exact .inr hstep

/-- What lies beside a text can be written as a text. -/
lemma exists_text?_beside (hnames : ∀ name ∈ names, IsName name) {reference : Text}
    (h : reference.head? ≠ some '/') :
    ∃ s, (beside ⟨true, down names⟩ (ofText reference)).text? = some s ∧
      ofText s = beside ⟨true, down names⟩ (ofText reference) := by
  obtain ⟨s, hs⟩ := exists_text? fun step (hstep : step ∈ (beside ⟨true, down names⟩
      (ofText reference)).steps) hup => by
    rcases mem_beside h hstep with ⟨name, -, rfl⟩ | hstep
    · exact ⟨name, rfl⟩
    · exact exists_text_of_mem_ofText hstep hup
  refine ⟨s, hs, ofText_of_text? (fun name hname => ?_) hs⟩
  rcases mem_beside h hname with ⟨other, hother, heq⟩ | hname
  · obtain rfl : name = other := by simpa using heq
    exact hnames name hother
  · exact isName_of_mem_ofText hname

lemma write_concat (names : List Text) (last : Text) : write true (names ++ [last]) =
    (if names = [] then [] else write true names) ++ '/' :: last := by
  induction names with
  | nil => simp [write]
  | cons first names ih =>
    have hcons (rest : List Text) (hrest : rest ≠ []) :
        write true (first :: rest) = '/' :: first ++ write true rest := by
      simp [write, List.intercalate_cons_of_ne_nil hrest]
    rw [List.cons_append, hcons _ (by simp), ih, if_neg (List.cons_ne_nil first names)]
    by_cases hnames : names = []
    · subst hnames
      simp [write]
    · rw [if_neg hnames, hcons _ hnames]
      simp

end FilePath

namespace Location
variable {names : List Text}

lemma directory_append_slash (a : Text) {last : Text} (h : ∀ c ∈ last, isSeparator c = false) :
    directory (a ++ '/' :: last) = a := by
  have hlast : (last.reverse ++ '/' :: a.reverse).dropWhile (fun c => !isSeparator c) =
      '/' :: a.reverse := by
    rw [List.dropWhile_append_of_pos fun c hc => by simp [h c (List.mem_reverse.mp hc)]]
    rfl
  rw [directory, List.reverse_append, List.reverse_cons, List.append_assoc, List.singleton_append,
    hlast, List.drop_one, List.tail_cons, List.reverse_reverse]

/-- Right below the root there is no directory, and elsewhere it is the path without its end. -/
lemma directory_write (hnames : ∀ name ∈ names, IsName name) (h : '\\' ∉ write true names) :
    directory (write true names) =
      if names.length < 2 then [] else write true names.dropLast := by
  rcases List.eq_nil_or_concat names with rfl | ⟨init, last, rfl⟩
  · rfl
  · rw [List.concat_eq_append] at hnames h ⊢
    rw [FilePath.write_concat] at h ⊢
    have hlast : ∀ c ∈ last, isSeparator c = false := by
      intro c hc
      have hslash : c ≠ '/' := fun heq =>
        (hnames last (by simp)).not_mem_slash (heq ▸ hc)
      have hbackslash : c ≠ '\\' := fun heq => h (by simp [heq ▸ hc])
      simp [isSeparator, hslash, hbackslash]
    rw [directory_append_slash _ hlast, List.dropLast_concat, List.length_append,
      List.length_singleton]
    cases init <;> simp

/-- An absolute identifier, with slashes only between its segments. -/
structure IsRooted (identifier : Text) : Prop where
  head_eq : identifier.head? = some '/'
  no_backslash : '\\' ∉ identifier

/-- The number of steps from the root. -/
def depth (identifier : Text) : ℕ := (ofText identifier).steps.length

lemma depth_write (hnames : ∀ name ∈ names, IsName name) :
    depth (write true names) = names.length := by
  rw [depth, FilePath.ofText_write hnames]
  exact List.length_map _

end Location

namespace Store
open Location (IsRooted depth directory)

/-- The reference means what lies there as seen from the identifier's own directory. -/
def ResolvesBeside (identifier reference : Text) : Prop :=
  ((ofText identifier).beside (ofText reference)).text? =
    some (resolve reference (directory identifier))

lemma resolvesBeside_iff {names : List Text} (hnames : ∀ name ∈ names, IsName name)
    (h : '\\' ∉ write true names) {reference : Text} (hrelative : reference.head? ≠ some '/') :
    ResolvesBeside (write true names) reference ↔ 2 ≤ names.length := by
  obtain ⟨s, hs, hread⟩ := FilePath.exists_text?_beside hnames hrelative
  rw [ResolvesBeside, FilePath.ofText_write hnames, hs, Location.directory_write hnames h,
    Option.some_inj]
  by_cases hlength : names.length < 2
  · refine iff_of_false (fun heq => ?_) (by omega)
    rw [if_pos hlength, resolve, if_pos (.inr rfl)] at heq
    have habsolute : (ofText s).absolute = (ofText reference).absolute := by
      rw [heq, Location.ofText_canonical]
      rfl
    rw [hread, FilePath.beside_eq names hrelative,
      FilePath.ofText_absolute_eq_false hrelative] at habsolute
    exact Bool.noConfusion habsolute
  · refine iff_of_true ?_ (by omega)
    have hparent : ∀ name ∈ names.dropLast, IsName name := fun name hname =>
      hnames name (List.dropLast_subset names hname)
    have hgoal := ofText_resolve reference (write true names.dropLast)
    rw [FilePath.ofText_write hparent, FilePath.join,
      if_neg (by simp [FilePath.ofText_absolute_eq_false hrelative]),
      FilePath.fromTop_of_absolute rfl, ← FilePath.beside_eq names hrelative] at hgoal
    obtain ⟨t, ht⟩ := exists_resolve_eq reference (write true names.dropLast)
    have htext := Location.text?_fromTop t
    rw [← Location.ofText_canonical, ← ht, hgoal, hs] at htext
    rw [if_neg hlength]
    exact Option.some.inj htext

end Store

namespace FileResolver
open Location (IsRooted depth directory)
variable {r : FileResolver}

/-- The reference means what lies there as seen from the identifier's own directory, or is refused
for leading out of the base. -/
def ResolvesBeside (r : FileResolver) (identifier reference : Text) : Prop :=
  let goal := (ofText identifier).beside (ofText reference)
  ∃ s, goal.text? = some s ∧ r.resolve reference (directory identifier) =
    if r.strict && !goal.startsWith r.base then .error (.pathEscape reference r.base.display)
    else .ok s

lemma resolve_eq_of_target {reference directory s : Text} {goal : FilePath}
    (hgoal : r.target reference directory = goal) (hs : goal.text? = some s) :
    r.resolve reference directory =
      if r.strict && !goal.startsWith r.base then .error (.pathEscape reference r.base.display)
      else .ok s := by
  rw [resolve, hgoal, hs]

lemma eq_text_of_resolve {reference directory identifier : Text}
    (h : r.resolve reference directory = .ok identifier) :
    (r.target reference directory).text? = some identifier := by
  rw [resolve] at h
  split at h
  · cases h
  · split at h
    · rename_i s hs
      obtain rfl := Except.ok.inj h
      exact hs
    · cases h

/-- The names in the base of a resolver are names of files. -/
lemma isName_ofBase {workingDirectory base : FilePath} (hworking : workingDirectory.Written)
    (hbase : base.Written) (strict : Bool) {name : Text}
    (h : some (.text name) ∈ (ofBase workingDirectory base strict).base.steps) : IsName name := by
  have hjoin := FilePath.mem_steps_of_mem_normalize h
  rw [FilePath.join] at hjoin
  split at hjoin
  · exact hbase.isName hjoin
  · exact (List.mem_append.mp hjoin).elim hworking.isName hbase.isName

variable (hbase : ∀ name, some (.text name) ∈ r.base.steps → IsName name)
include hbase

/-- An absolute identifier that the resolver answers with is a row of names. -/
lemma exists_write_of_resolve {reference directory identifier : Text}
    (hok : r.resolve reference directory = .ok identifier) (hhead : identifier.head? = some '/') :
    ∃ names, (∀ name ∈ names, IsName name) ∧ identifier = write true names := by
  have htext := eq_text_of_resolve hok
  have hname : ∀ name, some (.text name) ∈ (r.target reference directory).steps →
      IsName name := by
    intro name hname
    rcases Anchored.mem_target reference directory hname with hname | hname | hname
    · exact hbase name hname
    · exact FilePath.isName_of_mem_ofText hname
    · exact FilePath.isName_of_mem_ofText hname
  have habsolute : (r.target reference directory).absolute = true := by
    rw [← FilePath.ofText_of_text? hname htext]
    exact beq_iff_eq.mpr hhead
  have hup : FilePath.up ∉ (r.target reference directory).steps :=
    FilePath.up_not_mem_normalize habsolute
  obtain ⟨names, hnames, heq⟩ := FilePath.exists_of_text? hup htext
  rw [habsolute] at heq
  refine ⟨names, fun name hmem => hname name ?_, heq⟩
  rw [hnames]
  exact List.mem_map_of_mem hmem

omit hbase in
/-- An absolute directory hides the base. -/
lemma target_write {names : List Text} (hnames : ∀ name ∈ names, IsName name) (reference : Text) :
    r.target reference (write true names.dropLast) =
      FilePath.beside ⟨true, down names⟩ (ofText reference) := by
  have hparent : ∀ name ∈ names.dropLast, IsName name := fun name hname =>
    hnames name (List.dropLast_subset names hname)
  rw [target, FilePath.ofText_write hparent, FilePath.beside, FilePath.parent_down]
  rfl

omit hbase in
/-- The empty reference means the base. -/
lemma resolve_nil (hnormal : r.base.normalize = r.base) : r.resolve [] [] =
    match r.base.text? with
    | some s => .ok s
    | none => .error (.resolveFailed [] [] "path is not valid UTF-8".toList) := by
  have hjoin (p : FilePath) : p.join (ofText []) = p := by
    rw [FilePath.join, if_neg (by decide)]
    exact congrArg (FilePath.mk p.absolute) (List.append_nil p.steps)
  have htarget : r.target [] [] = r.base := by rw [target, hjoin, hjoin, hnormal]
  have hself : r.base.startsWith r.base = true := by rw [FilePath.startsWith_iff rfl]
  rw [resolve, htarget, hself, Bool.not_true, Bool.and_false]
  rfl

omit hbase in
/-- From the root a reference leads to what lies beside an identifier right below it. -/
lemma target_root (hroot : r.base = ⟨true, []⟩) {names : List Text} (hlength : names.length < 2)
    (reference : Text) :
    r.target reference [] = FilePath.beside ⟨true, down names⟩ (ofText reference) := by
  have hdrop : names.dropLast = [] := List.eq_nil_of_length_eq_zero (by simp; omega)
  rw [target, hroot, FilePath.beside, FilePath.parent_down, hdrop]
  rfl

/-- Right below the root a reference means the same as without a directory. That is what lies
beside the identifier only if the base is the root: the empty reference tells them apart. -/
lemma forall_resolvesBeside_iff (hnormal : r.base.normalize = r.base) {names : List Text}
    (hnames : ∀ name ∈ names, IsName name) (h : '\\' ∉ write true names) :
    (∀ reference : Text, reference.head? ≠ some '/' →
      r.ResolvesBeside (write true names) reference) ↔
    2 ≤ names.length ∨ r.base = ⟨true, []⟩ := by
  simp only [ResolvesBeside, FilePath.ofText_write hnames, Location.directory_write hnames h]
  constructor
  · intro hall
    by_contra hnot
    obtain ⟨hlength, hroot⟩ := not_or.mp hnot
    obtain ⟨s, hs, hresolve⟩ := hall [] (by simp)
    have hdrop : names.dropLast = [] := List.eq_nil_of_length_eq_zero (by simp; omega)
    have hgoal : FilePath.beside ⟨true, down names⟩ (ofText []) = ⟨true, []⟩ := by
      rw [FilePath.beside_eq names (by simp), hdrop]
      rfl
    rw [hgoal] at hs
    obtain rfl : ['/'] = s := Option.some.inj hs
    rw [if_pos (by omega), resolve_nil hnormal] at hresolve
    cases htext : r.base.text? with
    | none =>
      simp only [htext] at hresolve
      split at hresolve <;> cases hresolve
    | some t =>
      simp only [htext] at hresolve
      split at hresolve
      · cases hresolve
      · obtain rfl : t = ['/'] := Except.ok.inj hresolve
        exact hroot (FilePath.ofText_of_text? hbase htext).symm
  · intro hcases reference hrelative
    obtain ⟨s, hs, -⟩ := FilePath.exists_text?_beside hnames hrelative
    refine ⟨s, hs, resolve_eq_of_target ?_ hs⟩
    by_cases hlength : names.length < 2
    · rw [if_pos hlength]
      exact target_root (hcases.resolve_left (by omega)) hlength reference
    · rw [if_neg hlength]
      exact target_write hnames reference

end FileResolver

namespace Location

/-- The relative references of a template whose identifier is absolute and has been answered by a
resolver. In memory such a reference starts in the template's own directory exactly if that is not
the root; otherwise it is taken for a reference without a directory and is not absolute any more.
So it is among files, where a reference without a directory starts in the base: it starts in the
template's own directory if that is not the root, and for all references only if the base is. -/
theorem resolvesBeside_iff_depth {identifier : Text} (hrooted : IsRooted identifier) :
    ((∃ reference directory, Store.resolve reference directory = identifier) →
      ∀ reference : Text, reference.head? ≠ some '/' →
        (Store.ResolvesBeside identifier reference ↔ 2 ≤ depth identifier) ∧
        (depth identifier < 2 →
          Store.resolve reference (directory identifier) = canonical reference)) ∧
    ∀ workingDirectory base : FilePath, workingDirectory.Written → base.Written →
      ∀ strict : Bool,
        let r := FileResolver.ofBase workingDirectory base strict
        (∃ reference directory, r.resolve reference directory = .ok identifier) →
          (2 ≤ depth identifier → ∀ reference : Text, reference.head? ≠ some '/' →
            r.ResolvesBeside identifier reference) ∧
          (depth identifier < 2 → ∀ reference,
            r.resolve reference (directory identifier) = r.resolve reference []) ∧
          ((∀ reference : Text, reference.head? ≠ some '/' →
              r.ResolvesBeside identifier reference) ↔
            2 ≤ depth identifier ∨ r.base = ⟨true, []⟩) := by
  constructor
  · rintro ⟨reference', directory', hresolve⟩ reference hrelative
    obtain ⟨s, hs⟩ := Store.exists_resolve_eq reference' directory'
    obtain ⟨names, hnames, -, hwrite⟩ := exists_canonical_eq s
    have habsolute : (ofText s).absolute = true := by
      have h := congrArg FilePath.absolute (ofText_canonical s)
      rw [← hs, hresolve] at h
      exact h.symm.trans (beq_iff_eq.mpr hrooted.head_eq)
    obtain rfl : write true names = identifier := by rw [← hresolve, hs, hwrite, habsolute]
    rw [depth_write hnames]
    refine ⟨Store.resolvesBeside_iff hnames hrooted.no_backslash hrelative, fun hlength => ?_⟩
    rw [directory_write hnames hrooted.no_backslash, if_pos hlength, Store.resolve,
      if_pos (.inr rfl)]
  · rintro workingDirectory base hworking hbase strict r ⟨reference', directory', hresolve⟩
    have hname : ∀ name, some (.text name) ∈ r.base.steps → IsName name :=
      fun name => FileResolver.isName_ofBase hworking hbase strict
    obtain ⟨names, hnames, rfl⟩ :=
      FileResolver.exists_write_of_resolve hname hresolve hrooted.head_eq
    have hall := FileResolver.forall_resolvesBeside_iff hname (FilePath.normalize_normalize _) hnames
      hrooted.no_backslash
    rw [depth_write hnames]
    refine ⟨fun hlength => hall.mpr (.inl hlength), fun hlength reference => ?_, hall⟩
    rw [directory_write hnames hrooted.no_backslash, if_pos hlength]

/-- A page in a directory of its own, in memory and on a disk. -/
theorem resolvesBeside_page :
    let identifier := "/srv/pages/one".toList
    let r := FileResolver.ofBase ⟨true, []⟩ (ofText "/srv".toList) true
    Store.ResolvesBeside identifier "../two".toList ∧ r.ResolvesBeside identifier "../two".toList ∧
      r.ResolvesBeside identifier "../../two".toList := by
  intro identifier r
  have hrooted : IsRooted identifier := ⟨by decide, by decide⟩
  have hdepth : 2 ≤ depth identifier := by decide +kernel
  obtain ⟨hmemory, hfiles⟩ := resolvesBeside_iff_depth hrooted
  have hstore : Store.resolve identifier [] = identifier := by decide +kernel
  have hfile : r.resolve identifier [] = .ok identifier := by decide +kernel
  obtain ⟨hbeside, -⟩ := hfiles ⟨true, []⟩ (ofText "/srv".toList) (.text ['/']) (.text _) true
    ⟨identifier, [], hfile⟩
  exact ⟨(hmemory ⟨identifier, [], hstore⟩ _ (by decide)).1.mpr hdepth,
    hbeside hdepth _ (by decide), hbeside hdepth _ (by decide)⟩

/-- Right below the root the template beside is not found. -/
theorem render_below_root :
    (Store.ofList [("/a.yapl".toList, writeTag .control "include \"b\"".toList),
      ("/b.yapl".toList, ['B'])]).renderFile "/a".toList =
        .error (.loadFailed "b.yapl".toList Store.missing) ∧
    (FileResolver.ofBase ⟨true, []⟩ (ofText "/srv".toList) false).resolve "b.yapl".toList
      (directory "/a.yapl".toList) = .ok "/srv/b.yapl".toList := by
  constructor <;> decide +kernel

end Location
end Stencil
