import Stencil.FileResolver
import Stencil.FileTask
import Stencil.Proofs.Congruence
import Stencil.Proofs.Dependence
import Stencil.Proofs.FilePath
import Stencil.Proofs.Snapshot

/-! Confinement to a base directory. A rendering asks for nothing but what its resolver answers
with, and a strict resolver of files answers with identifiers below its base only. -/
namespace Stencil

namespace Rendering

/-- Whatever it is answered, the rendering asks for templates in `P` only. -/
def AsksOnly (P : Text → Prop) : {α : Type} → Rendering α → Prop
  | _, .done _ | _, .failed _ | _, .use _ => True
  | _, .load identifier => P identifier
  | _, .andThen x f => AsksOnly P x ∧ ∀ a, AsksOnly P (f a)

variable {P : Text → Prop} {α β : Type} {identifier : Text}

lemma AsksOnly.bind {x : Rendering α} {f : α → Rendering β} (hx : AsksOnly P x)
    (hf : ∀ a, AsksOnly P (f a)) : AsksOnly P (x >>= f) := by
  cases x with
  | done a => exact hf a
  | failed e => trivial
  | load identifier => exact ⟨hx, hf⟩
  | use identifier => exact ⟨hx, hf⟩
  | andThen x g => exact ⟨hx, hf⟩

lemma congruence_asksOnly (P : Text → Prop) : Congruence fun _ x _ => AsksOnly P x where
  done _ := trivial
  bind := AsksOnly.bind

lemma AsksOnly.of_mem_loads {x : Rendering α} (h : AsksOnly P x) {read : Text → Except Text Text}
    (hmem : identifier ∈ x.loads read) : P identifier := by
  induction x with
  | done a => cases hmem
  | failed e => cases hmem
  | use key => cases hmem
  | load key =>
    rw [loads] at hmem
    cases hread : read key with
    | error reason => simp [hread] at hmem
    | ok content =>
      obtain rfl : identifier = key := by simpa [hread] using hmem
      exact h
  | andThen x f ihx ihf =>
    cases hx : (x.run read).result with
    | error e =>
      rw [loads_andThen_of_error hx] at hmem
      exact ihx h.1 hmem
    | ok a =>
      rw [loads_andThen_of_ok hx] at hmem
      rcases List.mem_append.mp hmem with hmem | hmem
      · exact ihx h.1 hmem
      · exact ihf a (h.2 a) hmem

end Rendering

namespace Renderer
open Rendering (AsksOnly congruence_asksOnly)
variable {P : Text → Prop} {r : Renderer}

/-- All that the resolver answers with is in `P`. -/
def ResolvesInto (r : Renderer) (P : Text → Prop) : Prop :=
  ∀ resolve, r.resolver = some resolve → ∀ reference directory identifier,
    resolve reference directory = .ok identifier → P identifier

lemma asksOnly_fetch (hr : r.ResolvesInto P) (reference directory : Text) :
    AsksOnly P (r.fetch reference directory) := by
  have hload (identifier : Text) (hP : P identifier) : AsksOnly P (do
      let source ← r.load identifier
      return (identifier, source)) := by
    unfold load
    split
    · exact ⟨hP, fun _ => trivial⟩
    · trivial
  unfold fetch resolve
  split
  · trivial
  · rename_i resolve hresolve
    cases hanswer : resolve (Location.withExtension reference r.options.extension) directory with
    | error e => trivial
    | ok identifier => exact hload identifier (hr resolve hresolve _ _ identifier hanswer)

/-- A rendering asks for what its resolver answers with, and for nothing else. -/
theorem asksOnly_perform (hr : r.ResolvesInto P) (vars : Fields) (call : Call) :
    AsksOnly P (r.perform vars call) := by
  have hrelated : Related (fun _ x _ => AsksOnly P x) r r :=
    { congruence := congruence_asksOnly P
      whitespace := rfl
      consult := fun reference directory hf => by
        exact (asksOnly_fetch hr reference directory).bind fun found => ⟨trivial, fun _ => hf found⟩
      items := fun source vars => by unfold Rendering.ofExcept; split <;> trivial
      tooDeep := fun _ => trivial }
  exact hrelated.perform rfl le_rfl vars call

end Renderer

namespace FileResolver
open FilePath (IsName Written down write)

/-- An absolute identifier without `.`, `..` and empty segments, of which the first ones lead to
the base. -/
def LiesBelow (base : FilePath) (identifier : Text) : Prop :=
  ∃ names, identifier = write true names ∧ (∀ name ∈ names, IsName name) ∧
    base.steps <+: down names

/-- The base is absolute and in normal form, and its names are names of files. -/
structure Anchored (r : FileResolver) : Prop where
  strict : r.strict = true
  absolute : r.base.absolute = true
  up_not_mem : FilePath.up ∉ r.base.steps
  isName : ∀ name, some (.text name) ∈ r.base.steps → IsName name

namespace Anchored
variable {r : FileResolver} (h : r.Anchored) (reference directory : Text)
include h

lemma target_absolute : (r.target reference directory).absolute = true := by
  simp only [target, FilePath.normalize, FilePath.join]
  split
  · assumption
  · dsimp only
    split
    · assumption
    · exact h.absolute

lemma up_not_mem_target : FilePath.up ∉ (r.target reference directory).steps :=
  FilePath.up_not_mem_normalize (h.target_absolute reference directory)

lemma ne_up_of_mem_target {step : FilePath.Step}
    (hstep : step ∈ (r.target reference directory).steps) : step ≠ FilePath.up := by
  rintro rfl
  exact h.up_not_mem_target reference directory hstep

omit h in
lemma mem_target {step : FilePath.Step} (hstep : step ∈ (r.target reference directory).steps) :
    step ∈ r.base.steps ∨ step ∈ (FilePath.ofText directory).steps ∨
      step ∈ (FilePath.ofText reference).steps := by
  have hjoin := FilePath.mem_steps_of_mem_normalize hstep
  unfold FilePath.join at hjoin
  split at hjoin
  · exact .inr (.inr hjoin)
  · rcases List.mem_append.mp hjoin with hjoin | hjoin
    · split at hjoin
      · exact .inr (.inl hjoin)
      · rcases List.mem_append.mp hjoin with hjoin | hjoin
        · exact .inl hjoin
        · exact .inr (.inl hjoin)
    · exact .inr (.inr hjoin)

lemma isName_target {name : Text}
    (hname : some (.text name) ∈ (r.target reference directory).steps) : IsName name := by
  rcases mem_target reference directory hname with hname | hname | hname
  · exact h.isName name hname
  · exact FilePath.isName_of_mem_ofText hname
  · exact FilePath.isName_of_mem_ofText hname

lemma startsWith_target : (r.target reference directory).startsWith r.base = true ↔
    r.base.steps <+: (r.target reference directory).steps :=
  FilePath.startsWith_iff ((h.target_absolute reference directory).trans h.absolute.symm)

lemma resolve_eq : r.resolve reference directory =
    if r.base.steps <+: (r.target reference directory).steps then
      match (r.target reference directory).text? with
      | some identifier => .ok identifier
      | none => .error (.resolveFailed reference directory "path is not valid UTF-8".toList)
    else .error (.pathEscape reference r.base.display) := by
  have hstarts := h.startsWith_target reference directory
  rw [resolve, h.strict, Bool.true_and]
  by_cases hbelow : r.base.steps <+: (r.target reference directory).steps
  · rw [if_pos hbelow, hstarts.mpr hbelow]
    rfl
  · have hfalse : (r.target reference directory).startsWith r.base = false := by
      rw [← Bool.not_eq_true, hstarts]
      exact hbelow
    rw [if_neg hbelow, hfalse]
    rfl

lemma resolve_eq_ok {identifier : Text} (hok : r.resolve reference directory = .ok identifier) :
    ∃ names, (r.target reference directory).steps = down names ∧ identifier = write true names ∧
      (∀ name ∈ names, IsName name) ∧ r.base.steps <+: down names := by
  rw [h.resolve_eq] at hok
  split at hok
  · rename_i hbelow
    cases htext : (r.target reference directory).text? with
    | none => rw [htext] at hok; cases hok
    | some s =>
      rw [htext] at hok
      obtain rfl : s = identifier := Except.ok.inj hok
      obtain ⟨names, hnames, rfl⟩ :=
        FilePath.exists_of_text? (h.up_not_mem_target reference directory) htext
      rw [hnames] at hbelow
      refine ⟨names, hnames, ?_, fun name hname => ?_, hbelow⟩
      · rw [h.target_absolute]
      · apply h.isName_target reference directory
        rw [hnames]
        exact List.mem_map_of_mem hname
  · cases hok

lemma liesBelow_of_resolve {identifier : Text}
    (hok : r.resolve reference directory = .ok identifier) : LiesBelow r.base identifier := by
  obtain ⟨names, -, hwrite, hnames, hbelow⟩ := h.resolve_eq_ok reference directory hok
  exact ⟨names, hwrite, hnames, hbelow⟩

omit h in
lemma target_of_absolute {identifier : Text} {p : FilePath} (hp : FilePath.ofText identifier = p)
    (habsolute : p.absolute = true) (hup : FilePath.up ∉ p.steps) :
    r.target identifier directory = p := by
  rw [target, FilePath.join, hp, if_pos habsolute, FilePath.normalize_of_up_not_mem hup]

/-- An identifier means itself. -/
lemma resolve_identifier {identifier : Text} (hbelow : LiesBelow r.base identifier) :
    r.resolve identifier directory = .ok identifier := by
  obtain ⟨names, rfl, hnames, hprefix⟩ := hbelow
  have htarget : r.target (write true names) directory = ⟨true, down names⟩ :=
    target_of_absolute directory (FilePath.ofText_write hnames) rfl (by simp [FilePath.up, down])
  rw [h.resolve_eq, htarget, if_pos hprefix, FilePath.text?_eq (p := ⟨true, down names⟩) rfl]

/-- A reference that leads below the base means something unless the base has no text. -/
lemma exists_resolve_eq_ok : (∃ identifier, r.resolve reference directory = .ok identifier) ↔
    r.base.steps <+: (r.target reference directory).steps ∧ r.base.text?.isSome = true := by
  constructor
  · rintro ⟨identifier, hok⟩
    obtain ⟨names, hsteps, -, -, hbelow⟩ := h.resolve_eq_ok reference directory hok
    refine ⟨hsteps ▸ hbelow, ?_⟩
    have hbase : r.base.steps = down (names.take r.base.steps.length) := by
      rw [down, List.map_take]
      exact List.prefix_iff_eq_take.mp hbelow
    rw [FilePath.text?_eq hbase]
    rfl
  · rintro ⟨hbelow, htext⟩
    obtain ⟨s, hs⟩ := Option.isSome_iff_exists.mp htext
    obtain ⟨baseNames, hbase, -⟩ := FilePath.exists_of_text? h.up_not_mem hs
    have hnames : ∃ names, (r.target reference directory).steps = down names := by
      refine FilePath.exists_eq_down fun step hstep => ?_
      rcases mem_target reference directory hstep with hmem | hmem | hmem
      · rw [hbase] at hmem
        obtain ⟨name, -, rfl⟩ := List.mem_map.mp hmem
        exact ⟨name, rfl⟩
      · exact FilePath.exists_text_of_mem_ofText hmem (h.ne_up_of_mem_target _ _ hstep)
      · exact FilePath.exists_text_of_mem_ofText hmem (h.ne_up_of_mem_target _ _ hstep)
    obtain ⟨names, hnames⟩ := hnames
    exact ⟨_, by rw [h.resolve_eq, if_pos hbelow, FilePath.text?_eq hnames]⟩

lemma resolve_escapes : (∃ e, r.resolve reference directory = .error e ∧
      e.code = "PATH_ESCAPE".toList) ↔
    ¬ r.base.steps <+: (r.target reference directory).steps := by
  rw [h.resolve_eq]
  split
  · rename_i hbelow
    refine iff_of_false ?_ (not_not_intro hbelow)
    rintro ⟨e, he, hcode⟩
    cases htext : (r.target reference directory).text? with
    | some identifier =>
      rw [htext] at he
      cases he
    | none =>
      rw [htext] at he
      obtain rfl := Except.error.inj he
      have hother : "RESOLVE_FAILED".toList ≠ "PATH_ESCAPE".toList := by decide
      exact absurd hcode hother
  · rename_i hbelow
    exact iff_of_true ⟨_, rfl, rfl⟩ hbelow

end Anchored

lemma base_ofBase (workingDirectory : FilePath) {base : FilePath} (hbase : base.absolute = true)
    (strict : Bool) : (ofBase workingDirectory base strict).base = base.normalize := by
  rw [ofBase, FilePath.join, if_pos hbase]

lemma anchored_ofBase (workingDirectory : FilePath) {base : FilePath}
    (hbase : base.absolute = true) (hwritten : base.Written) :
    (ofBase workingDirectory base true).Anchored where
  strict := rfl
  absolute := by rw [base_ofBase workingDirectory hbase]; exact hbase
  up_not_mem := by
    rw [base_ofBase workingDirectory hbase]
    exact FilePath.up_not_mem_normalize hbase
  isName name hname := by
    rw [base_ofBase workingDirectory hbase] at hname
    exact hwritten.isName (FilePath.mem_steps_of_mem_normalize hname)

/-- A strict resolver with an absolute base. It answers exactly if the reference leads below the
base and the base is a text, and it refuses exactly what leads out of the base; an identifier lies
below the base and means itself everywhere. All that a rendering with this resolver uses lies below
the base, wherever the templates come from. -/
theorem resolve_confined (workingDirectory : FilePath) {base : FilePath}
    (hbase : base.absolute = true) (hwritten : base.Written) :
    let r := ofBase workingDirectory base true
    (∀ reference directory : Text,
      let goal :=
        ((base.normalize.join (.ofText directory)).join (.ofText reference)).normalize
      (∀ identifier, r.resolve reference directory = .ok identifier →
        LiesBelow base.normalize identifier ∧
        ∀ elsewhere, r.resolve identifier elsewhere = .ok identifier) ∧
      ((∃ identifier, r.resolve reference directory = .ok identifier) ↔
        base.normalize.steps <+: goal.steps ∧ base.normalize.text?.isSome = true) ∧
      ((∃ e, r.resolve reference directory = .error e ∧ e.code = "PATH_ESCAPE".toList) ↔
        ¬ base.normalize.steps <+: goal.steps)) ∧
    ∀ renderer : Renderer, renderer.resolver = some r.resolve →
      ∀ (vars : Fields) (call : Call) (content : Text) (files : List Text),
        (∀ read, Rendered.ofOutcome ((renderer.perform vars call).run read) =
          .ok ⟨content, files⟩ → ∀ file ∈ files, LiesBelow base.normalize file) ∧
        ∀ (loader : FileLoader) (disk : Disk),
          Rendered.ofOutcome ((loader.render (renderer.perform vars call)).run disk).2 =
            .ok ⟨content, files⟩ → ∀ file ∈ files, LiesBelow base.normalize file := by
  intro r
  have h : r.Anchored := anchored_ofBase workingDirectory hbase hwritten
  have hr : r.base = base.normalize := base_ofBase workingDirectory hbase true
  refine ⟨fun reference directory => ?_, fun renderer hresolver vars call content files => ?_⟩
  · intro goal
    have hgoal : r.target reference directory = goal := by rw [target, hr]
    refine ⟨fun identifier hok => ?_, ?_, ?_⟩
    · have hbelow := h.liesBelow_of_resolve reference directory hok
      exact ⟨hr ▸ hbelow, fun elsewhere => h.resolve_identifier elsewhere hbelow⟩
    · rw [← hgoal, ← hr]
      exact h.exists_resolve_eq_ok reference directory
    · rw [← hgoal, ← hr]
      exact h.resolve_escapes reference directory
  · have hinto : renderer.ResolvesInto (LiesBelow base.normalize) := by
      intro resolve hresolve reference directory identifier hok
      obtain rfl : r.resolve = resolve := Option.some.inj (hresolver.symm.trans hresolve)
      exact hr ▸ h.liesBelow_of_resolve reference directory hok
    have hused read (hok : Rendered.ofOutcome ((renderer.perform vars call).run read) =
        .ok ⟨content, files⟩) : ∀ file ∈ files, LiesBelow base.normalize file := by
      obtain ⟨-, rfl⟩ := Rendered.ofOutcome_eq_ok.mp hok
      intro file hfile
      -- only what was loaded is entered into the set of used files
      rw [renderer.records_perform vars call read] at hfile
      exact (Renderer.asksOnly_perform hinto vars call).of_mem_loads (Rendered.mem_sorted.mp hfile)
    refine ⟨hused, fun loader disk hok => hused (loader.view disk) ?_⟩
    rwa [← (FileLoader.run_render _ loader disk).1]

/-- Below a base that is not in normal form: a page from a directory next to it, and a way out. -/
theorem resolve_press :
    let base := FilePath.ofText "/srv/./draft/../press".toList
    let r := ofBase ⟨true, []⟩ base true
    let page := "/srv/press/pages/one".toList
    base.absolute = true ∧ base.Written ∧
    r.resolve "..//pages/./one".toList "/srv/press/cards".toList = .ok page ∧
    LiesBelow base.normalize page ∧
    (∃ e, r.resolve "../press.key".toList "../cards".toList = .error e ∧
      e.code = "PATH_ESCAPE".toList) ∧
    ∃ identifier, r.resolve "pages/../../press".toList "../cards".toList = .ok identifier := by
  intro base r page
  have hbase : base.absolute = true := by decide +kernel
  have hwritten : base.Written := .text _
  have hpage : r.resolve "..//pages/./one".toList "/srv/press/cards".toList = .ok page := by
    decide +kernel
  obtain ⟨hresolve, -⟩ := resolve_confined ⟨true, []⟩ hbase hwritten
  exact ⟨hbase, hwritten, hpage, ((hresolve _ _).1 page hpage).1,
    (hresolve _ _).2.2.mpr (by decide +kernel), (hresolve _ _).2.1.mpr (by decide +kernel)⟩

end FileResolver
end Stencil
