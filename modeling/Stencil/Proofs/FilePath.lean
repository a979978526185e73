import Stencil.FilePath
import Stencil.Proofs.Utf8

/-! Paths in normal form. Following `..` leaves an absolute path with names only, and a path that
is written as a text is read back. -/
namespace Stencil

lemma not_mem_of_mem_splitOn {α : Type} [BEq α] [LawfulBEq α] {a : α} {l part : List α}
    (h : part ∈ l.splitOn a) : a ∉ part := by
  induction l generalizing part with
  | nil =>
    rw [List.splitOn_nil, List.mem_singleton] at h
    simp [h]
  | cons x l ih =>
    rw [List.splitOn_cons_eq_if_modifyHead] at h
    split at h
    · rcases List.mem_cons.mp h with rfl | h
      · simp
      · exact ih h
    · rename_i hx
      obtain ⟨first, parts, hparts⟩ := List.exists_cons_of_ne_nil (List.splitOn_ne_nil a l)
      rw [hparts] at h ih
      rcases List.mem_cons.mp h with rfl | h
      · have hne : a ≠ x := fun heq => hx (by simp [heq])
        simp [hne, ih List.mem_cons_self]
      · exact ih (List.mem_cons_of_mem first h)

namespace FilePath
variable {p : FilePath}

/-- A text that names something in a directory. -/
structure IsName (s : Text) : Prop where
  ne_nil : s ≠ []
  ne_dot : s ≠ ['.']
  ne_dots : s ≠ ['.', '.']
  not_mem_slash : '/' ∉ s

/-- A path that is given as a text or as bytes. -/
inductive Written : FilePath → Prop
  | text (s : Text) : Written (.ofText s)
  | bytes (b : List UInt8) : Written (.ofBytes b)

lemma isName_of_stepOf? {segment s : Text} (hslash : '/' ∉ segment)
    (h : stepOf? segment = some (some (.text s))) : IsName s := by
  unfold stepOf? at h
  split at h
  · cases h
  · rename_i hplain
    split at h
    · cases h
    · rename_i hdots
      obtain rfl : segment = s := by simpa using h
      exact ⟨fun e => hplain (.inl e), fun e => hplain (.inr e), hdots, hslash⟩

lemma isName_of_mem_ofText {s name : Text} (h : some (.text name) ∈ (ofText s).steps) :
    IsName name := by
  obtain ⟨segment, hmem, hstep⟩ := List.mem_filterMap.mp h
  exact isName_of_stepOf? (not_mem_of_mem_splitOn hmem) hstep

lemma isName_of_mem_ofBytes {b : List UInt8} {name : Text}
    (h : some (.text name) ∈ (ofBytes b).steps) : IsName name := by
  obtain ⟨segment, hmem, hstep⟩ := List.mem_filterMap.mp h
  have hslash := not_mem_of_mem_splitOn hmem
  unfold stepOfBytes? at hstep
  split at hstep
  · cases hstep
  · rename_i hplain
    split at hstep
    · cases hstep
    · rename_i hdots
      have hname : Utf8.decode? segment = some name := by
        have : FileName.ofBytes segment = .text name := by simpa using hstep
        unfold FileName.ofBytes at this
        split at this
        · rename_i s hs
          obtain rfl : s = name := by simpa using this
          exact hs
        · cases this
      have hbytes (t : List UInt8) (s : Text) (ht : t.map UInt8.toNat = s.map Char.toNat)
          (hs : ∀ c ∈ s, 0 < c.toNat ∧ c.toNat < 0x80) (hne : segment ≠ t) : name ≠ s := by
        rintro rfl
        have heq := (Utf8.map_toNat_of_decode? hname hs).trans ht.symm
        exact hne (List.map_injective_iff.mpr (fun _ _ h => UInt8.toNat_inj.mp h) heq)
      refine ⟨hbytes [] [] rfl (by simp) fun e => hplain (.inl e),
        hbytes [dot] ['.'] (by decide) (by simp) fun e => hplain (.inr e),
        hbytes [dot, dot] ['.', '.'] (by decide) (by simp) hdots, fun hc => ?_⟩
      obtain ⟨byte, hbyte, heq⟩ := Utf8.exists_mem_of_decode? hname hc (by decide)
      obtain rfl : byte = slash := UInt8.toNat_inj.mp heq
      exact hslash hbyte

/-- The names of a path that is given as a text or as bytes. -/
lemma Written.isName (h : p.Written) {name : Text} (hname : some (.text name) ∈ p.steps) :
    IsName name := by
  cases h with
  | text s => exact isName_of_mem_ofText hname
  | bytes b => exact isName_of_mem_ofBytes hname

/-- Down a row of directories. -/
def down (names : List Text) : List Step := names.map fun name => some (.text name)

lemma exists_eq_down {steps : List Step} (h : ∀ step ∈ steps, ∃ name, step = some (.text name)) :
    ∃ names, steps = down names := by
  induction steps with
  | nil => exact ⟨[], rfl⟩
  | cons step steps ih =>
    obtain ⟨name, rfl⟩ := h step List.mem_cons_self
    obtain ⟨names, rfl⟩ := ih fun step hstep => h step (List.mem_cons_of_mem _ hstep)
    exact ⟨name :: names, rfl⟩

/-- A text has no other names than texts. -/
lemma exists_text_of_mem_ofText {s : Text} {step : Step} (h : step ∈ (ofText s).steps)
    (hne : step ≠ up) : ∃ name, step = some (.text name) := by
  obtain ⟨segment, -, hstep⟩ := List.mem_filterMap.mp h
  unfold stepOf? at hstep
  split at hstep
  · cases hstep
  · split at hstep
    · exact absurd (Option.some.inj hstep).symm hne
    · exact ⟨segment, (Option.some.inj hstep).symm⟩

lemma stepOf?_of_isName {name : Text} (h : IsName name) :
    stepOf? name = some (some (.text name)) := by
  rw [stepOf?, if_neg (not_or.mpr ⟨h.ne_nil, h.ne_dot⟩), if_neg h.ne_dots]

/-- A path is read as it was written, unless a segment is empty or has a slash. -/
lemma ofText_write_segments (absolute : Bool) {segments : List Text}
    (h : ∀ segment ∈ segments, segment ≠ [] ∧ '/' ∉ segment) :
    ofText (write absolute segments) = ⟨absolute, segments.filterMap stepOf?⟩ := by
  have hsteps : ((['/'].intercalate segments).splitOn '/').filterMap stepOf? =
      segments.filterMap stepOf? := by
    cases segments with
    | nil => rfl
    | cons first rest =>
      rw [List.splitOn_intercalate '/' (fun segment hsegment => (h segment hsegment).2) (by simp)]
  cases absolute with
  | true =>
    have hsplit : (write true segments).splitOn '/' =
        [] :: ((['/'].intercalate segments).splitOn '/') := by
      have := List.splitOn_cons_eq_if_modifyHead (a := '/') '/' (['/'].intercalate segments)
      simpa [write] using this
    have hempty : stepOf? [] = none := rfl
    rw [ofText, hsplit, List.filterMap_cons, hempty, hsteps]
    rfl
  | false =>
    have hhead : (['/'].intercalate segments).head? ≠ some '/' := by
      cases segments with
      | nil => simp
      | cons first rest =>
        obtain ⟨hne, hslash⟩ := h first List.mem_cons_self
        obtain ⟨c, tail, rfl⟩ := List.exists_cons_of_ne_nil hne
        have hc : c ≠ '/' := fun heq => hslash (heq ▸ List.mem_cons_self)
        cases rest <;> simpa [List.intercalate_cons_cons] using hc
    rw [ofText, write, if_neg Bool.false_ne_true, hsteps, beq_eq_false_iff_ne.mpr hhead]

/-- A path with names only is read as it was written. -/
lemma ofText_write {absolute : Bool} {names : List Text} (h : ∀ name ∈ names, IsName name) :
    ofText (write absolute names) = ⟨absolute, down names⟩ := by
  rw [ofText_write_segments absolute fun name hname =>
    ⟨(h name hname).ne_nil, (h name hname).not_mem_slash⟩, down, ← List.filterMap_eq_map]
  congr 1
  exact List.filterMap_congr fun name hname => stepOf?_of_isName (h name hname)

/-- What is written for one step is a segment that is read as this step. -/
lemma read_of_stepText? {step : Step} (h : ∀ name, some (.text name) = step → IsName name)
    {segment : Text} (hsegment : stepText? step = some segment) :
    (segment ≠ [] ∧ '/' ∉ segment) ∧ stepOf? segment = some step := by
  cases step with
  | none =>
    obtain rfl : ['.', '.'] = segment := by simpa [stepText?] using hsegment
    exact ⟨⟨by simp, by decide⟩, rfl⟩
  | some file =>
    cases file with
    | bytes b => cases hsegment
    | text t =>
      obtain rfl : t = segment := by simpa [stepText?, FileName.text?] using hsegment
      have hname := h t rfl
      exact ⟨⟨hname.ne_nil, hname.not_mem_slash⟩, stepOf?_of_isName hname⟩

lemma read_of_mapM_stepText? {steps : List Step}
    (h : ∀ name, some (.text name) ∈ steps → IsName name) {segments : List Text}
    (hsegments : steps.mapM stepText? = some segments) :
    (∀ segment ∈ segments, segment ≠ [] ∧ '/' ∉ segment) ∧
      segments.filterMap stepOf? = steps := by
  induction steps generalizing segments with
  | nil =>
    obtain rfl : [] = segments := by simpa using hsegments
    exact ⟨by simp, rfl⟩
  | cons step steps ih =>
    rw [List.mapM_cons] at hsegments
    obtain ⟨segment, hsegment, hsegments⟩ := Option.bind_eq_some_iff.mp hsegments
    obtain ⟨rest, hrest, hsegments⟩ := Option.bind_eq_some_iff.mp hsegments
    obtain rfl : segment :: rest = segments := by simpa using hsegments
    obtain ⟨hgood, hstep⟩ :=
      read_of_stepText? (fun name hname => h name (hname ▸ List.mem_cons_self)) hsegment
    obtain ⟨hgoods, hsteps⟩ := ih (fun name hname => h name (List.mem_cons_of_mem _ hname)) hrest
    rw [List.forall_mem_cons, List.filterMap_cons, hstep, hsteps]
    exact ⟨⟨hgood, hgoods⟩, rfl⟩

/-- The text of a path with names that can be names is read as that path. -/
lemma ofText_of_text? (h : ∀ name, some (.text name) ∈ p.steps → IsName name) {s : Text}
    (hs : p.text? = some s) : ofText s = p := by
  obtain ⟨segments, hsegments, rfl⟩ := Option.map_eq_some_iff.mp hs
  obtain ⟨hgood, hsteps⟩ := read_of_mapM_stepText? h hsegments
  rw [ofText_write_segments p.absolute hgood, hsteps]

lemma foldl_push_of_up_not_mem (absolute : Bool) {steps : List Step} (h : up ∉ steps)
    (reversed : List Step) : steps.foldl (push absolute) reversed = steps.reverse ++ reversed := by
  induction steps generalizing reversed with
  | nil => rfl
  | cons step steps ih =>
    simp only [List.mem_cons, not_or] at h
    cases step with
    | none => exact absurd rfl h.1
    | some name =>
      rw [List.foldl_cons, ih h.2]
      simp [push]

/-- A path that never goes up is in normal form. -/
lemma normalize_of_up_not_mem (h : up ∉ p.steps) : p.normalize = p := by
  rw [normalize, foldl_push_of_up_not_mem _ h]
  simp

lemma push_subset (absolute : Bool) (reversed : List Step) (step : Step) :
    ∀ x ∈ push absolute reversed step, x ∈ reversed ∨ x = step := by
  intro x hx
  unfold push at hx
  split at hx
  · rcases List.mem_cons.mp hx with rfl | hx
    · exact .inr rfl
    · exact .inl hx
  · exact .inl (List.mem_cons_of_mem _ hx)
  · split at hx
    · exact .inl hx
    · rcases List.mem_cons.mp hx with rfl | hx
      · exact .inr rfl
      · exact .inl hx

lemma foldl_push_subset (absolute : Bool) (steps reversed : List Step) :
    ∀ x ∈ steps.foldl (push absolute) reversed, x ∈ reversed ∨ x ∈ steps := by
  refine List.foldlRecOn (motive := fun kept => ∀ x ∈ kept, x ∈ reversed ∨ x ∈ steps) steps
    (push absolute) (fun x hx => .inl hx) fun kept hkept step hstep x hx => ?_
  rcases push_subset _ _ _ x hx with hx | rfl
  · exact hkept x hx
  · exact .inr hstep

/-- The normal form has no other steps than the path. -/
lemma mem_steps_of_mem_normalize {step : Step} (h : step ∈ p.normalize.steps) :
    step ∈ p.steps := by
  rw [normalize, List.mem_reverse] at h
  simpa using foldl_push_subset p.absolute p.steps [] step h

lemma up_not_mem_push {reversed : List Step} (h : up ∉ reversed) (step : Step) :
    up ∉ push true reversed step := by
  cases step with
  | some name => simpa [push, up] using h
  | none =>
    cases reversed with
    | nil => exact h
    | cons last reversed =>
      simp only [List.mem_cons, not_or] at h
      cases last with
      | none => exact absurd rfl h.1
      | some name => exact h.2

/-- Nothing goes up from the root. -/
lemma up_not_mem_normalize (h : p.absolute = true) : up ∉ p.normalize.steps := by
  rw [normalize, h, List.mem_reverse]
  exact List.foldlRecOn (motive := (up ∉ ·)) p.steps (push true) (by simp)
    fun _ h step _ => up_not_mem_push h step

/-- The names of a path that can be written as a text. -/
lemma exists_of_text? (h : up ∉ p.steps) {s : Text} (hs : p.text? = some s) :
    ∃ names, p.steps = down names ∧ s = write p.absolute names := by
  obtain ⟨names, hnames, rfl⟩ := Option.map_eq_some_iff.mp hs
  refine ⟨names, ?_, rfl⟩
  clear hs
  generalize p.steps = steps at h hnames
  induction steps generalizing names with
  | nil =>
    obtain rfl : [] = names := by simpa using hnames
    rfl
  | cons step steps ih =>
    simp only [List.mem_cons, not_or] at h
    rw [List.mapM_cons] at hnames
    obtain ⟨name, hname, hnames⟩ := Option.bind_eq_some_iff.mp hnames
    obtain ⟨rest, hrest, hnames⟩ := Option.bind_eq_some_iff.mp hnames
    obtain rfl : name :: rest = names := by simpa using hnames
    rw [ih rest h.2 hrest]
    cases step with
    | none => exact absurd rfl h.1
    | some file =>
      cases file with
      | bytes b => cases hname
      | text t =>
        obtain rfl : t = name := by simpa [stepText?, FileName.text?] using hname
        rfl

lemma text?_eq {names : List Text} (h : p.steps = down names) :
    p.text? = some (write p.absolute names) := by
  have hnames : (down names).mapM stepText? = some names := by
    induction names generalizing p with
    | nil => rfl
    | cons name names ih =>
      rw [down, List.map_cons, ← down, List.mapM_cons, ih (p := ⟨true, down names⟩) rfl]
      rfl
  rw [text?, h, hnames]
  rfl

lemma startsWith_iff {base : FilePath} (h : p.absolute = base.absolute) :
    p.startsWith base = true ↔ base.steps <+: p.steps := by
  rw [startsWith, h]
  simp

end FilePath
end Stencil
