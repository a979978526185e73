import Stencil.Proofs.FilePath

/-! The normal form of a path, as the end of a reduction: a way up goes back over the name in front
of it, and from the root it leads nowhere. In whatever order the ways up are taken away, what is
left in the end is the normal form. -/
namespace Stencil
open Relation (ReflTransGen)

/-- A name that can stand between slashes and means something in a directory. -/
def FileName.IsOrdinary : FileName → Prop
  | .text s => FilePath.IsName s
  | .bytes b => Utf8.decode? b = none ∧ FilePath.slash ∉ b

namespace FilePath
variable {p q : FilePath} {absolute : Bool} {reversed : List Step}

lemma Written.isOrdinary (h : p.Written) {name : FileName} (hname : some name ∈ p.steps) :
    name.IsOrdinary := by
  cases name with
  | text s => exact h.isName hname
  | bytes b =>
    cases h with
    | text s =>
      obtain ⟨name, hname⟩ := exists_text_of_mem_ofText hname (by simp [up])
      cases hname
    | bytes whole =>
      obtain ⟨segment, hmem, hstep⟩ := List.mem_filterMap.mp hname
      have hslash := not_mem_of_mem_splitOn hmem
      unfold stepOfBytes? at hstep
      split at hstep
      · cases hstep
      · split at hstep
        · cases hstep
        · have hbytes : FileName.ofBytes segment = .bytes b := by simpa using hstep
          unfold FileName.ofBytes at hbytes
          split at hbytes
          · cases hbytes
          · rename_i hnone
            obtain rfl : segment = b := by simpa using hbytes
            exact ⟨hnone, hslash⟩

/-- First up and then down; from the root only down. -/
def IsNormal (p : FilePath) : Prop :=
  ∃ (ups : ℕ) (names : List FileName), p.steps = List.replicate ups up ++ names.map some ∧
    (p.absolute = true → ups = 0)

/-- A way up goes back over the name in front of it, and from the root it leads nowhere. -/
inductive Collapses : FilePath → FilePath → Prop
  | back (absolute : Bool) (before : List Step) (name : FileName) (after : List Step) :
    Collapses ⟨absolute, before ++ some name :: up :: after⟩ ⟨absolute, before ++ after⟩
  | top (after : List Step) : Collapses ⟨true, up :: after⟩ ⟨true, after⟩

lemma push_replicate_up (n : ℕ) :
    push false (List.replicate n up) up = List.replicate (n + 1) up := by
  cases n <;> rfl

/-- The steps of a normal form in reverse. -/
inductive Stack (absolute : Bool) : List Step → Prop
  | ups (n : ℕ) (h : absolute = true → n = 0) : Stack absolute (List.replicate n up)
  | down (name : FileName) {reversed : List Step} (h : Stack absolute reversed) :
    Stack absolute (some name :: reversed)

namespace Stack

lemma isNormal (h : Stack absolute reversed) : IsNormal ⟨absolute, reversed.reverse⟩ := by
  induction h with
  | ups n hn => exact ⟨n, [], by simp, hn⟩
  | down name _ ih =>
    obtain ⟨n, names, hsteps, hn⟩ := ih
    refine ⟨n, names ++ [name], ?_, hn⟩
    dsimp only at hsteps ⊢
    rw [List.reverse_cons, hsteps, List.map_append, List.append_assoc]
    rfl

/-- One step more: what the path collapses to is a normal form in front of the steps to come. -/
lemma push (h : Stack absolute reversed) (step : Step) (after : List Step) :
    Stack absolute (push absolute reversed step) ∧
      ReflTransGen Collapses ⟨absolute, reversed.reverse ++ step :: after⟩
        ⟨absolute, (FilePath.push absolute reversed step).reverse ++ after⟩ := by
  cases step with
  | some name =>
    refine ⟨h.down name, ?_⟩
    have heq : reversed.reverse ++ some name :: after =
        (FilePath.push absolute reversed (some name)).reverse ++ after := by simp [FilePath.push]
    rw [heq]
  | none =>
    cases h with
    | @down name reversed h =>
      refine ⟨h, .single ?_⟩
      have hback := Collapses.back absolute reversed.reverse name after
      simpa [up, FilePath.push] using hback
    | ups n hn =>
      cases absolute with
      | true =>
        obtain rfl := hn rfl
        exact ⟨.ups 0 hn, .single (.top after)⟩
      | false =>
        have heq : (List.replicate n up).reverse ++ none :: after =
            (List.replicate (n + 1) up).reverse ++ after := by
          rw [List.reverse_replicate, List.reverse_replicate, List.replicate_succ',
            List.append_assoc]
          rfl
        rw [heq, ← up, push_replicate_up]
        exact ⟨.ups (n + 1) (by simp), .refl⟩

/-- The whole of a path. -/
lemma foldl (h : Stack absolute reversed) (steps : List Step) :
    Stack absolute (steps.foldl (FilePath.push absolute) reversed) ∧
      ReflTransGen Collapses ⟨absolute, reversed.reverse ++ steps⟩
        ⟨absolute, (steps.foldl (FilePath.push absolute) reversed).reverse⟩ := by
  induction steps generalizing reversed with
  | nil =>
    rw [List.append_nil]
    exact ⟨h, .refl⟩
  | cons step steps ih =>
    obtain ⟨hstack, hstep⟩ := h.push step steps
    obtain ⟨hend, hsteps⟩ := ih hstack
    exact ⟨hend, hstep.trans hsteps⟩

end Stack

lemma stack_nil (absolute : Bool) : Stack absolute [] := .ups 0 fun _ => rfl

lemma isNormal_normalize (p : FilePath) : p.normalize.IsNormal :=
  ((stack_nil p.absolute).foldl p.steps).1.isNormal

lemma collapses_normalize (p : FilePath) : ReflTransGen Collapses p p.normalize :=
  ((stack_nil p.absolute).foldl p.steps).2

/-- Taking a normal form step by step builds it up again. -/
lemma normalize_of_isNormal (h : p.IsNormal) : p.normalize = p := by
  obtain ⟨n, names, hsteps, hn⟩ := h
  have hups : (List.replicate n up).foldl (push p.absolute) [] = List.replicate n up := by
    cases habsolute : p.absolute with
    | true =>
      obtain rfl := hn habsolute
      rfl
    | false =>
      clear hsteps hn
      induction n with
      | zero => rfl
      | succ n ih =>
        rw [List.replicate_succ', List.foldl_append, ih]
        exact (push_replicate_up n).trans List.replicate_succ'
  have hup : up ∉ names.map some := by simp [up]
  have hnames := foldl_push_of_up_not_mem p.absolute hup (List.replicate n up)
  have hfold : p.steps.foldl (push p.absolute) [] = p.steps.reverse := by
    rw [hsteps, List.foldl_append, hups, hnames, List.reverse_append, List.reverse_replicate]
  rw [normalize, hfold, List.reverse_reverse]

lemma normalize_normalize (p : FilePath) : p.normalize.normalize = p.normalize :=
  normalize_of_isNormal (isNormal_normalize p)

lemma Collapses.normalize_eq (h : Collapses p q) : p.normalize = q.normalize := by
  cases h with
  | back absolute before name after => simp [normalize, push, up]
  | top after => rfl

lemma normalize_eq_of_collapses (h : ReflTransGen Collapses p q) : p.normalize = q.normalize := by
  induction h with
  | refl => rfl
  | tail _ hlast ih => exact ih.trans hlast.normalize_eq

/-- A path behind another one only depends on where the other one leads. -/
lemma normalize_join (a b : FilePath) : (a.join b).normalize = (a.normalize.join b).normalize := by
  have hsteps : (a.steps.foldl (push a.absolute) []).reverse.foldl (push a.absolute) [] =
      a.steps.foldl (push a.absolute) [] := by
    have h := congrArg (fun p => p.steps.reverse) (normalize_normalize a)
    simpa only [normalize, List.reverse_reverse] using h
  cases hb : b.absolute with
  | true => rw [join, join, if_pos hb, if_pos hb]
  | false =>
    rw [join, join, if_neg (by simp [hb]), if_neg (by simp [hb])]
    simp only [normalize, List.foldl_append, hsteps]

/-- Ups and texts can be written. -/
lemma exists_text? (h : ∀ step ∈ p.steps, step ≠ up → ∃ name, step = some (.text name)) :
    ∃ s, p.text? = some s := by
  have hsegments : ∃ segments, p.steps.mapM stepText? = some segments := by
    generalize p.steps = steps at h
    induction steps with
    | nil => exact ⟨[], rfl⟩
    | cons step steps ih =>
      obtain ⟨segments, hsegments⟩ := ih fun step hstep => h step (List.mem_cons_of_mem _ hstep)
      have hstep : ∃ segment, stepText? step = some segment := by
        by_cases hup : step = up
        · exact ⟨['.', '.'], by rw [hup]; rfl⟩
        · obtain ⟨name, rfl⟩ := h step List.mem_cons_self hup
          exact ⟨name, rfl⟩
      obtain ⟨segment, hsegment⟩ := hstep
      exact ⟨segment :: segments, by rw [List.mapM_cons, hsegment, hsegments]; rfl⟩
  obtain ⟨segments, hsegments⟩ := hsegments
  exact ⟨write p.absolute segments, by rw [text?, hsegments]; rfl⟩

lemma exists_text?_normalize (s : Text) :
    ∃ t, (ofText s).normalize.text? = some t ∧ ofText t = (ofText s).normalize := by
  obtain ⟨t, ht⟩ := exists_text? fun step (hstep : step ∈ (ofText s).normalize.steps) hup =>
    exists_text_of_mem_ofText (mem_steps_of_mem_normalize hstep) hup
  refine ⟨t, ht, ofText_of_text? (fun name hname => ?_) ht⟩
  exact isName_of_mem_ofText (mem_steps_of_mem_normalize hname)

/-- The normal form of a path is absolute if the path is, goes up at its start only and never from
the root, and is its own normal form. The names in it are ordinary ones. A path behind another
one may as well stand behind the other one's normal form. A path has one normal form only: to
it, and to no other, it collapses, whichever ways up are taken away first. The normal form of a
text can be written as a text, and is what that is read as. -/
theorem normalize_canonical :
    (∀ p : FilePath, p.normalize.absolute = p.absolute ∧ p.normalize.IsNormal ∧
      p.normalize.normalize = p.normalize) ∧
    (∀ p : FilePath, p.Written → ∀ name, some name ∈ p.normalize.steps → name.IsOrdinary) ∧
    (∀ a b : FilePath, (a.join b).normalize = (a.normalize.join b).normalize) ∧
    (∀ p q : FilePath, p.normalize = q ↔ ReflTransGen Collapses p q ∧ q.IsNormal) ∧
    ∀ s : Text, ∃ t, (ofText s).normalize.text? = some t ∧ ofText t = (ofText s).normalize := by
  refine ⟨fun p => ⟨rfl, isNormal_normalize p, normalize_normalize p⟩,
    fun p hp name hname => hp.isOrdinary (mem_steps_of_mem_normalize hname), normalize_join,
    fun p q => ⟨?_, ?_⟩, exists_text?_normalize⟩
  · rintro rfl
    exact ⟨collapses_normalize p, isNormal_normalize p⟩
  · rintro ⟨hcollapses, hnormal⟩
    exact (normalize_eq_of_collapses hcollapses).trans (normalize_of_isNormal hnormal)

/-- A name that is no text, behind a directory that is left again. -/
theorem normalize_canonical_bytes :
    let p := ofBytes [97, 47, 46, 46, 47, 46, 46, 47, 47, 255, 47, 46, 47, 98]
    p.Written ∧ some (.bytes [255]) ∈ p.normalize.steps ∧ (FileName.bytes [255]).IsOrdinary := by
  intro p
  have hname : some (.bytes [255]) ∈ p.normalize.steps := by decide +kernel
  obtain ⟨-, hordinary, -⟩ := normalize_canonical
  exact ⟨.bytes _, hname, hordinary p (.bytes _) _ hname⟩

end FilePath
end Stencil
