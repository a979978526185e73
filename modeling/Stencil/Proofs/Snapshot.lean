import Stencil.FileResolver
import Stencil.FileTask
import Stencil.Proofs.Dependence

/-! A caching loader while files come, change and go. What it has loaded once it keeps, so that
every load finds the text of the first one, and a rendering on the loader is the rendering on this
snapshot. Main statement: loads agree with the first load of their file, and a call that
succeeded can be repeated. -/
namespace Stencil

namespace FileLoader
variable {α : Type} (loader : FileLoader) (disk : Disk)

/-- What the loader finds: a text it keeps, or else the file's. -/
def view (identifier : Text) : Except Text Text :=
  match loader.cached? identifier with
  | some content => .ok content
  | none => disk.read identifier

variable {loader disk}

lemma view_of_cached {identifier content : Text} (h : loader.cached? identifier = some content) :
    loader.view disk identifier = .ok content := by
  rw [view, h]

lemma view_of_not_cached {identifier : Text} (h : loader.cached? identifier = none) :
    loader.view disk identifier = disk.read identifier := by
  rw [view, h]

lemma cached?_remember (loader : FileLoader) (path content identifier : Text) :
    (loader.remember path content).cached? identifier =
      if loader.cache.isSome ∧ path = identifier then some content
      else loader.cached? identifier := by
  obtain ⟨cache⟩ := loader
  cases cache with
  | none => simp [remember, cached?]
  | some entries =>
    simp only [remember, cached?, Option.map_some, Option.bind_some, Option.isSome_some, true_and]
    exact Entries.get?_insert entries path content identifier

/-- What becomes of a loader that loads the given templates: it keeps their texts if it caches. -/
structure Loads (loader : FileLoader) (disk : Disk) (loaded : List Text) (after : FileLoader) :
    Prop where
  readable : ∀ identifier ∈ loaded, ∃ content, loader.view disk identifier = .ok content
  caches : after.cache.isSome = loader.cache.isSome
  cached : ∀ identifier, after.cached? identifier =
    if loader.cache.isSome ∧ identifier ∈ loaded then (loader.view disk identifier).toOption
    else loader.cached? identifier

namespace Loads
variable {loader after later : FileLoader} {disk : Disk} {loaded more : List Text}

lemma nil (loader : FileLoader) (disk : Disk) : Loads loader disk [] loader :=
  ⟨by simp, rfl, by simp⟩

/-- Nothing that the loader finds on this disk is different afterwards. -/
lemma view_eq (h : Loads loader disk loaded after) : after.view disk = loader.view disk := by
  funext identifier
  have hcached := h.cached identifier
  split_ifs at hcached with hmem
  · obtain ⟨content, hview⟩ := h.readable identifier hmem.2
    rw [hview] at hcached ⊢
    exact view_of_cached hcached
  · rw [view, view, hcached]

lemma append (h : Loads loader disk loaded after) (h' : Loads after disk more later) :
    Loads loader disk (loaded ++ more) later where
  readable identifier hmem := by
    rcases List.mem_append.mp hmem with hmem | hmem
    · exact h.readable identifier hmem
    · rw [← h.view_eq]
      exact h'.readable identifier hmem
  caches := h'.caches.trans h.caches
  cached identifier := by
    rw [h'.cached, h.cached, h.view_eq, h.caches]
    by_cases hcaching : loader.cache.isSome = true
    · by_cases hmem : identifier ∈ more <;> by_cases hmem' : identifier ∈ loaded <;>
        simp [hcaching, hmem, hmem']
    · simp [hcaching]

lemma cached?_of_mem (h : Loads loader disk loaded after) (hcaching : loader.cache.isSome = true)
    {identifier : Text} (hmem : identifier ∈ loaded) :
    ∃ content, loader.view disk identifier = .ok content ∧
      after.cached? identifier = some content := by
  obtain ⟨content, hview⟩ := h.readable identifier hmem
  exact ⟨content, hview, by rw [h.cached, if_pos ⟨hcaching, hmem⟩, hview]; rfl⟩

/-- A kept text is kept. -/
lemma cached?_persists (h : Loads loader disk loaded after) {identifier content : Text}
    (hcached : loader.cached? identifier = some content) :
    after.cached? identifier = some content := by
  rw [h.cached, view_of_cached hcached, hcached]
  exact ite_self _

end Loads

/-- The identifier, if it was loaded. -/
def loadedOf (identifier : Text) (answer : Except Text Text) : List Text :=
  match answer with
  | .ok _ => [identifier]
  | .error _ => []

lemma run_load (loader : FileLoader) (disk : Disk) (identifier : Text) :
    ((loader.load identifier).run disk).2 = loader.view disk identifier ∧
      Loads loader disk (loadedOf identifier (loader.view disk identifier))
        ((loader.load identifier).run disk).1 := by
  rw [load]
  cases hcached : loader.cached? identifier with
  | some content =>
    have hview : loader.view disk identifier = .ok content := view_of_cached hcached
    refine ⟨hview.symm, ?_⟩
    rw [hview]
    refine ⟨fun key hkey => ?_, rfl, fun key => ?_⟩
    · obtain rfl : key = identifier := by simpa [loadedOf] using hkey
      exact ⟨content, hview⟩
    · split_ifs with h
      · obtain rfl : key = identifier := by simpa [loadedOf] using h.2
        rw [hview]
        exact hcached
      · rfl
  | none =>
    have hview : loader.view disk identifier = disk.read identifier := view_of_not_cached hcached
    dsimp only
    rw [FileTask.run_bind]
    change ((match disk.read identifier with | .ok content => _ | .error reason => _ :
      FileTask (FileLoader × Except Text Text)).run disk).2 = _ ∧ Loads _ _ _
        ((match disk.read identifier with | .ok content => _ | .error reason => _ :
          FileTask (FileLoader × Except Text Text)).run disk).1
    cases hread : disk.read identifier with
    | error reason =>
      rw [hview, hread]
      exact ⟨rfl, .nil loader disk⟩
    | ok content =>
      rw [hread] at hview
      rw [hview]
      refine ⟨rfl, fun key hkey => ?_, by simp [remember], fun key => ?_⟩
      · obtain rfl : key = identifier := by simpa [loadedOf] using hkey
        exact ⟨content, hview⟩
      · rw [FileTask.run_pure, cached?_remember]
        by_cases hkey : key = identifier
        · subst hkey
          simp [loadedOf, hview, Except.toOption]
        · simp [loadedOf, hkey, Ne.symm hkey]

/-- A rendering on the loader is the rendering on what the loader finds, and it is kept. -/
lemma run_render (x : Rendering α) (loader : FileLoader) (disk : Disk) :
    ((loader.render x).run disk).2 = x.run (loader.view disk) ∧
      Loads loader disk (x.loads (loader.view disk)) ((loader.render x).run disk).1 := by
  induction x generalizing loader with
  | done a => exact ⟨rfl, .nil loader disk⟩
  | failed e => exact ⟨rfl, .nil loader disk⟩
  | use identifier => exact ⟨rfl, .nil loader disk⟩
  | load identifier =>
    obtain ⟨hanswer, hloads⟩ := run_load loader disk identifier
    rw [render, FileTask.run_bind, Rendering.run, Rendering.loads]
    generalize (loader.load identifier).run disk = step at hanswer hloads ⊢
    obtain ⟨after, answer⟩ := step
    dsimp only at hanswer hloads
    rw [← hanswer] at hloads ⊢
    cases answer <;> exact ⟨rfl, hloads⟩
  | andThen x f ihx ihf =>
    obtain ⟨houtcome, hloads⟩ := ihx loader
    rw [render, FileTask.run_bind, Rendering.run, Rendering.loads]
    generalize (loader.render x).run disk = step at houtcome hloads ⊢
    obtain ⟨after, used, e | a⟩ := step <;> dsimp only at houtcome hloads
    · rw [← houtcome]
      exact ⟨rfl, hloads⟩
    · rw [← houtcome]
      obtain ⟨hrest, hmore⟩ := ihf a after
      rw [hloads.view_eq] at hrest hmore
      dsimp only [Rendering.Outcome.andThen, Rendering.Outcome.behind]
      rw [FileTask.run_bind]
      generalize (after.render (f a)).run disk = step at hrest hmore ⊢
      obtain ⟨later, rest⟩ := step
      dsimp only at hrest hmore
      rw [← hrest]
      exact ⟨rfl, hloads.append hmore⟩

end FileLoader
/-- A loader at work on a disk. -/
structure Session where
  loader : FileLoader
  disk : Disk

namespace Session

/-- The disk changes in any way, as by writing or removing a file; or a template is loaded, or
templates are rendered. -/
inductive Event
  | change (f : Disk → Disk)
  | load (identifier : Text)
  | render (x : Rendering Text)

/-- The answer to a load, and the session behind it. -/
def load (s : Session) (identifier : Text) : Session × Except Text Text :=
  let (loader, answer) := (s.loader.load identifier).run s.disk
  ({ s with loader }, answer)

def render (s : Session) (x : Rendering Text) : Session × Rendering.Outcome Text :=
  let (loader, outcome) := (s.loader.render x).run s.disk
  ({ s with loader }, outcome)

def step (s : Session) : Event → Session
  | .change f => { s with disk := f s.disk }
  | .load identifier => (s.load identifier).1
  | .render x => (s.render x).1

def after (s : Session) (history : List Event) : Session := history.foldl step s

/-- The templates that an event loads. -/
def loadedBy (s : Session) : Event → List Text
  | .change _ => []
  | .load identifier => FileLoader.loadedOf identifier (s.load identifier).2
  | .render x => x.loads (s.loader.view s.disk)

/-- The disk on which a template is loaded for the first time. -/
def firstLoad? : Session → List Event → Text → Option Disk
  | _, [], _ => none
  | s, e :: rest, identifier =>
    if (s.loadedBy e).contains identifier then some s.disk
    else (s.step e).firstLoad? rest identifier

/-- The outcomes of renderings one after the other. -/
def outcomes : Session → List (Rendering Text) → List (Rendering.Outcome Text)
  | _, [] => []
  | s, x :: rest => (s.render x).2 :: (s.render x).1.outcomes rest

variable (s : Session)

lemma load_snd (identifier : Text) : (s.load identifier).2 = s.loader.view s.disk identifier :=
  (FileLoader.run_load s.loader s.disk identifier).1

lemma render_snd (x : Rendering Text) : (s.render x).2 = x.run (s.loader.view s.disk) :=
  (FileLoader.run_render x s.loader s.disk).1

/-- What one event leaves of the loader. -/
lemma loads_step (e : Event) : s.loader.Loads s.disk (s.loadedBy e) (s.step e).loader := by
  cases e with
  | change f => exact .nil s.loader s.disk
  | load identifier =>
    rw [loadedBy, load_snd]
    exact (FileLoader.run_load s.loader s.disk identifier).2
  | render x =>
    exact (FileLoader.run_render x s.loader s.disk).2

variable {s} {identifier : Text}

lemma caching_after (hcaching : s.loader.cache.isSome = true) (history : List Event) :
    (s.after history).loader.cache.isSome = true := by
  induction history generalizing s with
  | nil => exact hcaching
  | cons e rest ih => exact ih ((s.loads_step e).caches.trans hcaching)

/-- A kept text is kept whatever happens. -/
lemma cached?_after_of_cached {content : Text}
    (hcached : s.loader.cached? identifier = some content) (history : List Event) :
    (s.after history).loader.cached? identifier = some content := by
  induction history generalizing s with
  | nil => exact hcached
  | cons e rest ih => exact ih ((s.loads_step e).cached?_persists hcached)

/-- A text that is not kept before a history is kept after it if it is loaded on the way, and it
is the one of the first load. -/
lemma cached?_after (hcaching : s.loader.cache.isSome = true)
    (hcached : s.loader.cached? identifier = none) (history : List Event) :
    match s.firstLoad? history identifier with
    | some disk => ∃ content, disk.read identifier = .ok content ∧
        (s.after history).loader.cached? identifier = some content
    | none => (s.after history).loader.cached? identifier = none := by
  induction history generalizing s with
  | nil => exact hcached
  | cons e rest ih =>
    have hloads := s.loads_step e
    rw [firstLoad?]
    by_cases hmem : identifier ∈ s.loadedBy e
    · obtain ⟨content, hview, hstep⟩ := hloads.cached?_of_mem hcaching hmem
      rw [FileLoader.view_of_not_cached hcached] at hview
      rw [if_pos (List.contains_iff_mem.mpr hmem)]
      exact ⟨content, hview, cached?_after_of_cached hstep rest⟩
    · rw [if_neg (mt List.contains_iff_mem.mp hmem)]
      refine ih (hloads.caches.trans hcaching) ?_
      rw [hloads.cached, if_neg fun h => hmem h.2, hcached]

/-- A caching loader answers after a history with the text that the file had when it was first
loaded, or with the one that it has now. -/
lemma load_after (hcaching : s.loader.cache.isSome = true)
    (hcached : s.loader.cached? identifier = none) (history : List Event) :
    ((s.after history).load identifier).2 =
      ((s.firstLoad? history identifier).getD (s.after history).disk).read identifier := by
  have h := cached?_after hcaching hcached history
  rw [load_snd]
  cases hfirst : s.firstLoad? history identifier with
  | some first =>
    rw [hfirst] at h
    obtain ⟨content, hread, hkept⟩ := h
    rw [FileLoader.view_of_cached hkept, Option.getD_some, hread]
  | none =>
    rw [hfirst] at h
    rw [FileLoader.view_of_not_cached h, Option.getD_none]

lemma firstLoad?_append (history later : List Event) :
    s.firstLoad? (history ++ later) identifier =
      (s.firstLoad? history identifier).or ((s.after history).firstLoad? later identifier) := by
  induction history generalizing s with
  | nil => rfl
  | cons e rest ih =>
    rw [List.cons_append, firstLoad?, firstLoad?, ih]
    split
    · rfl
    · rfl

/-- The load that ends a history is the first one, or answers as the first one. -/
lemma exists_firstLoad?_of_load (hcaching : s.loader.cache.isSome = true)
    (hcached : s.loader.cached? identifier = none) {history : List Event} {content : Text}
    (hok : ((s.after history).load identifier).2 = .ok content) :
    ∃ first, s.firstLoad? (history ++ [.load identifier]) identifier = some first ∧
      first.read identifier = .ok content := by
  have hread := hok
  rw [load_after hcaching hcached] at hread
  rw [firstLoad?_append]
  cases h : s.firstLoad? history identifier with
  | some first =>
    rw [h] at hread
    exact ⟨first, rfl, hread⟩
  | none =>
    rw [h] at hread
    refine ⟨(s.after history).disk, ?_, hread⟩
    have hmem : identifier ∈ (s.after history).loadedBy (.load identifier) := by
      rw [loadedBy, hok]
      exact List.mem_singleton_self identifier
    rw [Option.none_or, firstLoad?, if_pos (List.contains_iff_mem.mpr hmem)]

lemma exists_load_after_iff (hcaching : s.loader.cache.isSome = true)
    (hcached : s.loader.cached? identifier = none) (history : List Event) :
    (∃ content, ((s.after history).load identifier).2 = .ok content) ↔
      (s.firstLoad? history identifier).isSome = true ∨
        ∃ content, (s.after history).disk.read identifier = .ok content := by
  have h := cached?_after hcaching hcached history
  rw [load_after hcaching hcached]
  cases hfirst : s.firstLoad? history identifier with
  | some first =>
    rw [hfirst] at h
    obtain ⟨content, hread, -⟩ := h
    simp [hread]
  | none => simp

lemma load_of_error {reason : Text} (h : (s.load identifier).2 = .error reason) :
    (s.load identifier).1 = s := by
  rw [load_snd] at h
  have hcached : s.loader.cached? identifier = none := by
    rw [Option.eq_none_iff_forall_not_mem]
    intro content hcontent
    rw [FileLoader.view_of_cached hcontent] at h
    cases h
  rw [FileLoader.view_of_not_cached hcached] at h
  have hrun : (s.loader.load identifier).run s.disk = (s.loader, .error reason) := by
    rw [FileLoader.load, hcached]
    dsimp only
    rw [FileTask.run_bind, FileTask.readText, FileTask.run, h]
    rfl
  rw [load, hrun]

lemma outcomes_eq (xs : List (Rendering Text)) :
    s.outcomes xs = xs.map fun x => x.run (s.loader.view s.disk) := by
  induction xs generalizing s with
  | nil => rfl
  | cons x rest ih =>
    have hview : (s.render x).1.loader.view s.disk = s.loader.view s.disk :=
      (s.loads_step (.render x)).view_eq
    rw [outcomes, List.map_cons, render_snd, ih]
    exact congrArg _ (congrArg (rest.map fun x => x.run ·) hview)

/-- A loader that has loaded nothing is not seen. -/
lemma outcomes_of_fresh (hfresh : ∀ identifier, s.loader.cached? identifier = none)
    (xs : List (Rendering Text)) : s.outcomes xs = xs.map fun x => x.run s.disk.read := by
  have hview : s.loader.view s.disk = s.disk.read :=
    funext fun identifier => FileLoader.view_of_not_cached (hfresh identifier)
  rw [outcomes_eq, hview]

/-- What a rendering that succeeded has loaded is found again, and with it the same outcome. -/
lemma render_again (hcaching : s.loader.cache.isSome = true) {x : Rendering Text} {content : Text}
    (hok : (s.render x).2.result = .ok content) (between : List Event) :
    (((s.step (.render x)).after between).render x).2 = (s.render x).2 := by
  rw [render_snd] at hok
  rw [render_snd, render_snd]
  refine Rendering.run_eq_of_loads hok fun identifier hmem => ?_
  obtain ⟨content, hview, hcached⟩ :=
    (s.loads_step (.render x)).cached?_of_mem hcaching hmem
  rw [hview]
  exact FileLoader.view_of_cached (cached?_after_of_cached hcached between)

/-- Whatever happens to a disk under a caching loader: a load that succeeds answers with the text
of the first load, a load that fails leaves the loader as it is, and a load succeeds just when the
template was loaded before or can be read. So calls on an unchanged disk do not see the cache, and
a call that succeeded ends alike whenever it is repeated. -/
theorem caching_snapshot (disk : Disk) (history : List Event) :
    let start : Session := ⟨.caching, disk⟩
    let now := start.after history
    (∀ identifier content, (now.load identifier).2 = .ok content →
      ∃ first, start.firstLoad? (history ++ [.load identifier]) identifier = some first ∧
        first.read identifier = .ok content) ∧
    (∀ identifier reason, (now.load identifier).2 = .error reason →
      (now.load identifier).1 = now) ∧
    (∀ identifier, (∃ content, (now.load identifier).2 = .ok content) ↔
      (start.firstLoad? history identifier).isSome = true ∨
        ∃ content, now.disk.read identifier = .ok content) ∧
    ∀ r : Renderer,
      (∀ calls : List (Fields × Call),
        start.outcomes (calls.map fun call => r.perform call.1 call.2) =
          outcomes ⟨.uncached, disk⟩ (calls.map fun call => r.perform call.1 call.2)) ∧
      ∀ vars call rendered,
        Rendered.ofOutcome (now.render (r.perform vars call)).2 = .ok rendered →
          ∀ between, Rendered.ofOutcome (((now.step (.render (r.perform vars call))).after
            between).render (r.perform vars call)).2 = .ok rendered := by
  intro start now
  refine ⟨fun identifier content hok => exists_firstLoad?_of_load rfl rfl hok,
    fun identifier reason => load_of_error, fun identifier => exists_load_after_iff rfl rfl history,
    fun r => ⟨fun calls => ?_, fun vars call rendered hok between => ?_⟩⟩
  · rw [outcomes_of_fresh fun _ => rfl, outcomes_of_fresh fun _ => rfl]
  · obtain ⟨content, files⟩ := rendered
    obtain ⟨hresult, -⟩ := Rendered.ofOutcome_eq_ok.mp hok
    rw [render_again (caching_after rfl history) hresult between, hok]

/-- A page that is loaded, rendered, written anew and removed. -/
theorem caching_snapshot_page :
    let page := "/n/page.yapl".toList
    let names := ["n".toList, "page.yapl".toList]
    let start : Session := ⟨.caching, (Disk.mk [] []).write names (Utf8.encode "[{{ x }}]".toList)⟩
    let history : List Event := [.change (·.write names [255]), .load page,
      .change (·.write names (Utf8.encode "<{{ x }}>".toList)), .load page,
      .change (·.write names (Utf8.encode "new".toList))]
    let now := start.after history
    let resolver := FileResolver.ofBase ⟨true, []⟩ (.ofText "/n".toList) true
    let r : Renderer := { resolver := some resolver.resolve, hasLoader := true }
    let call := r.perform [("x".toList, .string "1".toList)] (.file "page".toList)
    (∃ first, start.firstLoad? (history ++ [.load page]) page = some first ∧
      first.read page = .ok "<{{ x }}>".toList) ∧
    now.disk.read page = .ok "new".toList ∧
    Rendered.ofOutcome (now.render call).2 = .ok ⟨"<1>".toList, [page]⟩ ∧
    Rendered.ofOutcome (((now.step (.render call)).after
      [.change (·.remove names)]).render call).2 = .ok ⟨"<1>".toList, [page]⟩ := by
  intro page names start history now resolver r call
  have hcall : Rendered.ofOutcome (now.render call).2 = .ok ⟨"<1>".toList, [page]⟩ := by
    decide +kernel
  obtain ⟨hfirst, -, -, hcalls⟩ := caching_snapshot start.disk history
  exact ⟨hfirst page _ (by decide +kernel), by decide +kernel, hcall,
    (hcalls r).2 _ _ _ hcall [.change (·.remove names)]⟩

end Session
end Stencil
