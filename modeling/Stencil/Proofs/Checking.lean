import Stencil.CommandLine.Program
import Stencil.Proofs.Snapshot

/-! Templates that are checked one after the other with one loader. What the loader keeps from the
templates before is what it would find anyway, so that each template is rendered as if it were the
only one. Main statement: a template passes a check just when the program renders it, whichever
templates are checked with it. -/
namespace Stencil.CommandLine

/-- What the exit of a rendering says about the line that a check prints for the same template: the
number of the files that were used, or the message. -/
inductive Marks (exit : Exit) (usedFiles : Bool) (template : Text) : Text → Prop
  | passed (files : List Text) (hcode : exit.code = 0)
      (hreport : usedFiles = true → exit.stderr =
        "Used files:\n".toList ++ files.flatMap fun file => "  ".toList ++ file ++ ['\n']) :
      Marks exit usedFiles template ("✓ ".toList ++ template ++ " (".toList
        ++ Decimal.digitsOf files.length ++ " file(s))\n".toList)
  | failed (message : Text) (hexit : exit = .failure [] message) :
      Marks exit usedFiles template ("✗ ".toList ++ template ++ ": ".toList ++ message ++ ['\n'])

namespace Setup
variable (setup : Setup) (disk : Disk)

/-- The result of a template on files that do not change. -/
def result (template : Text) : Except TemplateError Rendered :=
  Rendered.ofOutcome ((setup.renderer.renderFile template setup.vars).run disk.read)

variable {loader : FileLoader} (hview : loader.view disk = disk.read)
include hview

/-- One template leaves a loader that finds what it found before, also if the template failed. -/
lemma run_render (template : Text) :
    ((setup.render loader template).run disk).2 = setup.result disk template ∧
      ((setup.render loader template).run disk).1.view disk = disk.read := by
  obtain ⟨houtcome, hloads⟩ :=
    FileLoader.run_render (setup.renderer.renderFile template setup.vars) loader disk
  rw [hview] at houtcome
  rw [render, FileTask.run_bind]
  exact ⟨congrArg Rendered.ofOutcome houtcome, hloads.view_eq.trans hview⟩

lemma run_checkAll (templates : List Text) : (checkAll setup loader templates).run disk =
    templates.map fun template => (template, setup.result disk template) := by
  induction templates generalizing loader with
  | nil => rfl
  | cons template rest ih =>
    obtain ⟨hresult, hnext⟩ := setup.run_render disk hview template
    have hrest := ih hnext
    rw [checkAll, FileTask.run_bind, List.map_cons]
    generalize (setup.render loader template).run disk = step at hresult hrest ⊢
    obtain ⟨after, answer⟩ := step
    dsimp only at hresult hrest ⊢
    rw [FileTask.run_bind, FileTask.run_pure, hrest, hresult]

end Setup

variable (setup : Setup) (disk : Disk)

lemma view_caching : FileLoader.caching.view disk = disk.read :=
  funext fun _ => FileLoader.view_of_not_cached rfl

lemma run_runRender (template : Text) (usedFiles : Bool) :
    (runRender setup template usedFiles).run disk = match setup.result disk template with
      | .ok r => ⟨0, r.content, if usedFiles then usedFilesReport setup r else []⟩
      | .error e => .failure [] e.message := by
  obtain ⟨hresult, -⟩ := setup.run_render disk (view_caching disk) template
  rw [runRender, FileTask.run_bind, ← hresult]
  generalize (setup.render .caching template).run disk = step
  obtain ⟨after, answer⟩ := step
  cases answer <;> rfl

lemma run_runCheck (templates : List Text) : (runCheck setup templates).run disk =
    let stdout := templates.flatMap fun template =>
      checkLine template (setup.result disk template)
    let failures := templates.countP fun template => failed (setup.result disk template)
    if failures = 0 then ⟨0, stdout, []⟩
    else .failure stdout (Decimal.digitsOf failures ++ " of ".toList
      ++ Decimal.digitsOf templates.length ++ " template(s) failed".toList) := by
  rw [runCheck, FileTask.run_bind, setup.run_checkAll disk (view_caching disk)]
  rw [List.flatMap_map, List.countP_map]
  dsimp only [Function.comp_def]
  split <;> rfl

lemma usedFilesReport_eq (r : Rendered) : usedFilesReport setup r = "Used files:\n".toList ++
    (r.usedFiles.map setup.displayPath).flatMap fun file => "  ".toList ++ file ++ ['\n'] := by
  have hlines := List.flatMap_map setup.displayPath
    (fun file : Text => "  ".toList ++ file ++ ['\n']) r.usedFiles
  exact congrArg ("Used files:\n".toList ++ ·) hlines.symm

lemma marks_checkLine (template : Text) (usedFiles : Bool) :
    Marks ((runRender setup template usedFiles).run disk) usedFiles template
      (checkLine template (setup.result disk template)) := by
  rw [run_runRender]
  cases setup.result disk template with
  | error e => exact .failed e.message rfl
  | ok r =>
    have hlength : (r.usedFiles.map setup.displayPath).length = r.usedFiles.length :=
      List.length_map setup.displayPath
    dsimp only [checkLine]
    rw [← hlength]
    refine .passed (r.usedFiles.map setup.displayPath) rfl fun hused => ?_
    rw [← usedFilesReport_eq]
    exact if_pos hused

lemma code_runRender_ne_zero (template : Text) (usedFiles : Bool) :
    ((runRender setup template usedFiles).run disk).code ≠ 0 ↔
      failed (setup.result disk template) = true := by
  rw [run_runRender]
  cases setup.result disk template <;> simp [failed, Exit.failure]

/-- If the options do not load, neither command does anything else. If they do, every template has
a line of its own that agrees with what the program does when it renders this template alone, the
lines of a check stand in the order of the templates, and a check fails just when one of these
renderings does. -/
theorem check_agrees_with_render (env : Environment) (arguments : RenderArguments) (disk : Disk)
    (usedFiles : Bool) :
    let check templates := (runCommand env (.check templates arguments)).run disk
    let render template := (runCommand env (.render template arguments usedFiles)).run disk
    match (Setup.load env arguments).run.run disk with
    | .error message => ∀ templates template,
      check templates = .failure [] message ∧ render template = .failure [] message
    | .ok _ => ∃ line : Text → Text,
      (∀ template, Marks (render template) usedFiles template (line template)) ∧
        ∀ templates, (check templates).stdout = templates.flatMap line ∧
          (check templates).code =
            if ∃ template ∈ templates, (render template).code ≠ 0 then 1 else 0 := by
  intro check render
  have hcheck templates : check templates = match (Setup.load env arguments).run.run disk with
      | .error message => .failure [] message
      | .ok setup => (runCheck setup templates).run disk := by
    dsimp only [check]
    rw [runCommand, FileTask.run_bind, Command.arguments]
    cases (Setup.load env arguments).run.run disk <;> rfl
  have hrender template : render template = match (Setup.load env arguments).run.run disk with
      | .error message => .failure [] message
      | .ok setup => (runRender setup template usedFiles).run disk := by
    dsimp only [render]
    rw [runCommand, FileTask.run_bind, Command.arguments]
    cases (Setup.load env arguments).run.run disk <;> rfl
  cases hload : (Setup.load env arguments).run.run disk with
  | error message =>
    simp only [hload] at hcheck hrender
    exact fun templates template => ⟨hcheck templates, hrender template⟩
  | ok setup =>
    simp only [hload] at hcheck hrender
    refine ⟨fun template => checkLine template (setup.result disk template),
      fun template => hrender template ▸ marks_checkLine setup disk template usedFiles,
      fun templates => ?_⟩
    rw [hcheck, run_runCheck]
    simp only [hrender, code_runRender_ne_zero]
    by_cases hfailed : ∃ template ∈ templates, failed (setup.result disk template) = true
    · rw [if_pos hfailed, if_neg (by simpa using hfailed)]
      exact ⟨rfl, rfl⟩
    · rw [if_neg hfailed, if_pos (by simpa using hfailed)]
      exact ⟨rfl, rfl⟩

/-- A page that is there is checked before and after one that is not. -/
theorem check_agrees_with_render_pages :
    let env : Environment := { workingDirectory := "/n".toList }
    let disk := (Disk.ofWorkingDirectory ["n".toList]).write ["n".toList, "page.yapl".toList]
      (Utf8.encode "text".toList)
    let render template := (runCommand env (.render template {} false)).run disk
    let check templates := (runCommand env (.check templates {})).run disk
    let page := "page".toList
    let gone := "gone".toList
    (render page).code = 0 ∧ (render gone).code = 1 ∧ ∃ line : Text → Text,
      Marks (render page) false page (line page) ∧ Marks (render gone) false gone (line gone) ∧
      (check [page, gone, page]).stdout = line page ++ (line gone ++ line page) ∧
      (check [page, gone, page]).code = 1 := by
  intro env disk render check page gone
  have hpage : (render page).code = 0 := by decide +kernel
  have hgone : (render gone).code = 1 := by decide +kernel
  have hagrees := check_agrees_with_render env {} disk false
  cases hload : (Setup.load env {}).run.run disk with
  | error message =>
    simp only [hload] at hagrees
    have hfailure : render page = .failure [] message := (hagrees [] page).2
    rw [hfailure] at hpage
    cases hpage
  | ok setup =>
    simp only [hload] at hagrees
    obtain ⟨line, hmarks, hcheck⟩ := hagrees
    obtain ⟨hstdout, hcode⟩ := hcheck [page, gone, page]
    have hfails : ∃ template ∈ [page, gone, page], (render template).code ≠ 0 :=
      ⟨gone, by simp, by simp [hgone]⟩
    rw [if_pos hfails] at hcode
    refine ⟨hpage, hgone, line, hmarks page, hmarks gone, ?_, hcode⟩
    simpa using hstdout

end Stencil.CommandLine
