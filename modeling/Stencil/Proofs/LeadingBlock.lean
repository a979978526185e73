import Stencil.Proofs.Outcome
import Stencil.Proofs.Spacing
import Stencil.Proofs.Whitespace

/-! A block put in front of a template. White space control and the scanner pass over it, so that
the template behind it is read as before but for white space at its start. -/
namespace Stencil

/-- A block with the given body in front of a template. -/
def writeBlock (name body : Text) : Text :=
  writeTag .control ("block ".toList ++ name) ++ (body ++ writeTag .control "endblock".toList)

/-- `super()` as the body of a block, or else no body. -/
def superBody (inherits : Bool) : Text :=
  if inherits then writeTag .value "super()".toList else []

def blockSymbol (name : Text) : Symbol :=
  .tag (.openBlock name) (writeTag .control ("block ".toList ++ name))
def endBlockSymbol : Symbol := .tag .closeBlock (writeTag .control "endblock".toList)
def superSymbol : Symbol := .tag .superCall (writeTag .value "super()".toList)

def superSymbols (inherits : Bool) : List Symbol := if inherits then [superSymbol] else []

/-- The symbols of a block in front of a template. -/
def blockSymbols (name : Text) (inherits : Bool) : List Symbol :=
  blockSymbol name :: (superSymbols inherits ++ [endBlockSymbol])

section
variable {name : Text} (hname : Tag.isBlockName name = true)
include hname

lemma mem_blockName {c : Char} (hc : c ∈ name) :
    Text.isWordChar c = true ∨ c = ':' ∨ c = '-' := by
  simp only [Tag.isBlockName, Text.isWordOf, Bool.and_eq_true, List.all_eq_true, Bool.or_eq_true,
    beq_iff_eq, or_assoc] at hname
  exact hname.2 c hc

lemma not_mem_blockTag {c : Char} (hword : Text.isWordChar c = false)
    (hc : c ∉ "block :-".toList) : c ∉ "block ".toList ++ name := by
  intro h
  rcases List.mem_append.mp h with h | h
  · exact hc (by simp at h ⊢; tauto)
  · rcases mem_blockName hname h with h | rfl | rfl
    · rw [h] at hword
      cases hword
    · exact hc (by simp)
    · exact hc (by simp)

lemma isTrimmed_blockName : Text.IsTrimmed name := by
  refine Text.IsWord.isTrimmed ⟨Text.ne_nil_of_isWordOf hname, fun c hc => ?_⟩
  rcases mem_blockName hname hc with h | rfl | rfl
  · exact Text.isWhite_of_isWordChar h
  · decide
  · decide

lemma reads_blockTag :
    Scan.Reads (writeTag .control ("block ".toList ++ name)) [blockSymbol name] := by
  have hread := reads_writeTag .control _ (not_mem_blockTag hname (c := '}') (by decide) (by decide))
  have htrimmed := isTrimmed_blockName hname
  have htrim : Text.IsTrimmed ("block ".toList ++ name) := by
    refine ⟨by simp; decide, fun c hc => ?_⟩
    have hne : name ≠ [] := Text.ne_nil_of_isWordOf hname
    rw [List.getLast?_append, List.getLast?_eq_getLast_of_ne_nil hne] at hc
    apply htrimmed.2
    rw [List.getLast?_eq_getLast_of_ne_nil hne]
    simpa using hc
  have hkeyword := splitKeyword_append "block".toList rfl name
  have htag : Tag.ofControl ("block ".toList ++ name) = .openBlock name := by
    change Tag.splitKeyword ("block ".toList ++ name) = _ at hkeyword
    rw [htrimmed.trim_eq] at hkeyword
    rw [Tag.ofControl, hkeyword]
    simp [hname]
  rwa [tagSymbol_control htrim, htag] at hread

lemma reads_writeBlock (inherits : Bool) :
    Scan.Reads (writeBlock name (superBody inherits)) (blockSymbols name inherits) := by
  have hend : Scan.Reads (writeTag .control "endblock".toList) [endBlockSymbol] := by
    have := reads_writeTag .control "endblock".toList (by decide)
    rwa [show tagSymbol .control "endblock".toList = endBlockSymbol by decide] at this
  have hsuper : Scan.Reads (superBody inherits) (superSymbols inherits) := by
    cases inherits with
    | false => exact .nil
    | true =>
      have := reads_writeTag .value "super()".toList (by decide)
      rwa [show tagSymbol .value "super()".toList = superSymbol by decide] at this
  exact (reads_blockTag hname).append (hsuper.append hend)

lemma scan_writeBlock (inherits : Bool) (rest : Text) :
    Whitespace.Mark.scan (writeBlock name (superBody inherits) ++ rest) =
      (writeBlock name (superBody inherits)).map .char ++ Whitespace.Mark.scan rest := by
  have hsuper (rest : Text) : Whitespace.Mark.scan (superBody inherits ++ rest) =
      (superBody inherits).map .char ++ Whitespace.Mark.scan rest := by
    cases inherits with
    | false => rfl
    | true => exact Whitespace.Mark.scan_writeTag .value (by decide) (by decide) rest
  rw [writeBlock, List.append_assoc, Whitespace.Mark.scan_writeTag .control
    (not_mem_blockTag hname (by decide) (by decide))
    (not_mem_blockTag hname (by decide) (by decide)), List.append_assoc, hsuper,
    Whitespace.Mark.scan_writeTag .control (by decide) (by decide)]
  simp

lemma applyMarkers_writeBlock (inherits : Bool) (s : Text) :
    Whitespace.applyMarkers (writeBlock name (superBody inherits) ++ s) =
      writeBlock name (superBody inherits) ++ Whitespace.applyMarkers s := by
  have hlast : writeBlock name (superBody inherits) =
      writeTag .control ("block ".toList ++ name) ++ (superBody inherits ++
        "\x7b% endblock %".toList) ++ ['}'] := by
    simp [writeBlock, writeTag, Delimiter.openChar, Delimiter.closeChar]
  exact Whitespace.applyMarkers_append hlast (by decide) (scan_writeBlock hname inherits) s

lemma not_mem_writeBlock (inherits : Bool) : '\n' ∉ writeBlock name (superBody inherits) := by
  have hopen := not_mem_blockTag hname (c := '\n') (by decide) (by decide)
  simp only [List.mem_append, not_or] at hopen
  cases inherits <;>
    simp [writeBlock, superBody, writeTag, Delimiter.openChar, Delimiter.closeChar, hopen.2]

lemma trimBreaks_writeBlock (inherits : Bool) (s : Text) :
    Whitespace.trimBreaks (writeBlock name (superBody inherits) ++ s) =
      writeBlock name (superBody inherits) ++
        Whitespace.trimBreaksFrom (Whitespace.breakFollows s) s := by
  have hopen := not_mem_blockTag hname (c := '%') (by decide) (by decide)
  have hend := Whitespace.trimBreaksFrom_controlTag "endblock".toList (by decide) s
  have hbody : Whitespace.breakFollows
      (superBody inherits ++ (writeTag .control "endblock".toList ++ s)) = false := by
    cases inherits <;> rfl
  have hsuper := Whitespace.trimBreaksFrom_append (s := superBody inherits)
    (by cases inherits <;> decide) (writeTag .control "endblock".toList ++ s)
  rw [writeBlock, List.append_assoc, List.append_assoc, Whitespace.trimBreaks,
    Whitespace.trimBreaksFrom_controlTag _ hopen, hbody, hsuper, hend]
  simp

/-- White space control leaves the block alone, and the template behind it but for white space at
its start. -/
lemma applyGlobal_writeBlock (options : WhitespaceOptions) (inherits : Bool) (s : Text) :
    ∃ lost kept rest : Text, '{' ∉ lost ∧ '{' ∉ kept ∧
      Whitespace.applyGlobal options s = lost ++ rest ∧
      Whitespace.applyGlobal options (writeBlock name (superBody inherits) ++ s) =
        writeBlock name (superBody inherits) ++ (kept ++ rest) := by
  have hstrip : ∃ w : Text, (∀ c ∈ w, Text.isIndent c = true) ∧
      (if options.lstripBlocks then
          Whitespace.stripIndents (writeBlock name (superBody inherits) ++ s)
        else writeBlock name (superBody inherits) ++ s) =
      writeBlock name (superBody inherits) ++
        (w ++ if options.lstripBlocks then Whitespace.stripIndents s else s) := by
    cases options.lstripBlocks with
    | false => exact ⟨[], by simp, rfl⟩
    | true =>
      obtain ⟨w, hw, heq⟩ := Whitespace.stripIndents_append
        (a := writeBlock name (superBody inherits)) (by simp [writeBlock, writeTag]; decide)
        (by simp [writeBlock, writeTag]) (not_mem_writeBlock hname inherits) s
      exact ⟨w, hw, by simpa using heq⟩
  obtain ⟨w, hw, heq⟩ := hstrip
  have hbrace : '{' ∉ w := fun h => absurd (hw _ h) (by decide)
  unfold Whitespace.applyGlobal
  simp only [heq]
  cases options.trimBlocks with
  | false => exact ⟨[], w, _, by simp, hbrace, rfl, rfl⟩
  | true =>
    obtain ⟨lost, kept, rest, hlost, hkept, hs, htrim⟩ :=
      Whitespace.exists_trimBreaks hw (if options.lstripBlocks then Whitespace.stripIndents s else s)
    refine ⟨lost, kept, rest, hlost, hkept, hs, ?_⟩
    simp only [if_true]
    rw [trimBreaks_writeBlock hname, htrim]

omit hname in
lemma symbols_withoutComments {s : Text} {l : List Symbol} (hs : Scan.Reads s l)
    (hl : (l.any fun y => y.tag?.any Renderer.isComment) = false) (rest : Text) :
    Scan.symbols (Symbol.textWithout Renderer.isComment (Scan.symbols (s ++ rest))) =
      l ++ Scan.symbols (Symbol.textWithout Renderer.isComment (Scan.symbols rest)) := by
  rw [hs, Symbol.textWithout_append, Symbol.textWithout_of_none hl, hs.textOf_eq, hs]

/-- A template with a block in front is read as the block and the template, but for white space
between them. -/
lemma read_writeBlock (r : Renderer) (inherits : Bool) (s : Text) :
    ∃ (lost kept : Text) (l : List Symbol), r.read s = lost.map .char ++ l ∧
      r.read (writeBlock name (superBody inherits) ++ s) =
        blockSymbols name inherits ++ (kept.map .char ++ l) := by
  have hchar (w : Text) : ((w.map Symbol.char).any fun y => y.tag?.any Renderer.isComment) =
      false := by
    simp [List.any_eq_false, Symbol.tag?]
  have hblock : ((blockSymbols name inherits).any fun y => y.tag?.any Renderer.isComment) =
      false := by
    cases inherits <;> rfl
  obtain ⟨lost, kept, rest, hlost, hkept, hs, hboth⟩ := applyGlobal_writeBlock hname
    r.options.whitespace inherits (Whitespace.applyMarkers s)
  refine ⟨lost, kept,
    Scan.symbols (Symbol.textWithout Renderer.isComment (Scan.symbols rest)), ?_, ?_⟩
  · rw [Renderer.read, Renderer.preprocess, hs,
      symbols_withoutComments (.of_not_mem hlost) (hchar lost)]
  · rw [Renderer.read, Renderer.preprocess, applyMarkers_writeBlock hname, hboth,
      symbols_withoutComments (reads_writeBlock hname inherits) hblock,
      symbols_withoutComments (.of_not_mem hkept) (hchar kept)]

end
end Stencil
