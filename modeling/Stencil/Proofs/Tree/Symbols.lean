import Stencil.Proofs.Markers
import Stencil.Proofs.Matching
import Stencil.Proofs.Tree.Tags

/-! The symbols of a written tree. They are those of its parts, one part after the other, with its
conditionals and loops matched as the tree nests them. -/
namespace Stencil

namespace Tree

def placeholderSymbol (path : Text) : Symbol :=
  .tag (.placeholder path none) (writeTag .value path)
def ifSymbol (condition : Text) : Symbol := .tag (.openIf condition) (ifTag condition)
def elseIfSymbol (condition : Text) : Symbol := .tag (.elseIf condition) (elseIfTag condition)
def elseSymbol : Symbol := .tag .orElse elseTag
def endIfSymbol : Symbol := .tag .closeIf endIfTag
def forSymbol (item source : Text) : Symbol := .tag (.openFor item source) (forTag item source)
def endForSymbol : Symbol := .tag .closeFor endForTag

mutual

/-- The symbols that are read from the written form; hidden loops are plain text. -/
def Node.symbols (hidden : Bool) : Node → List Symbol
  | .text s => s.text.map .char
  | .placeholder path => [placeholderSymbol path.text]
  | .choice condition body rest =>
    ifSymbol condition.text :: (symbols hidden body ++ rest.symbols hidden) ++ [endIfSymbol]
  | .loop item source body =>
    if hidden then (forTag item.text source.text ++ print body ++ endForTag).map .char
    else forSymbol item.text source.text :: symbols hidden body ++ [endForSymbol]

def Branches.symbols (hidden : Bool) : Branches → List Symbol
  | .done => []
  | .orElse body => elseSymbol :: symbols hidden body
  | .elseIf condition body rest =>
    elseIfSymbol condition.text :: symbols hidden body ++ rest.symbols hidden

def symbols (hidden : Bool) : List Node → List Symbol
  | [] => []
  | node :: rest => node.symbols hidden ++ symbols hidden rest

end

lemma not_mem_append {c : Char} (hc : c ∈ ['{', '}', '%', '#']) (words : Text)
    (hwords : c ∉ words) (e : Expression) : c ∉ words ++ e.text := by
  intro h
  rcases List.mem_append.mp h with h | h
  · exact hwords h
  · exact e.literal c h hc

lemma not_mem_loop {c : Char} (hc : c ∈ ['{', '}', '%', '#']) (hw : c ∉ "for in ".toList)
    (hword : Text.isWordChar c = false) (item : Name) (source : Expression) :
    c ∉ "for ".toList ++ item.text ++ " in ".toList ++ source.text := by
  apply not_mem_append hc _
  have hitem : c ∉ item.text := by
    intro h
    rw [item.isWordChar h] at hword
    cases hword
  simp_all

lemma reads_placeholder (path : Path) :
    Scan.Reads (writeTag .value path.text) [placeholderSymbol path.text] := by
  have := reads_writeTag .value _ (path.not_mem (c := '}') (by decide) (by decide))
  rwa [tagSymbol_value path.isTrimmed, path.ofVariable] at this

lemma reads_ifTag (e : Expression) : Scan.Reads (ifTag e.text) [ifSymbol e.text] := by
  have := reads_writeTag .control _ (not_mem_append (by decide) "if ".toList (by decide) e)
  rwa [tagSymbol_control (e.isTrimmed_append "if ".toList rfl (by decide)),
    ofControl_if] at this

lemma reads_elseIfTag (e : Expression) :
    Scan.Reads (elseIfTag e.text) [elseIfSymbol e.text] := by
  have := reads_writeTag .control _ (not_mem_append (by decide) "elseif ".toList (by decide) e)
  rwa [tagSymbol_control (e.isTrimmed_append "elseif ".toList rfl (by decide)),
    ofControl_elseIf] at this

lemma reads_forTag (item : Name) (source : Expression) :
    Scan.Reads (forTag item.text source.text) [forSymbol item.text source.text] := by
  have := reads_writeTag .control _
    (not_mem_loop (c := '}') (by decide) (by decide) (by decide) item source)
  have htrim : Text.IsTrimmed ("for ".toList ++ item.text ++ " in ".toList ++ source.text) :=
    source.isTrimmed_append ("for ".toList ++ item.text ++ " in ".toList) rfl (by decide)
  rwa [tagSymbol_control htrim, ofControl_for] at this

lemma reads_elseTag : Scan.Reads elseTag [elseSymbol] := by
  have := reads_writeTag .control "else".toList (by decide)
  rwa [show tagSymbol .control "else".toList = elseSymbol by decide] at this

lemma reads_endIfTag : Scan.Reads endIfTag [endIfSymbol] := by
  have := reads_writeTag .control "endif".toList (by decide)
  rwa [show tagSymbol .control "endif".toList = endIfSymbol by decide] at this

lemma reads_endForTag : Scan.Reads endForTag [endForSymbol] := by
  have := reads_writeTag .control "endfor".toList (by decide)
  rwa [show tagSymbol .control "endfor".toList = endForSymbol by decide] at this

mutual

theorem Node.reads_print : (node : Node) → Scan.Reads node.print (node.symbols false)
  | .text s => .of_not_mem s.not_mem
  | .placeholder path => reads_placeholder path
  | .choice condition body rest => by
    have h := (reads_ifTag condition).append
      ((reads_print body).append (rest.reads_print.append reads_endIfTag))
    simpa [Node.print, Node.symbols] using h
  | .loop item source body => by
    have h := (reads_forTag item source).append ((reads_print body).append reads_endForTag)
    simpa [Node.print, Node.symbols] using h

theorem Branches.reads_print : (rest : Branches) → Scan.Reads rest.print (rest.symbols false)
  | .done => .nil
  | .orElse body => reads_elseTag.append (reads_print body)
  | .elseIf condition body rest => by
    have h := (reads_elseIfTag condition).append ((reads_print body).append rest.reads_print)
    simpa [Branches.print, Branches.symbols] using h

/-- A written tree is read as its symbols, whatever follows it. -/
theorem reads_print : (t : Tree) → Scan.Reads (print t) (symbols false t)
  | [] => .nil
  | node :: rest => node.reads_print.append (reads_print rest)

end

@[simp] lemma textOf_symbols (t : Tree) : Symbol.textOf (symbols false t) = print t :=
  (reads_print t).textOf_eq

/-- The tags that occur in written trees. -/
def isTreeTag : Tag → Bool
  | .placeholder _ none | .openIf _ | .elseIf _ | .orElse | .closeIf | .openFor .. | .closeFor => true
  | _ => false

lemma forall_map_char (s : Text) : ∀ y ∈ s.map Symbol.char, y.tag?.all isTreeTag = true := by
  intro y hy
  obtain ⟨c, -, rfl⟩ := List.mem_map.mp hy
  rfl

mutual

lemma Node.isTreeTag_symbols (hidden : Bool) :
    (node : Node) → ∀ y ∈ node.symbols hidden, y.tag?.all isTreeTag = true
  | .text s => forall_map_char s.text
  | .placeholder path => by simp [Node.symbols, placeholderSymbol, Symbol.tag?, isTreeTag]
  | .choice condition body rest => by
    simp only [Node.symbols, List.cons_append, List.append_assoc, List.forall_mem_cons,
      List.forall_mem_append, List.not_mem_nil, IsEmpty.forall_iff, implies_true, and_true]
    exact ⟨rfl, isTreeTag_symbols hidden body, rest.isTreeTag_symbols hidden, rfl⟩
  | .loop item source body => by
    cases hidden with
    | true => exact forall_map_char _
    | false =>
      simp only [Node.symbols, Bool.false_eq_true, if_false, List.cons_append,
        List.forall_mem_cons, List.forall_mem_append, List.not_mem_nil, IsEmpty.forall_iff,
        implies_true, and_true]
      exact ⟨rfl, isTreeTag_symbols false body, rfl⟩

lemma Branches.isTreeTag_symbols (hidden : Bool) :
    (rest : Branches) → ∀ y ∈ rest.symbols hidden, y.tag?.all isTreeTag = true
  | .done => by simp [Branches.symbols]
  | .orElse body => by
    simp only [Branches.symbols, List.forall_mem_cons]
    exact ⟨rfl, isTreeTag_symbols hidden body⟩
  | .elseIf condition body rest => by
    simp only [Branches.symbols, List.cons_append, List.forall_mem_cons, List.forall_mem_append]
    exact ⟨rfl, isTreeTag_symbols hidden body, rest.isTreeTag_symbols hidden⟩

lemma isTreeTag_symbols (hidden : Bool) :
    (t : Tree) → ∀ y ∈ symbols hidden t, y.tag?.all isTreeTag = true
  | [] => by simp [symbols]
  | node :: rest => by
    simp only [symbols, List.forall_mem_append]
    exact ⟨node.isTreeTag_symbols hidden, isTreeTag_symbols hidden rest⟩

end

mutual

lemma Node.balanced_symbols (p : Pair) (hidden : Bool) :
    (node : Node) → Balanced p (node.symbols hidden)
  | .text s => Balanced.map_char p s.text
  | .placeholder _ => .single rfl rfl
  | .choice condition body rest => by
    have hbody := (balanced_symbols p hidden body).append (rest.balanced_symbols p hidden)
    cases p with
    | conditional => exact .construct rfl hbody rfl rfl
    | loop => exact (Balanced.cons rfl rfl hbody).append (.single rfl rfl)
    | block => exact (Balanced.cons rfl rfl hbody).append (.single rfl rfl)
  | .loop item source body => by
    have hbody := balanced_symbols p false body
    cases hidden with
    | true => exact Balanced.map_char p _
    | false =>
      cases p with
      | loop => exact .construct rfl hbody rfl rfl
      | conditional => exact (Balanced.cons rfl rfl hbody).append (.single rfl rfl)
      | block => exact (Balanced.cons rfl rfl hbody).append (.single rfl rfl)

lemma Branches.balanced_symbols (p : Pair) (hidden : Bool) :
    (rest : Branches) → Balanced p (rest.symbols hidden)
  | .done => .nil
  | .orElse body => .cons rfl rfl (balanced_symbols p hidden body)
  | .elseIf _ body rest =>
    (Balanced.cons rfl rfl (balanced_symbols p hidden body)).append (rest.balanced_symbols p hidden)

lemma balanced_symbols (p : Pair) (hidden : Bool) :
    (t : Tree) → Balanced p (symbols hidden t)
  | [] => .nil
  | node :: rest => (node.balanced_symbols p hidden).append (balanced_symbols p hidden rest)

end

mutual

lemma Node.hides : (node : Node) → Hides (node.symbols false) (node.symbols true)
  | .text s => .map_char s.text
  | .placeholder _ => .single rfl
  | .choice condition body rest => by
    have h := (Hides.single (s := ifSymbol condition.text) rfl).append
      (((hides body).append rest.hides).append (.single (s := endIfSymbol) rfl))
    simpa [Node.symbols] using h
  | .loop item source body => by
    have h := @Hides.construct (forSymbol item.text source.text) endForSymbol _ rfl
      (balanced_symbols .loop false body) rfl rfl
    rw [textOf_symbols] at h
    exact h

lemma Branches.hides : (rest : Branches) → Hides (rest.symbols false) (rest.symbols true)
  | .done => .nil
  | .orElse body => (Hides.single (s := elseSymbol) rfl).append (hides body)
  | .elseIf condition body rest =>
    ((Hides.single (s := elseIfSymbol condition.text) rfl).append (hides body)).append rest.hides

lemma hides : (t : Tree) → Hides (symbols false t) (symbols true t)
  | [] => .nil
  | node :: rest => node.hides.append (hides rest)

end

@[simp] lemma hideLoops_symbols (t : Tree) : hideLoops (symbols false t) = symbols true t :=
  (hides t).hideLoops_eq

lemma textOf_symbols_true (t : Tree) : Symbol.textOf (symbols true t) = print t := by
  rw [← hideLoops_symbols, textOf_hideLoops, textOf_symbols]

mutual

lemma Node.passes : (node : Node) → Clause.Passes 0 (node.symbols true)
  | .text s => Clause.Passes.map_char 0 s.text
  | .placeholder _ => .single rfl rfl rfl 0
  | .choice _ body rest =>
    .construct rfl rfl (((passes body).mono zero_le_one).append rest.passes) rfl rfl rfl
  | .loop .. => Clause.Passes.map_char 0 _

lemma Branches.passes : (rest : Branches) → Clause.Passes 1 (rest.symbols true)
  | .done => .nil
  | .orElse body =>
    (Clause.Passes.header (s := elseSymbol) rfl rfl).append ((passes body).mono zero_le_one)
  | .elseIf condition body rest =>
    ((Clause.Passes.header (s := elseIfSymbol condition.text) rfl rfl).append
      ((passes body).mono zero_le_one)).append rest.passes

lemma passes : (t : Tree) → Clause.Passes 0 (symbols true t)
  | [] => .nil
  | node :: rest => node.passes.append (passes rest)

end

/-- The branches behind the first one. -/
def Branches.clauses : Branches → List Clause
  | .done => []
  | .orElse body => [⟨elseSymbol, none, Tree.symbols true body⟩]
  | .elseIf condition body rest =>
    ⟨elseIfSymbol condition.text, some condition.text, Tree.symbols true body⟩ :: rest.clauses

lemma split_branches (body : Tree) : (rest : Branches) →
    Clause.split 0 false (symbols true body ++ rest.symbols true) =
      (symbols true body, rest.clauses)
  | .done => by
    rw [Branches.symbols, List.append_nil, (passes body).split_eq]
    rfl
  | .orElse final => by
    rw [Branches.symbols, @Clause.Passes.split_header _ (passes body) _ none rfl, Option.isNone_none,
      (passes final).split_eq, Branches.clauses]
  | .elseIf condition next rest => by
    rw [Branches.symbols, List.cons_append,
      @Clause.Passes.split_header _ (passes body) _ (some condition.text) rfl, Option.isNone_some,
      split_branches next rest, Branches.clauses]

/-- The conditional of a choice, as it stands among the symbols. -/
def choiceConstruct (condition : Expression) (body : Tree) (rest : Branches) : Construct :=
  ⟨ifSymbol condition.text, symbols true body ++ rest.symbols true, endIfSymbol⟩

lemma ofConstruct_choice (condition : Expression) (body : Tree) (rest : Branches) :
    Clause.ofConstruct (choiceConstruct condition body rest) =
      ⟨ifSymbol condition.text, some condition.text, symbols true body⟩ :: rest.clauses := by
  simp only [Clause.ofConstruct, choiceConstruct, split_branches]
  rfl

lemma free_ifTag (e : Expression) : Whitespace.Mark.Free (ifTag e.text) :=
  Whitespace.Mark.free_writeTag .control
    (not_mem_append (by decide) "if ".toList (by decide) e)
    (not_mem_append (by decide) "if ".toList (by decide) e)

lemma free_elseIfTag (e : Expression) : Whitespace.Mark.Free (elseIfTag e.text) :=
  Whitespace.Mark.free_writeTag .control
    (not_mem_append (by decide) "elseif ".toList (by decide) e)
    (not_mem_append (by decide) "elseif ".toList (by decide) e)

lemma free_forTag (item : Name) (source : Expression) :
    Whitespace.Mark.Free (forTag item.text source.text) :=
  Whitespace.Mark.free_writeTag .control
    (not_mem_loop (by decide) (by decide) (by decide) item source)
    (not_mem_loop (by decide) (by decide) (by decide) item source)

lemma free_word (word : Text) (hopen : '{' ∉ word) (hclose : '}' ∉ word) :
    Whitespace.Mark.Free (writeTag .control word) :=
  Whitespace.Mark.free_writeTag .control hopen hclose

lemma free_chunk (s : Chunk) : Whitespace.Mark.Free s.text := by
  apply Whitespace.Mark.free_of_forall
  intro c hc
  have := s.literal c hc
  simp_all [Whitespace.Mark.closes]

mutual

lemma Node.free_print : (node : Node) → Whitespace.Mark.Free node.print
  | .text s => free_chunk s
  | .placeholder path =>
    Whitespace.Mark.free_writeTag .value (path.not_mem (by decide) (by decide)) (path.not_mem (by decide) (by decide))
  | .choice condition body rest =>
    (((free_ifTag condition).append (free_print body)).append rest.free_print).append (free_word _ (by decide) (by decide))
  | .loop item source body =>
    ((free_forTag item source).append (free_print body)).append (free_word _ (by decide) (by decide))

lemma Branches.free_print : (rest : Branches) → Whitespace.Mark.Free rest.print
  | .done => .nil
  | .orElse body => (free_word "else".toList (by decide) (by decide)).append (free_print body)
  | .elseIf condition body rest =>
    ((free_elseIfTag condition).append (free_print body)).append rest.free_print

lemma free_print : (t : Tree) → Whitespace.Mark.Free (print t)
  | [] => .nil
  | node :: rest => node.free_print.append (free_print rest)

end

end Tree
end Stencil
