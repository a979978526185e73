import Stencil.Proofs.Outcome
import Stencil.Proofs.Tree.Symbols

/-! Rendering a written tree gives its meaning. The passes replace the conditionals and then the
loops of a text by what they mean, and in between the text is read again; after each pass it is
still the written tree but for the parts that have been replaced. -/
namespace Stencil
namespace Tree

/-- The branch of a conditional that is taken; there may be none. -/
def Branches.taken? : Branches → Fields → Option Tree
  | .done, _ => none
  | .orElse body, _ => some body
  | .elseIf condition body rest, vars =>
    if conditionHolds condition.text vars then some body else rest.taken? vars

/-- The taken branch of a whole conditional. -/
def taken? (condition : Expression) (body : Tree) (rest : Branches) (vars : Fields) :
    Option Tree :=
  if conditionHolds condition.text vars then some body else rest.taken? vars

/-- What goes from branch to branch by the conditions is what the taken branch gives. -/
lemma Branches.eq_elim_taken? {α : Type} {vars : Fields} {f : Branches → List α}
    {g : Tree → List α} (done : f .done = []) (orElse : ∀ body, f (.orElse body) = g body)
    (elseIf : ∀ condition body rest, f (.elseIf condition body rest) =
      if conditionHolds condition.text vars then g body else f rest) (rest : Branches) :
    f rest = (rest.taken? vars).elim [] g := by
  cases rest with
  | done => exact done
  | orElse body => exact orElse body
  | elseIf condition body rest =>
    rw [elseIf, Branches.taken?, Branches.eq_elim_taken? done orElse elseIf rest]
    split <;> rfl

lemma Branches.meaning_eq (vars : Fields) :
    ∀ rest : Branches, rest.meaning vars = (rest.taken? vars).elim [] (Tree.meaning · vars) :=
  Branches.eq_elim_taken? rfl (fun _ => rfl) fun _ _ _ => rfl

lemma Branches.faults_eq (vars : Fields) :
    ∀ rest : Branches, rest.faults vars = (rest.taken? vars).elim [] (Tree.faults · vars) :=
  Branches.eq_elim_taken? rfl (fun _ => rfl) fun _ _ _ => rfl

lemma Branches.substituted_eq (vars : Fields) :
    ∀ rest : Branches,
      rest.substituted vars = (rest.taken? vars).elim [] (Tree.substituted · vars) :=
  Branches.eq_elim_taken? rfl (fun _ => rfl) fun _ _ _ => rfl

lemma Branches.height_le_of_taken? {vars : Fields} {t : Tree} (rest : Branches)
    (h : rest.taken? vars = some t) : Tree.height t ≤ rest.height := by
  cases rest with
  | done => simp [Branches.taken?] at h
  | orElse body =>
    obtain rfl := Option.some.inj h
    exact le_rfl
  | elseIf condition body rest =>
    simp only [Branches.taken?, Branches.height] at h ⊢
    split at h
    · obtain rfl := Option.some.inj h
      omega
    · have := rest.height_le_of_taken? h
      omega

section
variable (condition : Expression) (body : Tree) (rest : Branches) (vars : Fields)

lemma meaning_choice : (Node.choice condition body rest).meaning vars =
    (taken? condition body rest vars).elim [] (meaning · vars) := by
  simp only [Node.meaning, taken?, Branches.meaning_eq]
  split <;> rfl

lemma faults_choice : (Node.choice condition body rest).faults vars =
    (taken? condition body rest vars).elim [] (faults · vars) := by
  simp only [Node.faults, taken?, Branches.faults_eq]
  split <;> rfl

lemma substituted_choice : (Node.choice condition body rest).substituted vars =
    (taken? condition body rest vars).elim [] (substituted · vars) := by
  simp only [Node.substituted, taken?, Branches.substituted_eq]
  split <;> rfl

lemma height_lt_of_taken? {t : Tree} (h : taken? condition body rest vars = some t) :
    height t < (Node.choice condition body rest).height := by
  simp only [taken?] at h
  simp only [Node.height]
  split at h
  · obtain rfl := Option.some.inj h
    omega
  · have := rest.height_le_of_taken? h
    omega

lemma find?_clauses (rest : Branches) :
    (rest.clauses.find? fun clause => clause.condition.all fun s => conditionHolds s vars).map
      Clause.body = (rest.taken? vars).map (symbols true) := by
  cases rest with
  | done => rfl
  | orElse body => rfl
  | elseIf condition body rest =>
    have ih := find?_clauses rest
    rw [Branches.clauses, Branches.taken?, List.find?_cons]
    cases h : conditionHolds condition.text vars <;> simp [h, ih]

/-- The renderer chooses the branch that the tree takes. -/
lemma chosen?_choice :
    (Renderer.chosen? vars (Clause.ofConstruct (choiceConstruct condition body rest))).map
      Clause.body = (taken? condition body rest vars).map (symbols true) := by
  rw [ofConstruct_choice, Renderer.chosen?, taken?, List.find?_cons]
  have := find?_clauses vars rest
  cases h : conditionHolds condition.text vars <;> simp [h, this]

end

mutual

lemma Node.not_mem_meaning {c : Char} (hc : c ∈ ['{', '}', '%', '#']) : (node : Node) →
    (vars : Fields) → (∀ s ∈ node.substituted vars, c ∉ s) → c ∉ node.meaning vars
  | .text s, _, _ => fun h => s.literal c h hc
  | .placeholder path, vars, h => h _ List.mem_cons_self
  | .choice condition body rest, vars, h => by
    simp only [Node.meaning, Node.substituted] at h ⊢
    split
    · rename_i hholds
      rw [if_pos hholds] at h
      exact not_mem_meaning hc body vars h
    · rename_i hholds
      rw [if_neg hholds] at h
      exact rest.not_mem_meaning hc vars h
  | .loop item source body, vars, h => by
    simp only [Node.meaning, List.mem_flatMap, not_exists, not_and]
    intro v hv
    apply not_mem_meaning hc body
    intro s hs
    exact h s (List.mem_flatMap.mpr ⟨v, hv, hs⟩)

lemma Branches.not_mem_meaning {c : Char} (hc : c ∈ ['{', '}', '%', '#']) : (rest : Branches) →
    (vars : Fields) → (∀ s ∈ rest.substituted vars, c ∉ s) → c ∉ rest.meaning vars
  | .done, _, _ => List.not_mem_nil
  | .orElse body, vars, h => not_mem_meaning hc body vars h
  | .elseIf condition body rest, vars, h => by
    simp only [Branches.meaning, Branches.substituted] at h ⊢
    split
    · rename_i hholds
      rw [if_pos hholds] at h
      exact not_mem_meaning hc body vars h
    · rename_i hholds
      rw [if_neg hholds] at h
      exact rest.not_mem_meaning hc vars h

lemma not_mem_meaning {c : Char} (hc : c ∈ ['{', '}', '%', '#']) : (t : Tree) →
    (vars : Fields) → (∀ s ∈ substituted t vars, c ∉ s) → c ∉ meaning t vars
  | [], _, _ => List.not_mem_nil
  | node :: rest, vars, h => by
    simp only [substituted, List.mem_append, or_imp, forall_and] at h
    simp only [meaning, List.mem_append, not_or]
    exact ⟨node.not_mem_meaning hc vars h.1, not_mem_meaning hc rest vars h.2⟩

end

lemma faults_eq_flatMap (t : Tree) (vars : Fields) :
    faults t vars = t.flatMap (Node.faults · vars) := by
  induction t with
  | nil => rfl
  | cons node t ih => rw [faults, List.flatMap_cons, ih]

lemma substituted_subset {t : Tree} {node : Node} (hnode : node ∈ t) {vars : Fields} {s : Text}
    (hs : s ∈ node.substituted vars) : s ∈ substituted t vars := by
  induction t with
  | nil => cases hnode
  | cons first t ih =>
    rw [substituted, List.mem_append]
    rcases List.mem_cons.mp hnode with rfl | hnode
    · exact .inl hs
    · exact .inr (ih hnode)

lemma height_le_of_mem {t : Tree} {node : Node} (hnode : node ∈ t) : node.height ≤ height t := by
  induction t with
  | nil => cases hnode
  | cons first t ih =>
    rw [height]
    rcases List.mem_cons.mp hnode with rfl | hnode
    · omega
    · have := ih hnode
      omega

namespace Node

def isChoice : Node → Bool
  | .choice .. => true
  | _ => false

def isLoop : Node → Bool
  | .loop .. => true
  | _ => false

end Node

/-- The text of a tree in which the accepted nodes have been replaced by their meaning. -/
def stage (replaced : Node → Bool) (vars : Fields) (t : Tree) : Text :=
  t.flatMap fun node => if replaced node then node.meaning vars else node.print

def stageSymbols (replaced : Node → Bool) (vars : Fields) (t : Tree) : List Symbol :=
  t.flatMap fun node =>
    if replaced node then (node.meaning vars).map .char else node.symbols false

lemma reads_stage (replaced : Node → Bool) {vars : Fields} {t : Tree}
    (h : ∀ s ∈ substituted t vars, '{' ∉ s) :
    Scan.Reads (stage replaced vars t) (stageSymbols replaced vars t) := by
  induction t with
  | nil => exact .nil
  | cons node t ih =>
    simp only [substituted, List.mem_append, or_imp, forall_and] at h
    refine Scan.Reads.append ?_ (ih h.2)
    dsimp only
    split
    · exact .of_not_mem (node.not_mem_meaning (by decide) vars h.1)
    · exact node.reads_print

/-- The pieces of a node when the conditionals of a text with hidden loops are cut out. -/
def Node.choicePieces : Node → List Piece
  | .choice condition body rest => [.construct (choiceConstruct condition body rest)]
  | node => (node.symbols true).map .single

/-- The pieces of a node when the loops are cut out and the conditionals are replaced. -/
def Node.loopPieces (vars : Fields) : Node → List Piece
  | .loop item source body =>
    [.construct ⟨forSymbol item.text source.text, Tree.symbols false body, endForSymbol⟩]
  | node => (if node.isChoice then (node.meaning vars).map Symbol.char
      else node.symbols false).map .single

lemma cuts_choicePieces (t : Tree) :
    Cuts .conditional (symbols true t) (t.flatMap Node.choicePieces) := by
  induction t with
  | nil => exact .nil
  | cons node t ih =>
    refine Cuts.append ?_ ih
    cases node with
    | text s => exact .map_char _ s.text
    | placeholder path => exact .single rfl
    | choice condition body rest =>
      exact .construct rfl
        ((balanced_symbols _ true body).append (rest.balanced_symbols _ true)) rfl rfl
    | loop item source body => exact .map_char _ _

lemma cuts_loopPieces (vars : Fields) (t : Tree) :
    Cuts .loop (stageSymbols Node.isChoice vars t) (t.flatMap (Node.loopPieces vars)) := by
  induction t with
  | nil => exact .nil
  | cons node t ih =>
    refine Cuts.append ?_ ih
    cases node with
    | text s => exact .map_char _ s.text
    | placeholder path => exact .single rfl
    | choice condition body rest => exact .map_char _ _
    | loop item source body => exact .construct rfl (balanced_symbols _ false body) rfl rfl

open Rendering (Ends)

variable {r : Renderer} {read : Text → Except Text Text}

/-- An expansion that gives the meaning of every written tree of less than the given height. -/
def Interprets (read : Text → Except Text Text) (directory : Text) (fragment : Renderer.Expansion)
    (bound : ℕ) : Prop :=
  ∀ t vars, height t < bound → (∀ s ∈ substituted t vars, '{' ∉ s) →
    Ends ((fragment ⟨vars, directory⟩ (print t)).run read) (faults t vars) (meaning t vars)

lemma ends_singles {expand : Construct → Rendering Text} {l : List Symbol} {s : Text}
    (hl : Symbol.textOf l = s) :
    Ends ((Rendering.concatMap (Renderer.expandPiece expand) (l.map .single)).run read) [] s := by
  have h : Rendering.concatMap (Renderer.expandPiece expand) (l.map .single) =
      .done (Symbol.textOf l) := by
    rw [Rendering.concatMap_map, Symbol.textOf_eq_flatMap]
    exact Rendering.concatMap_pure Symbol.text l
  rw [h, hl]
  exact .done s

lemma ends_construct {expand : Construct → Rendering Text} {c : Construct}
    {faults : List TemplateError} {text : Text} (h : Ends ((expand c).run read) faults text) :
    Ends ((Rendering.concatMap (Renderer.expandPiece expand) [.construct c]).run read) faults
      text := by
  rw [Rendering.run_concatMap_cons]
  exact h.map (by simp)

lemma Node.textOf_symbols_true (node : Node) : Symbol.textOf (node.symbols true) = node.print := by
  have := Tree.textOf_symbols_true [node]
  simpa [Tree.symbols, Tree.print] using this

section
variable {directory : Text} {fragment : Renderer.Expansion} {bound : ℕ}

/-- A conditional ends as the branch that it takes. -/
lemma ends_choice (hr : r.options.whitespace = .disabled)
    (hf : Interprets read directory fragment bound) {condition : Expression} {body : Tree}
    {rest : Branches} {vars : Fields} (hheight : (Node.choice condition body rest).height ≤ bound)
    (hs : ∀ s ∈ (Node.choice condition body rest).substituted vars, '{' ∉ s) :
    Ends ((r.expandConditional fragment ⟨vars, directory⟩
        (choiceConstruct condition body rest)).run read)
      ((Node.choice condition body rest).faults vars)
      ((Node.choice condition body rest).meaning vars) := by
  have hchosen := chosen?_choice condition body rest vars
  have hlt (t : Tree) := height_lt_of_taken? condition body rest vars (t := t)
  rw [substituted_choice] at hs
  rw [meaning_choice, faults_choice, Renderer.expandConditional]
  cases htaken : taken? condition body rest vars with
  | none =>
    rw [htaken, Option.map_none, Option.map_eq_none_iff] at hchosen
    simp only [hchosen]
    exact .done []
  | some t =>
    rw [htaken] at hchosen hs
    obtain ⟨clause, hclause, hbody⟩ := Option.map_eq_some_iff.mp hchosen
    simp only [hclause, Renderer.body_of_disabled hr, hbody, textOf_symbols_true]
    exact hf t vars (lt_of_lt_of_le (hlt t htaken) hheight) hs

/-- A loop ends as its body does for the items one after the other. -/
lemma ends_loop (hr : r.options.whitespace = .disabled)
    (hf : Interprets read directory fragment bound) {item : Name} {source : Expression}
    {body : Tree} {vars : Fields} (hheight : (Node.loop item source body).height ≤ bound)
    (hs : ∀ s ∈ (Node.loop item source body).substituted vars, '{' ∉ s) :
    Ends ((r.expandLoop fragment ⟨vars, directory⟩
        ⟨forSymbol item.text source.text, symbols false body, endForSymbol⟩).run read)
      ((Node.loop item source body).faults vars) ((Node.loop item source body).meaning vars) := by
  simp only [Renderer.expandLoop, forSymbol, Renderer.body_of_disabled hr, textOf_symbols,
    Node.faults, Node.meaning, Node.substituted, Rendering.run_bind] at hs ⊢
  unfold sourceFaults itemsOf at *
  cases hitems : LoopSource.items source.text vars with
  | error e => exact .failed e []
  | ok items =>
    simp only [hitems] at hs ⊢
    simp only [Rendering.ofExcept, Rendering.run_done, Rendering.Outcome.andThen_ok]
    rw [List.nil_append]
    have hone (v : Value) (hv : v ∈ items) :
        Ends ((Rendering.concatMap
            (fun v => fragment ⟨vars.insert item.text v, directory⟩ (print body)) [v]).run read)
          (faults body (vars.insert item.text v)) (meaning body (vars.insert item.text v)) := by
      rw [Rendering.run_concatMap_cons]
      apply (hf body _ _ _).map (by simp)
      · rw [Node.height] at hheight
        omega
      · exact fun s h => hs s (List.mem_flatMap.mpr ⟨v, hv, h⟩)
    have h := Ends.concatMap hone
    simpa using h

/-- The errors of the accepted nodes. -/
def faultsWhere (p : Node → Bool) (vars : Fields) (t : Tree) : List TemplateError :=
  t.flatMap fun node => if p node then node.faults vars else []

lemma ends_conditionals (hr : r.options.whitespace = .disabled)
    (hf : Interprets read directory fragment bound) {t : Tree} {vars : Fields}
    (hheight : height t ≤ bound) (hs : ∀ s ∈ substituted t vars, '{' ∉ s) :
    Ends ((r.expandConditionals fragment ⟨vars, directory⟩ (symbols false t)).run read)
      (faultsWhere Node.isChoice vars t) (stageSymbols Node.isChoice vars t) := by
  have hpieces (node : Node) (hnode : node ∈ t) :
      Ends ((Rendering.concatMap (Renderer.expandPiece
          (r.expandConditional fragment ⟨vars, directory⟩)) node.choicePieces).run read)
        (if node.isChoice then node.faults vars else [])
        (if node.isChoice then node.meaning vars else node.print) := by
    have hnodeHeight := (height_le_of_mem hnode).trans hheight
    have hsub := fun s h => hs s (substituted_subset hnode h)
    cases node with
    | choice condition body rest => exact ends_construct (ends_choice hr hf hnodeHeight hsub)
    | text s => exact ends_singles (Node.text s).textOf_symbols_true
    | placeholder path => exact ends_singles (Node.placeholder path).textOf_symbols_true
    | loop item source body => exact ends_singles (Node.loop item source body).textOf_symbols_true
  have h := Ends.concatMap hpieces
  rw [← (cuts_choicePieces t).split_eq] at h
  rw [Renderer.expandConditionals, ← (reads_print t).symbols_eq,
    Renderer.expandConstructs_symbols _ _ (by simp), (reads_print t).symbols_eq, hideLoops_symbols,
    Rendering.run_bind]
  exact h.map (by rw [← (reads_stage Node.isChoice hs).symbols_eq]; rfl)

def Node.isCompound (node : Node) : Bool := node.isChoice || node.isLoop

lemma ends_loops (hr : r.options.whitespace = .disabled)
    (hf : Interprets read directory fragment bound) {t : Tree} {vars : Fields}
    (hheight : height t ≤ bound) (hs : ∀ s ∈ substituted t vars, '{' ∉ s) :
    Ends ((r.expandLoops fragment ⟨vars, directory⟩ (stageSymbols Node.isChoice vars t)).run read)
      (faultsWhere Node.isLoop vars t) (stageSymbols Node.isCompound vars t) := by
  have hpieces (node : Node) (hnode : node ∈ t) :
      Ends ((Rendering.concatMap (Renderer.expandPiece
          (r.expandLoop fragment ⟨vars, directory⟩)) (node.loopPieces vars)).run read)
        (if node.isLoop then node.faults vars else [])
        (if node.isCompound then node.meaning vars else node.print) := by
    have hnodeHeight := (height_le_of_mem hnode).trans hheight
    have hsub := fun s h => hs s (substituted_subset hnode h)
    cases node with
    | choice condition body rest => exact ends_singles (Symbol.textOf_map_char _)
    | text s => exact ends_singles (Symbol.textOf_map_char s.text)
    | placeholder path => exact ends_singles (Node.placeholder path).textOf_symbols_true
    | loop item source body => exact ends_construct (ends_loop hr hf hnodeHeight hsub)
  have h := Ends.concatMap hpieces
  rw [← (cuts_loopPieces vars t).split_eq] at h
  have hread := reads_stage Node.isChoice hs
  rw [Renderer.expandLoops, ← hread.symbols_eq,
    Renderer.expandConstructs_symbols _ _ (by simp), hread.symbols_eq, Rendering.run_bind]
  exact h.map (by rw [← (reads_stage Node.isCompound hs).symbols_eq]; rfl)

lemma any_tag_eq_false {p : Tag → Bool} (hp : ∀ t, isTreeTag t = true → p t = false)
    {l : List Symbol} (hl : ∀ y ∈ l, y.tag?.all isTreeTag = true) :
    (l.any fun y => y.tag?.any p) = false := by
  refine List.any_eq_false.mpr fun y hy => ?_
  have := hl y hy
  cases htag : y.tag? with
  | none => simp
  | some tag =>
    rw [htag] at this
    simp [hp tag this]

lemma isTreeTag_stageSymbols (replaced : Node → Bool) (vars : Fields) (t : Tree) :
    ∀ y ∈ stageSymbols replaced vars t, y.tag?.all isTreeTag = true := by
  intro y hy
  obtain ⟨node, -, hy⟩ := List.mem_flatMap.mp hy
  split at hy
  · exact forall_map_char _ y hy
  · exact node.isTreeTag_symbols false y hy

lemma expandInserts_symbols (template : Renderer.Expansion) (ctx : Context) (t : Tree) :
    r.expandInserts template ctx (symbols false t) = .done (symbols false t) := by
  rw [Renderer.expandInserts, hideLoops_symbols, if_neg]
  simp only [List.any_eq_true, not_exists, not_and]
  intro y hy hinsert
  have := isTreeTag_symbols true t y hy
  unfold Renderer.isInsert at hinsert
  split at hinsert
  · simp [Symbol.tag?, isTreeTag] at this
  · cases hinsert

lemma expandBlocks_symbols (ctx : Context) (t : Tree) :
    r.expandBlocks fragment ctx (symbols false t) = .done (symbols false t) := by
  have hblock : Pair.occursIn .block (symbols true t) = false := by
    apply Pair.occursIn_eq_false
    intro y hy
    have := isTreeTag_symbols true t y hy
    unfold Pair.opens
    split <;> simp_all [Symbol.tag?, isTreeTag]
  rw [Renderer.expandBlocks, Renderer.expandConstructs, hideLoops_symbols, hblock]
  rfl

/-- Once conditionals and loops have been replaced, only placeholders are left. -/
lemma interpolate_stageSymbols (vars : Fields) (t : Tree) :
    Renderer.interpolate vars (stageSymbols Node.isCompound vars t) = meaning t vars := by
  induction t with
  | nil => rfl
  | cons node t ih =>
    have hnode : Renderer.interpolate vars
        (if node.isCompound then (node.meaning vars).map .char else node.symbols false) =
          node.meaning vars := by
      cases node with
      | text s => exact Symbol.replace_map_char _ s.text
      | placeholder path =>
        simp only [Renderer.interpolate, Node.symbols, placeholderSymbol, Symbol.replace,
          Node.meaning, valueText, Node.isCompound, Node.isChoice, Node.isLoop, Bool.or_self,
          Bool.false_eq_true, if_false, Option.getD_some, Renderer.placeholderText,
          List.append_nil]
        split <;> simp_all [Value.text]
      | choice condition body rest => exact Symbol.replace_map_char _ _
      | loop item source body => exact Symbol.replace_map_char _ _
    rw [meaning, ← ih, ← hnode]
    exact Symbol.replace_append _ _ _

lemma mem_faultsWhere {vars : Fields} {t : Tree} (e : TemplateError) :
    e ∈ faultsWhere Node.isChoice vars t ++ faultsWhere Node.isLoop vars t ↔
      e ∈ faults t vars := by
  rw [faults_eq_flatMap]
  simp only [faultsWhere, List.mem_append, List.mem_flatMap]
  constructor
  · rintro (⟨node, hnode, he⟩ | ⟨node, hnode, he⟩)
    · refine ⟨node, hnode, ?_⟩
      split at he
      · exact he
      · cases he
    · refine ⟨node, hnode, ?_⟩
      split at he
      · exact he
      · cases he
  · rintro ⟨node, hnode, he⟩
    cases node with
    | choice condition body rest => exact .inl ⟨_, hnode, he⟩
    | loop item source body => exact .inr ⟨_, hnode, he⟩
    | text s => cases he
    | placeholder path => cases he

/-- The passes together take a written tree to its meaning. -/
lemma ends_expandBody (hr : r.options.whitespace = .disabled)
    (hf : Interprets read directory fragment bound) (template : Renderer.Expansion) {t : Tree}
    {vars : Fields} (hheight : height t ≤ bound) (hs : ∀ s ∈ substituted t vars, '{' ∉ s) :
    Ends ((r.expandBody template fragment ⟨vars, directory⟩ (symbols false t)).run read)
      (faults t vars) (meaning t vars) := by
  have hancestry : Renderer.dropTags Renderer.isAncestry (symbols false t) = symbols false t := by
    rw [Renderer.dropTags, any_tag_eq_false _ (isTreeTag_symbols false t)]
    · rfl
    · intro tag htag
      cases tag <;> simp_all [Renderer.isAncestry, isTreeTag]
  have hsuper : Renderer.dropTags Renderer.isSuper (stageSymbols Node.isCompound vars t) =
      stageSymbols Node.isCompound vars t := by
    rw [Renderer.dropTags, any_tag_eq_false _ (isTreeTag_stageSymbols _ vars t)]
    · rfl
    · intro tag htag
      cases tag <;> simp_all [Renderer.isSuper, isTreeTag]
  have hlast : Ends (((r.expandLoops fragment ⟨vars, directory⟩
        (stageSymbols Node.isChoice vars t)).run read).andThen fun l =>
          ⟨[], .ok (Renderer.interpolate vars (Renderer.dropTags Renderer.isSuper l))⟩)
      (faultsWhere Node.isLoop vars t) (meaning t vars) :=
    (ends_loops hr hf hheight hs).map (by rw [hsuper, interpolate_stageSymbols])
  rw [Renderer.expandBody, hancestry, expandInserts_symbols]
  simp only [Rendering.run_bind, Rendering.run_done, Rendering.Outcome.andThen_ok,
    expandBlocks_symbols, Rendering.run_pure]
  exact ((ends_conditionals hr hf hheight hs).andThen fun _ => hlast).congr mem_faultsWhere

end

lemma read_print (hr : r.options.whitespace = .disabled) (t : Tree) :
    r.read (print t) = symbols false t := by
  rw [Renderer.read, Renderer.preprocess_of_free hr (free_print t), (reads_print t).symbols_eq]
  rw [(reads_print t).symbols_eq]
  apply any_tag_eq_false _ (isTreeTag_symbols false t)
  intro tag htag
  cases tag <;> simp_all [Renderer.isComment, isTreeTag]

/-- Every level interprets the trees that are less high than it. -/
lemma interprets_fragment (hr : r.options.whitespace = .disabled) (directory : Text) :
    (level : ℕ) → Interprets read directory (r.fragment level) level
  | 0 => fun _ _ h => absurd h (Nat.not_lt_zero _)
  | level + 1 => by
    intro t vars hheight hs
    rw [Renderer.fragment, read_print hr]
    exact ends_expandBody hr (interprets_fragment hr directory level) (r.template level)
      (Nat.lt_succ_iff.mp hheight) hs

lemma parent?_symbols (t : Tree) : Renderer.parent? (symbols false t) = none := by
  rw [Renderer.parent?, List.findSome?_eq_none_iff]
  intro y hy
  have := isTreeTag_symbols false t y hy
  split
  · simp [Symbol.tag?, isTreeTag] at this
  · rfl

/-- Rendering a written tree gives the tree's meaning, and fails only with the error of a loop that
is reached. -/
theorem render_print (r : Renderer) (hr : r.options.whitespace = .disabled)
    (read : Text → Except Text Text) (t : Tree) (vars : Fields) (directory : Option Text)
    (hheight : height t ≤ r.options.maxDepth) (hs : ∀ s ∈ substituted t vars, '{' ∉ s) :
    (faults t vars = [] →
      Rendered.ofOutcome ((r.renderText (print t) vars directory).run read) =
        .ok ⟨meaning t vars, []⟩) ∧
    (faults t vars ≠ [] → ∃ e ∈ faults t vars,
      Rendered.ofOutcome ((r.renderText (print t) vars directory).run read) = .error e) := by
  have h : Ends ((r.renderText (print t) vars directory).run read) (faults t vars)
      (meaning t vars) := by
    rw [Renderer.renderText, Renderer.topLevel, Renderer.template, read_print hr, parent?_symbols]
    exact ends_expandBody hr (interprets_fragment hr _ _) _ hheight hs
  constructor
  · intro hfaults
    rw [hfaults] at h
    rw [h.result_eq]
    rfl
  · intro hfaults
    obtain ⟨e, he, heq⟩ := h.exists_error hfaults
    refine ⟨e, he, ?_⟩
    rw [heq]
    rfl

/-- `Hi {% for u in users %}{{ u.name }}{% if u.last %}!{% else %}, {% endif %}{% endfor %}` -/
def greeting : Tree :=
  [.text ⟨"Hi ".toList, by simp [IsLiteral]⟩,
    .loop ⟨"u".toList, rfl⟩ ⟨"users".toList, by simp [IsLiteral], rfl, by simp⟩
      [.placeholder ⟨"u.name".toList, rfl⟩,
        .choice ⟨"u.last".toList, by simp [IsLiteral], rfl, by simp⟩
          [.text ⟨['!'], by simp [IsLiteral]⟩]
          (.orElse [.text ⟨", ".toList, by simp [IsLiteral]⟩])]]

def guests : Fields :=
  [("users".toList, .array [.object [("name".toList, .string "Ann".toList)],
    .object [("name".toList, .string "Bo".toList), ("last".toList, .bool true)]])]

theorem render_greeting :
    Rendered.ofOutcome ((Renderer.renderText { options := { whitespace := .disabled } }
      (print greeting) guests none).run fun _ => .error []) =
        .ok ⟨"Hi Ann, Bo!".toList, []⟩ := by
  have hsubstituted : substituted greeting guests = ["Ann".toList, "Bo".toList] := by cbv
  have hmeaning : meaning greeting guests = "Hi Ann, Bo!".toList := by cbv
  rw [← hmeaning]
  refine (render_print { options := { whitespace := .disabled } } rfl (fun _ => .error [])
    greeting guests none (by decide) ?_).1 (by cbv)
  rw [hsubstituted]
  decide

end Tree
end Stencil
