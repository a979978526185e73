import Stencil.Proofs.Matching
import Stencil.Proofs.Outcome
import Stencil.Renderer

/-! Tables of blocks. What holds of every block that is declared holds of every block in a table,
if an override keeps it. -/
namespace Stencil

namespace Entries
variable {α : Type}

@[simp] lemma get?_nil (key : Text) : get? ([] : Entries α) key = none := rfl

lemma get?_cons_self (key : Text) (value : α) (rest : Entries α) :
    get? ((key, value) :: rest) key = some value := if_pos rfl

lemma get?_cons_of_ne {k key : Text} (h : k ≠ key) (value : α) (rest : Entries α) :
    get? ((k, value) :: rest) key = get? rest key := if_neg h

lemma get?_append (a b : Entries α) (key : Text) :
    get? (a ++ b) key = (get? a key).or (get? b key) := by
  induction a with
  | nil => rfl
  | cons first a ih =>
    obtain ⟨k, v⟩ := first
    by_cases hk : k = key
    · subst hk
      rw [List.cons_append, get?_cons_self, get?_cons_self]
      rfl
    · rw [List.cons_append, get?_cons_of_ne hk, get?_cons_of_ne hk, ih]

/-- Among several entries of a key the last one is found. -/
lemma get?_overlay_reverse (entries upper : Entries α) (key : Text) :
    (entries.overlay upper).get? key = (get? upper.reverse key).or (entries.get? key) := by
  induction upper generalizing entries with
  | nil => rfl
  | cons first upper ih =>
    obtain ⟨k, v⟩ := first
    change ((entries.insert k v).overlay upper).get? key = _
    rw [ih, get?_insert, List.reverse_cons, get?_append, Option.or_assoc]
    by_cases hk : k = key
    · subst hk
      rw [if_pos rfl, get?_cons_self, Option.some_or]
    · rw [if_neg hk, get?_cons_of_ne hk, get?_nil, Option.none_or]

lemma insert_append (a b : Entries α) (key : Text) (value : α) :
    insert (a ++ b) key value =
      if a.contains key then insert a key value ++ b else a ++ insert b key value := by
  induction a with
  | nil => rfl
  | cons first a ih =>
    obtain ⟨k, v⟩ := first
    by_cases hk : k = key
    · subst hk
      simp [insert, contains, get?_cons_self]
    · have hcontains : contains ((k, v) :: a) key = contains a key := by
        rw [contains, get?_cons_of_ne hk, ← contains]
      rw [List.cons_append, insert, if_neg hk, ih, hcontains]
      split
      · rw [insert, if_neg hk, List.cons_append]
      · rfl

lemma contains_insert (entries : Entries α) (key : Text) (value : α) (k : Text) :
    (entries.insert key value).contains k = (decide (key = k) || entries.contains k) := by
  rw [contains, get?_insert]
  by_cases h : key = k <;> simp [h, contains]

lemma contains_of_mem {entries : Entries α} {entry : Text × α} (h : entry ∈ entries) :
    entries.contains entry.1 = true := by
  induction entries with
  | nil => cases h
  | cons first rest ih =>
    obtain ⟨k, v⟩ := first
    by_cases hk : k = entry.1
    · rw [contains, hk, get?_cons_self]
      rfl
    · rcases List.mem_cons.mp h with rfl | h
      · exact absurd rfl hk
      · rw [contains, get?_cons_of_ne hk]
        exact ih h

lemma mem_of_get? {entries : Entries α} {key : Text} {value : α}
    (h : entries.get? key = some value) : (key, value) ∈ entries := by
  induction entries with
  | nil => cases h
  | cons first rest ih =>
    obtain ⟨k, v⟩ := first
    by_cases hk : k = key
    · subst hk
      rw [get?_cons_self] at h
      obtain rfl := Option.some.inj h
      exact List.mem_cons_self
    · rw [get?_cons_of_ne hk] at h
      exact List.mem_cons_of_mem _ (ih h)

lemma mem_insert {entries : Entries α} {key : Text} {value : α} {entry : Text × α}
    (h : entry ∈ entries.insert key value) : entry ∈ entries ∨ entry.2 = value := by
  induction entries with
  | nil =>
    rw [insert, List.mem_singleton] at h
    exact .inr (by rw [h])
  | cons first rest ih =>
    rw [insert] at h
    split at h
    · rcases List.mem_cons.mp h with rfl | h
      · exact .inr rfl
      · exact .inl (List.mem_cons_of_mem first h)
    · rcases List.mem_cons.mp h with rfl | h
      · exact .inl List.mem_cons_self
      · rcases ih h with h | h
        · exact .inl (List.mem_cons_of_mem first h)
        · exact .inr h

lemma mem_overlay {upper entries : Entries α} {entry : Text × α}
    (h : entry ∈ entries.overlay upper) :
    entry ∈ entries ∨ ∃ other ∈ upper, entry.2 = other.2 := by
  induction upper generalizing entries with
  | nil => exact .inl h
  | cons first rest ih =>
    rw [overlay, List.foldl_cons] at h
    rcases ih h with h | ⟨other, hother, heq⟩
    · rcases mem_insert h with h | h
      · exact .inl h
      · exact .inr ⟨first, List.mem_cons_self, h⟩
    · exact .inr ⟨other, List.mem_cons_of_mem first hother, heq⟩

end Entries

/-- What stands for a tag where `super()` does for `inherited`. -/
def superText (inherited : Text) : Tag → Option Text
  | .superCall => some inherited
  | _ => none

lemma replaceSuper_eq (s inherited : Text) :
    replaceSuper s inherited = Symbol.replace (superText inherited) (Scan.symbols s) := rfl

namespace BlockTable

/-- The table after one more construct. -/
def declare (dedents : Bool) (directory : Text) (table : BlockTable) (c : Construct) :
    BlockTable :=
  match c.opener with
  | .tag (.openBlock name) _ => table.insert name (blockOf dedents directory c)
  | _ => table

lemma extract_eq (dedents : Bool) (directory : Text) (l : List Symbol) :
    extract dedents directory l = (allConstructs .block l).foldl (declare dedents directory) [] :=
  rfl

section
variable (dedents : Bool) (directory : Text)

/-- A construct inserts its block, or else nothing. -/
lemma declare_cases (c : Construct) :
    (∃ name, ∀ table, declare dedents directory table c =
      table.insert name (blockOf dedents directory c)) ∨
    ∀ table, declare dedents directory table c = table := by
  unfold declare
  split
  · exact .inl ⟨_, fun _ => rfl⟩
  · exact .inr fun _ => rfl

variable {dedents directory} {P : Block → Prop}

lemma forall_mem_foldl {cs : List Construct} {table : BlockTable}
    (htable : ∀ entry ∈ table, P entry.2) (h : ∀ c ∈ cs, P (blockOf dedents directory c)) :
    ∀ entry ∈ cs.foldl (declare dedents directory) table, P entry.2 := by
  refine List.foldlRecOn (motive := fun table : BlockTable => ∀ entry ∈ table, P entry.2) cs
    (declare dedents directory) htable fun table htable c hmem entry hentry => ?_
  rcases declare_cases dedents directory c with ⟨name, hc⟩ | hc
  · rw [hc] at hentry
    rcases Entries.mem_insert hentry with hentry | heq
    · exact htable entry hentry
    · rw [heq]
      exact h c hmem
  · rw [hc] at hentry
    exact htable entry hentry

lemma forall_mem_extract {l : List Symbol}
    (h : ∀ c ∈ allConstructs .block l, P (blockOf dedents directory c)) :
    ∀ entry ∈ extract dedents directory l, P entry.2 :=
  forall_mem_foldl (by simp) h

lemma forall_mem_mergeOver {heir base : BlockTable}
    (hinheriting : ∀ own inherited, P own →
      (inherited = [] ∨ ∃ block, P block ∧ inherited = block.body) → P (own.inheriting inherited))
    (hheir : ∀ entry ∈ heir, P entry.2) (hbase : ∀ entry ∈ base, P entry.2) :
    ∀ entry ∈ mergeOver heir base, P entry.2 := by
  intro entry hentry
  rcases List.mem_append.mp hentry with hentry | hentry
  · obtain ⟨⟨name, block⟩, hmem, rfl⟩ := List.mem_map.mp hentry
    dsimp only
    split
    · rename_i own hown
      exact hinheriting own block.body (hheir (name, own) (Entries.mem_of_get? hown))
        (.inr ⟨block, hbase _ hmem, rfl⟩)
    · exact hbase _ hmem
  · obtain ⟨own, hmem, rfl⟩ := List.mem_map.mp hentry
    exact hinheriting own.2 [] (hheir own (List.mem_of_mem_filter hmem)) (.inl rfl)

end

lemma mergeOver_nil (base : BlockTable) : mergeOver [] base = base := by
  rw [mergeOver, List.filter_nil, List.map_nil, List.append_nil]
  exact List.map_id base

end BlockTable

namespace Renderer
open Rendering (Outcome)
variable {r : Renderer} {read : Text → Except Text Text}

/-- To fetch a template is to load what its reference means. -/
lemma fetch_cases (r : Renderer) (reference directory : Text) :
    (∃ e, r.fetch reference directory = .failed e) ∨
      ∃ identifier, r.resolve reference directory = .done identifier ∧
        r.fetch reference directory = .load identifier >>= fun source =>
          .done (identifier, source) := by
  have hload (identifier : Text) : (∃ e, r.load identifier = .failed e) ∨
      r.load identifier = .load identifier := by
    unfold load
    split
    · exact .inr rfl
    · exact .inl ⟨_, rfl⟩
  have hresolve : (∃ e, r.resolve reference directory = .failed e) ∨
      ∃ identifier, r.resolve reference directory = .done identifier := by
    unfold resolve
    split
    · exact .inl ⟨_, rfl⟩
    · unfold Rendering.ofExcept
      split
      · exact .inr ⟨_, rfl⟩
      · exact .inl ⟨_, rfl⟩
  rw [fetch]
  rcases hresolve with ⟨e, h⟩ | ⟨identifier, h⟩
  · exact .inl ⟨e, by rw [h]; rfl⟩
  · rcases hload identifier with ⟨e, hl⟩ | hl
    · exact .inl ⟨e, by rw [h, Rendering.done_bind, hl]; rfl⟩
    · exact .inr ⟨identifier, h, by rw [h, Rendering.done_bind, hl]; rfl⟩

lemma fetch_eq_ok {reference directory identifier source : Text}
    (h : ((r.fetch reference directory).run read).result = .ok (identifier, source)) :
    r.resolve reference directory = .done identifier ∧ read identifier = .ok source := by
  rcases r.fetch_cases reference directory with ⟨e, hfetch⟩ | ⟨found, hresolve, hfetch⟩
  · rw [hfetch] at h
    cases h
  · rw [hfetch, Rendering.run_bind, Rendering.run] at h
    cases hread : read found with
    | error reason =>
      rw [hread] at h
      cases h
    | ok text =>
      rw [hread] at h
      cases h
      exact ⟨hresolve, hread⟩

variable {d d' : Text}

lemma fetch_of_resolve_eq {reference : Text}
    (hreference : r.resolve reference d = r.resolve reference d') :
    r.fetch reference d = r.fetch reference d' := by
  rw [fetch, fetch, hreference]

lemma collectMixins_of_resolve_eq {references : List Text} {table : BlockTable}
    (hreferences : ∀ reference ∈ references, r.resolve reference d = r.resolve reference d') :
    r.collectMixins d references table = r.collectMixins d' references table := by
  induction references generalizing table with
  | nil => rfl
  | cons reference rest ih =>
    have hrest := fun table => @ih table fun other hother =>
      hreferences other (List.mem_cons_of_mem _ hother)
    rw [collectMixins, collectMixins, fetch_of_resolve_eq (hreferences _ List.mem_cons_self)]
    simp only [hrest]

/-- What becomes of an heir when the text of its parent and the blocks of its mixins are there. -/
def adopt (r : Renderer) (level : ℕ) (vars : Fields) (heir : Heir) (mixed : BlockTable)
    (directory source : Text) : Rendering Text :=
  let blocks := r.extract directory (r.read source)
  let merged := BlockTable.mergeOver heir.blocks (BlockTable.mergeOver mixed blocks)
  match parent? (r.read source) with
  | some parent => r.inherit level vars ⟨r.read source, directory, merged, parent⟩
  | none =>
    r.splice (r.template level) (r.fragment level) (r.fill level) blocks merged ⟨vars, directory⟩
      (r.read source)

lemma run_inherit (level : ℕ) (vars : Fields) (heir : Heir) :
    (r.inherit (level + 1) vars heir).run read =
      ((r.fetch heir.parent heir.directory).run read).andThen fun found =>
        (((r.collectMixins heir.directory (mixins heir.symbols) []).run read).andThen fun mixed =>
          (r.adopt level vars heir mixed (Location.directory found.1) found.2).run read).behind
            [found.1] := by
  rw [inherit, Rendering.run_bind]
  congr 1
  funext found
  refine (Rendering.run_use_bind read found.1 _).trans ?_
  exact congrArg (Outcome.behind [found.1]) (Rendering.run_bind read _ _)

/-- The name of a block's construct. -/
def blockName (c : Construct) : Text :=
  match c.opener with
  | .tag (.openBlock name) _ => name
  | _ => []

section
variable (filling : Filling) (fragment : Expansion) (table : BlockTable)

lemma run_renderBlock (vars : Fields) (block : Block) :
    (renderBlock filling fragment table vars block).run read =
      ((filling table ⟨vars, block.directory⟩ block.body).run read).andThen
        fun filled => ((fragment ⟨vars, block.directory⟩ filled.1).run read).andThen
          fun text => ⟨[], .ok (text, filled.2)⟩ := by
  rw [renderBlock, Rendering.run_bind]
  congr 1
  funext filled
  exact Rendering.run_bind read _ _

lemma run_fillPieces_single (ctx : Context) (y : Symbol) (rest : List Piece) :
    (r.fillPieces filling fragment table ctx (.single y :: rest)).run read =
      ((r.fillPieces filling fragment table ctx rest).run read).andThen
        fun filled => ⟨[], .ok (y.text ++ filled.1, filled.2)⟩ := by
  rw [fillPieces, Rendering.run_bind]
  rfl

lemma run_fillPieces_construct (ctx : Context) (c : Construct) (rest : List Piece) :
    (r.fillPieces filling fragment table ctx (.construct c :: rest)).run read =
      ((renderBlock filling fragment table ctx.vars
        ((table.get? (blockName c)).getD ⟨r.body c.body, ctx.directory⟩)).run read).andThen
        fun here => ((r.fillPieces filling fragment table ctx rest).run read).andThen
          fun filled => ⟨[], .ok (here.1 ++ filled.1, blockName c :: here.2 ++ filled.2)⟩ := by
  rw [fillPieces, Rendering.run_bind]
  congr 1
  funext filled
  exact Rendering.run_bind read _ _

end

lemma forall_mem_collectMixins {P : Block → Prop} {directory : Text} {references : List Text}
    {table result : BlockTable} (htable : ∀ entry ∈ table, P entry.2)
    (hfetched : ∀ reference ∈ references, ∀ identifier source,
      ((r.fetch reference directory).run read).result = .ok (identifier, source) →
        ∀ entry ∈ r.extract (Location.directory identifier) (r.read source), P entry.2)
    (h : ((r.collectMixins directory references table).run read).result = .ok result) :
    ∀ entry ∈ result, P entry.2 := by
  induction references generalizing table with
  | nil =>
    obtain rfl : table = result := by simpa [collectMixins] using h
    exact htable
  | cons reference rest ih =>
    rw [collectMixins, Rendering.run_bind] at h
    obtain ⟨⟨identifier, source⟩, hfetch, h⟩ := Outcome.exists_of_result_andThen h
    refine ih ?_ (fun other hother => hfetched other (List.mem_cons_of_mem _ hother)) h
    intro entry hentry
    rcases Entries.mem_overlay hentry with hmem | ⟨other, hother, heq⟩
    · exact htable entry hmem
    · rw [heq]
      exact hfetched reference List.mem_cons_self identifier source hfetch other hother

/-- Everything has its place in the skeleton. -/
lemma additions_of_forall_contains {fill : Filling} {fragment : Expansion}
    {skeleton table : BlockTable} {vars : Fields} {declared : List Text} {entries : Entries Block}
    (h : ∀ entry ∈ entries, skeleton.contains entry.1 = true) :
    additions fill fragment skeleton table vars declared entries = .done [] := by
  induction entries with
  | nil => rfl
  | cons entry rest ih =>
    rw [additions, h entry List.mem_cons_self, Bool.true_or, if_pos rfl]
    exact ih fun other hother => h other (List.mem_cons_of_mem entry hother)

end Renderer

namespace BlockTable
variable {directory : Text} {cs : List Construct} {table : BlockTable}

lemma declare_of_opens {c : Construct} (h : Pair.opens .block c.opener = true) (dedents : Bool)
    (directory : Text) (table : BlockTable) : declare dedents directory table c =
      table.insert (Renderer.blockName c) (blockOf dedents directory c) := by
  unfold declare Renderer.blockName
  split
  · rfl
  · rename_i hname
    unfold Pair.opens at h
    split at h
    · cases h
    · cases h
    · rename_i hopener
      exact absurd hopener (hname _ _)
    · cases h

lemma get?_foldl_of_forall_ne {dedents : Bool} {name : Text}
    (hopens : ∀ c ∈ cs, Pair.opens .block c.opener = true)
    (h : ∀ c ∈ cs, Renderer.blockName c ≠ name) :
    (cs.foldl (declare dedents directory) table).get? name = table.get? name := by
  induction cs generalizing table with
  | nil => rfl
  | cons c cs ih =>
    rw [List.foldl_cons, ih (fun d hd => hopens d (List.mem_cons_of_mem c hd))
      fun d hd => h d (List.mem_cons_of_mem c hd), declare_of_opens (hopens c List.mem_cons_self),
      Entries.get?_insert, if_neg (h c List.mem_cons_self)]

lemma get?_foldl {dedents : Bool} {c : Construct}
    (hopens : ∀ c ∈ cs, Pair.opens .block c.opener = true)
    (hnames : (cs.map Renderer.blockName).Nodup) (hc : c ∈ cs) :
    (cs.foldl (declare dedents directory) table).get? (Renderer.blockName c) =
      some (blockOf dedents directory c) := by
  induction cs generalizing table with
  | nil => cases hc
  | cons d cs ih =>
    obtain ⟨hd, hcs⟩ := List.nodup_cons.mp hnames
    have hlater c (hc : c ∈ cs) := hopens c (List.mem_cons_of_mem d hc)
    rw [List.foldl_cons]
    rcases List.mem_cons.mp hc with rfl | hc
    · have hne : ∀ e ∈ cs, Renderer.blockName e ≠ Renderer.blockName c := fun e he heq =>
        hd (by rw [← heq]; exact List.mem_map_of_mem he)
      rw [get?_foldl_of_forall_ne hlater hne, declare_of_opens (hopens c List.mem_cons_self),
        Entries.get?_insert, if_pos rfl]
    · exact ih hlater hcs hc

/-- Among different names every block is found under its own. -/
lemma get?_extract {dedents : Bool} {l : List Symbol}
    (hnames : ((allConstructs .block l).map Renderer.blockName).Nodup) {c : Construct}
    (hc : c ∈ allConstructs .block l) :
    (extract dedents directory l).get? (Renderer.blockName c) =
      some (blockOf dedents directory c) :=
  get?_foldl (fun _ hd => opens_of_mem_allConstructs hd) hnames hc

end BlockTable

end Stencil
