import Stencil.Proofs.Closed
import Stencil.Proofs.Merging

/-! Tables of blocks in layers. Main statement: a table over another one has the names of both,
each with one block; and where every body calls on the one below it, it makes no difference
whether the layers are joined from the top down or from the bottom up. -/
namespace Stencil

/-- The body of a block in several layers, made from the lowest up: `super()` in each body stands
for what is made of those below it. -/
def resolveSuper : Text → List Text → Text
  | body, [] => body
  | body, lower :: rest => replaceSuper body (resolveSuper lower rest)

lemma eq_of_mem_superText {tag : Tag} {replacement t : Text} (h : t ∈ superText replacement tag) :
    t = replacement := by
  cases tag <;> cases h
  rfl

lemma replace_flatMap_graft (b c : Text) (l : List Symbol) :
    Symbol.replace (superText c) (l.flatMap (Symbol.graft (superText b))) =
      Symbol.replace (superText (replaceSuper b c)) l := by
  induction l with
  | nil => rfl
  | cons y l ih =>
    rw [List.flatMap_cons, Symbol.replace_append, ih]
    cases y with
    | char d => rfl
    | tag t written =>
      cases t with
      | superCall => rfl
      | _ =>
        change written ++ [] ++ _ = written ++ _
        rw [List.append_nil]

/-- In closed texts it makes no difference which calls are answered first. -/
lemma replaceSuper_assoc {a b : Text} (ha : Scan.Closed a) (hb : Scan.Closed b) (c : Text) :
    replaceSuper (replaceSuper a b) c = replaceSuper a (replaceSuper b c) := by
  have hf (tag : Tag) (t : Text) (ht : t ∈ superText b tag) : Scan.Closed t :=
    eq_of_mem_superText ht ▸ hb
  rw [replaceSuper_eq, replaceSuper_eq a b, ha.symbols_replace hf, replace_flatMap_graft,
    ← replaceSuper_eq]

lemma closed_replaceSuper {a b : Text} (ha : Scan.Closed a) (hb : Scan.Closed b) :
    Scan.Closed (replaceSuper a b) := by
  rw [replaceSuper_eq]
  exact ha.replace fun tag t ht => eq_of_mem_superText ht ▸ hb

lemma replaceSuper_resolve {a b : Text} (ha : Scan.Closed a) (hb : Scan.Closed b)
    (bodies : List Text) :
    resolveSuper (replaceSuper a b) bodies = replaceSuper a (resolveSuper b bodies) := by
  cases bodies with
  | nil => rfl
  | cons c bodies => exact replaceSuper_assoc ha hb _

namespace Entries
variable {α : Type}

lemma overlay_of_nodup {entries upper : Entries α} (h : (entries ++ upper).keys.Nodup) :
    entries.overlay upper = entries ++ upper := by
  induction upper generalizing entries with
  | nil => exact (List.append_nil entries).symm
  | cons first upper ih =>
    obtain ⟨k, v⟩ := first
    have hnew : entries.contains k = false := by
      refine Bool.eq_false_iff.mpr fun hk => ?_
      have hmem := mem_keys_iff.mpr hk
      rw [keys, List.map_append] at h
      exact (List.nodup_append.mp h).2.2 k hmem k (by simp) rfl
    have hinsert : entries.insert k v = entries ++ [(k, v)] := by
      have := insert_append entries [] k v
      rwa [List.append_nil, hnew] at this
    change (entries.insert k v).overlay upper = _
    rw [hinsert, ih (by rwa [List.append_assoc, List.singleton_append]), List.append_assoc,
      List.singleton_append]

/-- Tables with distinct keys are those made by insertions. -/
lemma nodup_keys_iff {entries : Entries α} :
    entries.keys.Nodup ↔ ∃ inserted, overlay [] inserted = entries := by
  constructor
  · exact fun h => ⟨entries, overlay_of_nodup h⟩
  · rintro ⟨inserted, rfl⟩
    have hkeys : (overlay [] inserted).keys = ([] ++ inserted.keys).eraseDups := keys_overlay rfl
    rw [hkeys]
    exact nodup_eraseDups _

end Entries

namespace BlockTable

/-- Laying the layers over one another from the top down gives what the bodies call on from the
bottom up. -/
lemma body?_foldl_mergeOver {name body : Text} {bodies : List Text} {table : BlockTable}
    {tables : List BlockTable} (hbody : Scan.Closed body)
    (hbodies : ∀ b ∈ bodies, Scan.Closed b) (htable : table.body? name = some body)
    (htables : List.Forall₂ (fun (lower : BlockTable) b => lower.body? name = some b)
      tables bodies) :
    body? (tables.foldl mergeOver table) name = some (resolveSuper body bodies) := by
  induction htables generalizing table body with
  | nil => exact htable
  | @cons lower b tables bodies hlower _ ih =>
    have hb := hbodies b List.mem_cons_self
    have hmerged : body? (mergeOver table lower) name = some (replaceSuper body b) := by
      rw [body?_mergeOver, htable, hlower]
      rfl
    have hrest (c : Text) (hc : c ∈ bodies) := hbodies c (List.mem_cons_of_mem b hc)
    rw [List.foldl_cons, ih (closed_replaceSuper hbody hb) hrest hmerged,
      replaceSuper_resolve hbody hb]
    rfl

/-- A table over another one. Tables are made by insertions, that is, their names are distinct.
The names of both tables come in their order, those of the base first. A block of the heir keeps
its directory, with `super()` in its body standing for the base's body of the name, or for
nothing; under any other name the base keeps its block. In a chain of tables that all have closed
bodies under a name, laying them over one another from the heir on gives the body in which each
calls on those below it, from the root up. -/
theorem mergeOver_layers :
    (∀ table : BlockTable, table.keys.Nodup ↔ ∃ inserted, Entries.overlay [] inserted = table) ∧
    (∀ heir base : BlockTable, heir.keys.Nodup → base.keys.Nodup →
      (mergeOver heir base).keys.Nodup ∧
      (mergeOver heir base).keys = base.keys ++ heir.keys.filter (fun name => name ∉ base.keys) ∧
      (∀ name, heir.get? name = none → (mergeOver heir base).get? name = base.get? name) ∧
      ∀ name own, heir.get? name = some own → (mergeOver heir base).get? name =
        some ⟨replaceSuper own.body ((base.body? name).getD []), own.directory⟩) ∧
    ∀ (name body : Text) (bodies : List Text) (table : BlockTable) (tables : List BlockTable),
      body.IsClosed → (∀ b ∈ bodies, b.IsClosed) → table.body? name = some body →
      List.Forall₂ (fun (lower : BlockTable) b => lower.body? name = some b) tables bodies →
      body? (tables.foldl mergeOver table) name = some (resolveSuper body bodies) := by
  refine ⟨fun table => Entries.nodup_keys_iff, fun heir base hheir hbase =>
    ⟨nodup_keys_mergeOver hheir hbase, ?_, fun name hname => ?_, fun name own hname => ?_⟩,
    fun name body bodies table tables hbody hbodies htable htables => ?_⟩
  · rw [keys_mergeOver]
    congr 1
    refine List.filter_congr fun name _ => ?_
    simp [Entries.mem_keys_iff]
  · rw [get?_mergeOver, hname]
    rfl
  · rw [get?_mergeOver, hname]
    rfl
  · exact body?_foldl_mergeOver hbody.closed (fun b hb => (hbodies b hb).closed) htable htables

/-- Three layers, the middle one of which calls on the lowest twice. -/
theorem mergeOver_layers_three :
    let table (body : String) : BlockTable := [(['a'], ⟨body.toList, []⟩)]
    Text.IsClosed "<{{ super() }}>".toList ∧
      Text.IsClosed "{{ super() }}, {{super()}}".toList ∧ Text.IsClosed "{% if x %}1".toList ∧
      body? (mergeOver (mergeOver (table "<{{ super() }}>") (table "{{ super() }}, {{super()}}"))
        (table "{% if x %}1")) ['a'] = some "<{% if x %}1, {% if x %}1>".toList := by
  intro table
  have htop : Text.IsClosed "<{{ super() }}>".toList := by decide +kernel
  have hmiddle : Text.IsClosed "{{ super() }}, {{super()}}".toList := by decide +kernel
  have hbottom : Text.IsClosed "{% if x %}1".toList := by decide +kernel
  have hresolve : resolveSuper "<{{ super() }}>".toList
      ["{{ super() }}, {{super()}}".toList, "{% if x %}1".toList] =
      "<{% if x %}1, {% if x %}1>".toList := by decide +kernel
  refine ⟨htop, hmiddle, hbottom, hresolve ▸ ?_⟩
  exact mergeOver_layers.2.2 ['a'] _ _ (table "<{{ super() }}>")
    [table "{{ super() }}, {{super()}}", table "{% if x %}1"] htop
    (List.forall_mem_cons.mpr ⟨hmiddle, List.forall_mem_singleton.mpr hbottom⟩) rfl
    (.cons rfl (.cons rfl .nil))

end BlockTable
end Stencil
