import Stencil.Proofs.Table

/-! What a table holds that others were laid over: its names in the order of their first
appearance, and under each name the last body, with the body below it in the place of
`super()`. -/
namespace Stencil

/-- A new last item is kept unless it has appeared before. -/
lemma eraseDups_append_singleton (l : List Text) (a : Text) :
    (l ++ [a]).eraseDups = if a ∈ l then l.eraseDups else l.eraseDups ++ [a] := by
  have hsingle : [a].eraseDups = [a] := by simp [List.eraseDups_cons]
  rw [List.eraseDups_append]
  by_cases h : a ∈ l
  · simp [List.removeAll, h]
  · simp [List.removeAll, h, hsingle]

lemma nodup_eraseDups (l : List Text) : l.eraseDups.Nodup := by
  induction l using List.reverseRecOn with
  | nil => simp
  | append_singleton l a ih =>
    rw [eraseDups_append_singleton]
    split
    · exact ih
    · rename_i ha
      refine ih.append (List.nodup_singleton a) ?_
      simpa using ha

namespace Entries
variable {α : Type}

lemma mem_keys_iff {entries : Entries α} {key : Text} :
    key ∈ entries.keys ↔ entries.contains key = true := by
  constructor
  · intro h
    obtain ⟨entry, hentry, rfl⟩ := List.mem_map.mp h
    exact contains_of_mem hentry
  · intro h
    obtain ⟨value, hvalue⟩ := Option.isSome_iff_exists.mp h
    exact List.mem_map.mpr ⟨_, mem_of_get? hvalue, rfl⟩

lemma get?_eq_none_iff {entries : Entries α} {key : Text} :
    entries.get? key = none ↔ key ∉ entries.keys := by
  rw [mem_keys_iff, contains, Bool.not_eq_true, Option.isSome_eq_false_iff, Option.isNone_iff_eq_none]

/-- Among distinct keys every entry is found under its own. -/
lemma get?_of_mem {entries : Entries α} (h : entries.keys.Nodup) {key : Text} {value : α}
    (hmem : (key, value) ∈ entries) : entries.get? key = some value := by
  induction entries with
  | nil => cases hmem
  | cons first rest ih =>
    obtain ⟨k, v⟩ := first
    obtain ⟨hfirst, hrest⟩ := List.nodup_cons.mp h
    rcases List.mem_cons.mp hmem with heq | hmem
    · cases heq
      exact get?_cons_self key value rest
    · rw [get?_cons_of_ne, ih hrest hmem]
      rintro rfl
      exact hfirst (List.mem_map.mpr ⟨_, hmem, rfl⟩)

lemma get?_map (f : Text → α → α) (entries : Entries α) (key : Text) :
    get? (entries.map fun entry => (entry.1, f entry.1 entry.2)) key =
      (entries.get? key).map (f key) := by
  induction entries with
  | nil => rfl
  | cons first rest ih =>
    obtain ⟨k, v⟩ := first
    by_cases hk : k = key
    · subst hk
      rw [List.map_cons, get?_cons_self, get?_cons_self]
      rfl
    · rw [List.map_cons, get?_cons_of_ne hk, get?_cons_of_ne hk, ih]

lemma get?_filter (p : Text → Bool) (entries : Entries α) (key : Text) :
    get? (entries.filter fun entry => p entry.1) key = if p key then entries.get? key else none := by
  induction entries with
  | nil => simp
  | cons first rest ih =>
    obtain ⟨k, v⟩ := first
    rw [List.filter_cons]
    by_cases hk : k = key
    · subst hk
      by_cases hp : p k = true
      · rw [if_pos hp, get?_cons_self, get?_cons_self, if_pos hp]
      · rw [if_neg hp, ih, if_neg hp, if_neg hp]
    · rw [get?_cons_of_ne hk, ← ih]
      split
      · rw [get?_cons_of_ne hk]
      · rfl

lemma nodup_keys_overlay {entries : Entries α} (h : entries.keys.Nodup) (upper : Entries α) :
    (entries.overlay upper).keys.Nodup := by
  induction upper generalizing entries with
  | nil => exact h
  | cons first upper ih => exact ih (nodup_keys_insert h first.1 first.2)

/-- The order of distinct keys does not matter. -/
lemma get?_reverse {entries : Entries α} (h : entries.keys.Nodup) (key : Text) :
    get? entries.reverse key = entries.get? key := by
  induction entries with
  | nil => rfl
  | cons first rest ih =>
    obtain ⟨k, v⟩ := first
    obtain ⟨hfirst, hrest⟩ := List.nodup_cons.mp h
    rw [List.reverse_cons, get?_append, ih hrest]
    by_cases hk : k = key
    · subst hk
      rw [get?_eq_none_iff.mpr hfirst, get?_cons_self, get?_cons_self, Option.none_or]
    · rw [get?_cons_of_ne hk, get?_cons_of_ne hk, get?_nil, Option.or_none]

/-- Entries that lie over others are found first. -/
lemma get?_overlay {entries upper : Entries α} (h : upper.keys.Nodup) (key : Text) :
    (entries.overlay upper).get? key = (upper.get? key).or (entries.get? key) := by
  rw [get?_overlay_reverse, get?_reverse h]

/-- The keys come in the order of their first appearance. -/
lemma keys_overlay {entries upper : Entries α} {seen : List Text}
    (h : entries.keys = seen.eraseDups) :
    (entries.overlay upper).keys = (seen ++ upper.keys).eraseDups := by
  induction upper generalizing entries seen with
  | nil => simpa [overlay, keys] using h
  | cons first upper ih =>
    obtain ⟨k, v⟩ := first
    have hinsert : (entries.insert k v).keys = (seen ++ [k]).eraseDups := by
      rw [keys_insert, eraseDups_append_singleton, h]
      simp only [List.mem_eraseDups]
    have := ih hinsert
    rwa [List.append_assoc, List.singleton_append] at this

end Entries

namespace BlockTable

lemma nodup_keys_extract (dedents : Bool) (directory : Text) (l : List Symbol) :
    (extract dedents directory l).keys.Nodup := by
  refine List.foldlRecOn (motive := fun table : BlockTable => table.keys.Nodup) _
    (declare dedents directory) List.nodup_nil fun table h c _ => ?_
  rcases declare_cases dedents directory c with ⟨name, hc⟩ | hc
  · rw [hc]
    exact Entries.nodup_keys_insert h _ _
  · rw [hc]
    exact h

/-- The body that a table has under a name. -/
def body? (table : BlockTable) (name : Text) : Option Text := (table.get? name).map Block.body

lemma body?_overlay {entries upper : BlockTable} (h : upper.keys.Nodup) (name : Text) :
    body? (entries.overlay upper) name = (upper.body? name).or (entries.body? name) := by
  rw [body?, Entries.get?_overlay h, Option.map_or]
  rfl

/-- A block of the base with the heir's block of its name over it. -/
def laidOver (heir : BlockTable) (name : Text) (block : Block) : Block :=
  ((heir.get? name).map fun own => own.inheriting block.body).getD block

lemma mergeOver_eq (heir base : BlockTable) :
    mergeOver heir base = (base.map fun entry => (entry.1, heir.laidOver entry.1 entry.2)) ++
      (heir.filter fun entry => !base.contains entry.1).map fun entry =>
        (entry.1, entry.2.inheriting []) := by
  rw [mergeOver]
  congr 1
  refine List.map_congr_left fun entry _ => ?_
  obtain ⟨name, block⟩ := entry
  dsimp only [laidOver]
  cases Entries.get? heir name <;> rfl

lemma keys_mergeOver (heir base : BlockTable) :
    (mergeOver heir base).keys =
      base.keys ++ heir.keys.filter fun name => !base.contains name := by
  rw [mergeOver_eq, Entries.keys, List.map_append, List.map_map, List.map_map, Entries.keys,
    Entries.keys, List.filter_map]
  rfl

lemma nodup_keys_mergeOver {heir base : BlockTable} (hheir : heir.keys.Nodup)
    (hbase : base.keys.Nodup) : (mergeOver heir base).keys.Nodup := by
  rw [keys_mergeOver]
  refine hbase.append (hheir.filter _) fun name hname hnew => ?_
  have := (List.mem_filter.mp hnew).2
  rw [Entries.mem_keys_iff.mp hname] at this
  cases this

/-- A block of the heir takes the place of the base's, on the body of which it may call. -/
lemma get?_mergeOver (heir base : BlockTable) (name : Text) :
    (mergeOver heir base).get? name =
      ((heir.get? name).map fun own => own.inheriting ((base.body? name).getD [])).or
        (base.get? name) := by
  have hadded := Entries.get?_map (fun _ own => Block.inheriting own [])
    (heir.filter fun entry => !base.contains entry.1) name
  rw [Entries.get?_filter fun name => !base.contains name, Entries.contains] at hadded
  rw [mergeOver_eq, Entries.get?_append, Entries.get?_map heir.laidOver, hadded, body?]
  unfold laidOver
  cases Entries.get? base name <;> cases Entries.get? heir name <;> rfl

lemma body?_mergeOver (heir base : BlockTable) (name : Text) :
    body? (mergeOver heir base) name =
      ((heir.body? name).map fun own => replaceSuper own ((base.body? name).getD [])).or
        (base.body? name) := by
  rw [body?, get?_mergeOver, Option.map_or, Option.map_map, body?, body?, Option.map_map]
  rfl

end BlockTable

namespace Renderer
open Rendering (Outcome)
variable {r : Renderer} {read : Text → Except Text Text}

/-- The blocks of mixins when the templates are there, of each of which the names and the bodies
are known: the names in the order of their first appearance, and under each name the body of the
last mixin that declares it. -/
lemma exists_collectMixins {β : Type} {names : β → List Text} {body? : β → Text → Option Text}
    {directory : Text} {references : List Text} {ms : List β}
    (hfetch : List.Forall₂ (fun reference m => ∃ identifier source,
      ((r.fetch reference directory).run read).result = .ok (identifier, source) ∧
        (r.extract (Location.directory identifier) (r.read source)).keys = names m ∧
        ∀ name, (r.extract (Location.directory identifier) (r.read source)).body? name =
          body? m name) references ms)
    (hnames : ∀ m ∈ ms, (names m).Nodup) (table : BlockTable) (seen : List Text)
    (htable : table.keys = seen.eraseDups) :
    ∃ mixed, ((r.collectMixins directory references table).run read).result = .ok mixed ∧
      mixed.keys = (seen ++ ms.flatMap names).eraseDups ∧
      ∀ name, BlockTable.body? mixed name =
        (ms.reverse.findSome? fun m => body? m name).or (table.body? name) := by
  induction hfetch generalizing table seen with
  | nil => exact ⟨table, rfl, by simpa using htable, fun name => rfl⟩
  | @cons reference m references ms hfirst hrest ih =>
    obtain ⟨identifier, source, hsource, hkeys, hbody⟩ := hfirst
    have hm := hnames m List.mem_cons_self
    rw [← hkeys] at hm
    obtain ⟨mixed, hmixed, hmixedKeys, hmixedBody⟩ := ih
      (fun m hm => hnames m (List.mem_cons_of_mem _ hm)) _ _ (Entries.keys_overlay htable)
    refine ⟨mixed, ?_, ?_, fun name => ?_⟩
    · rw [collectMixins, Rendering.run_bind, Outcome.result_andThen hsource]
      exact hmixed
    · rw [hmixedKeys, hkeys, List.append_assoc, List.flatMap_cons]
    · rw [hmixedBody, BlockTable.body?_overlay hm, hbody, List.reverse_cons, List.findSome?_append,
        Option.or_assoc]
      simp

end Renderer
end Stencil
