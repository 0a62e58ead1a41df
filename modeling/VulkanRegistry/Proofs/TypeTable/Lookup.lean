/-
Looking up the types of a table.

A name leads to the first entry that has it, so a name that is found is the name of the
entry that is found, and where names are distinct every entry is found by its own name.
-/
import VulkanRegistry.TypeTable.Basic

namespace VulkanRegistry.TypeTable

theorem get?_eq_some {table : TypeTable} {id : TypeId} {entry : TypeEntry} :
    table.get? id = some entry ↔ table.entries[id.index]? = some entry :=
  Iff.rfl

theorem index_lt_size {table : TypeTable} {id : TypeId} {entry : TypeEntry}
    (h : table.get? id = some entry) : id.index < table.size :=
  (List.getElem?_eq_some_iff.mp h).1

theorem exists_get? {table : TypeTable} {id : TypeId} (h : id.index < table.size) :
    ∃ entry, table.get? id = some entry :=
  ⟨table.entries.get ⟨id.index, h⟩, List.getElem?_eq_getElem h⟩

theorem get?_eq_none_iff {table : TypeTable} {id : TypeId} :
    table.get? id = none ↔ table.size ≤ id.index :=
  List.getElem?_eq_none_iff

theorem kind?_eq_some {table : TypeTable} {id : TypeId} {kind : TypeKind} :
    table.kind? id = some kind ↔ ∃ entry, table.get? id = some entry ∧ entry.kind = kind := by
  simp [kind?]

theorem mem_ids {table : TypeTable} {id : TypeId} : id ∈ table.ids ↔ id.index < table.size := by
  constructor
  · intro h
    obtain ⟨i, hi, rfl⟩ := List.mem_map.mp h
    exact List.mem_range.mp hi
  · intro h
    exact List.mem_map.mpr ⟨id.index, List.mem_range.mpr h, rfl⟩

/-- Ids are in order. -/
theorem pairwise_ids (table : TypeTable) : table.ids.Pairwise fun a b => a.index < b.index := by
  rw [ids, List.pairwise_map]
  exact List.pairwise_lt_range

theorem struct?_eq_some_iff {table : TypeTable} {id : TypeId} {layout : StructLayout} :
    table.struct? id = some layout ↔
      ∃ entry, table.get? id = some entry ∧ entry.kind.structLayout? = some layout := by
  rw [struct?, kind?, Option.bind_map, Option.bind_eq_some_iff]
  rfl

theorem get?_of_lookup? {table : TypeTable} {name : String} {id : TypeId}
    (h : table.lookup? name = some id) :
    ∃ entry, table.get? id = some entry ∧ entry.name = name := by
  obtain ⟨i, hi, rfl⟩ := Option.map_eq_some_iff.mp h
  obtain ⟨hlt, hname, -⟩ := List.findIdx?_eq_some_iff_getElem.mp hi
  exact ⟨table.entries[i], List.getElem?_eq_getElem hlt, by simpa using hname⟩

theorem lt_size_of_lookup? {table : TypeTable} {name : String} {id : TypeId}
    (h : table.lookup? name = some id) : id.index < table.size := by
  obtain ⟨entry, hentry, -⟩ := get?_of_lookup? h
  exact index_lt_size hentry

theorem lookup?_eq_none_iff {table : TypeTable} {name : String} :
    table.lookup? name = none ↔ name ∉ table.names := by
  simp [lookup?, names]

/-- Where names are distinct, an entry is found by its name. -/
theorem lookup?_eq_of_nodup {table : TypeTable} (hnodup : table.names.Nodup) {id : TypeId}
    {entry : TypeEntry} (h : table.get? id = some entry) : table.lookup? entry.name = some id := by
  obtain ⟨hlt, hentry⟩ := List.getElem?_eq_some_iff.mp h
  have hfirst : table.entries.findIdx? (·.name == entry.name) = some id.index := by
    refine List.findIdx?_eq_some_iff_getElem.mpr ⟨hlt, by simp [hentry], fun j hji => ?_⟩
    intro hname
    have hlen : id.index < table.names.length := by simpa [names] using hlt
    refine (List.pairwise_iff_getElem.mp hnodup) j id.index (by omega) hlen hji ?_
    simpa [names, hentry] using hname
  rw [lookup?, hfirst]
  rfl

theorem require_eq_ok {table : TypeTable} {name referrer : String} {id : TypeId} :
    table.require name referrer = .ok id ↔ table.lookup? name = some id := by
  unfold require
  cases table.lookup? name <;> simp

theorem resolve_eq_ok {table : TypeTable} {name referrer : String} {id : TypeId} :
    table.resolve name referrer = .ok id ↔ (table.lookup? name).map table.canonical = some id := by
  unfold resolve require
  cases table.lookup? name <;> simp [Except.map]

end VulkanRegistry.TypeTable
