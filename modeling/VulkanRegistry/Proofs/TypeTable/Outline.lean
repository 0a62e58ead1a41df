/-
What later steps keep of a table.

Kinds are worked out step by step: first the aliases, then everything else, then the
extenders, and much later members and values.  None of these steps adds an entry, renames
one or changes what an alias stands for.  The outline of a table is what they all keep, and
what names resolve to depends on nothing else (`resolve_eq_of_outline`).
-/
import VulkanRegistry.Proofs.TypeTable.Lookup

namespace VulkanRegistry

/-- The name, the declaration and the target of an entry. -/
def TypeEntry.outline (entry : TypeEntry) : String × Option TypeDecl × Option TypeId :=
  (entry.name, entry.decl, entry.kind.aliasTarget?)

namespace TypeKind

theorem isAlias_eq_isSome (kind : TypeKind) : kind.isAlias = kind.aliasTarget?.isSome := by
  cases kind <;> rfl

theorem aliasTarget?_eq_some {kind : TypeKind} {target : TypeId} :
    kind.aliasTarget? = some target ↔ kind = .aliasTo target := by
  cases kind <;> simp [aliasTarget?]

@[simp] theorem aliasTarget?_mapStruct (f : StructLayout → StructLayout) (kind : TypeKind) :
    (kind.mapStruct f).aliasTarget? = kind.aliasTarget? := by
  cases kind <;> rfl

@[simp] theorem aliasTarget?_mapEnum (f : EnumLayout → EnumLayout) (kind : TypeKind) :
    (kind.mapEnum f).aliasTarget? = kind.aliasTarget? := by
  cases kind <;> rfl

@[simp] theorem structLayout?_mapStruct (f : StructLayout → StructLayout) (kind : TypeKind) :
    (kind.mapStruct f).structLayout? = kind.structLayout?.map f := by
  cases kind <;> rfl

@[simp] theorem structLayout?_mapEnum (f : EnumLayout → EnumLayout) (kind : TypeKind) :
    (kind.mapEnum f).structLayout? = kind.structLayout? := by
  cases kind <;> rfl

@[simp] theorem enumLayout?_mapStruct (f : StructLayout → StructLayout) (kind : TypeKind) :
    (kind.mapStruct f).enumLayout? = kind.enumLayout? := by
  cases kind <;> rfl

@[simp] theorem enumLayout?_mapEnum (f : EnumLayout → EnumLayout) (kind : TypeKind) :
    (kind.mapEnum f).enumLayout? = kind.enumLayout?.map f := by
  cases kind <;> rfl

end TypeKind

namespace TypeTable

/-- What later steps keep of a table. -/
def outline (table : TypeTable) : List (String × Option TypeDecl × Option TypeId) :=
  table.entries.map TypeEntry.outline

/-- The id leads to a type that is no alias. -/
def Proper (table : TypeTable) (id : TypeId) : Prop :=
  ∃ entry, table.get? id = some entry ∧ entry.kind.isAlias = false

/-- Every alias is one hop from what it stands for. -/
def AliasesEnd (table : TypeTable) : Prop :=
  ∀ id entry target, table.get? id = some entry → entry.kind = .aliasTo target → table.Proper target

theorem mem_indexed {table : TypeTable} {id : TypeId} {entry : TypeEntry} :
    (id, entry) ∈ table.indexed ↔ table.get? id = some entry := by
  constructor
  · intro h
    obtain ⟨⟨x, i⟩, hmem, heq⟩ := List.mem_map.mp h
    simp only [Prod.mk.injEq] at heq
    obtain ⟨rfl, rfl⟩ := heq
    exact List.mem_zipIdx_iff_getElem?.mp hmem
  · intro h
    exact List.mem_map.mpr ⟨(entry, id.index), List.mem_zipIdx_iff_getElem?.mpr h, rfl⟩

theorem map_snd_indexed (table : TypeTable) : table.indexed.map Prod.snd = table.entries := by
  unfold indexed
  rw [List.map_map]
  exact List.zipIdx_map_fst ..

theorem map_fst_indexed (table : TypeTable) : table.indexed.map Prod.fst = table.ids := by
  have hindices : table.entries.zipIdx.map Prod.snd = List.range table.size := by
    rw [List.zipIdx_map_snd, ← List.range_eq_range']
    rfl
  rw [indexed, ids, ← hindices, List.map_map, List.map_map]
  rfl

theorem getElem?_indexed (table : TypeTable) (i : Nat) :
    table.indexed[i]? = (table.entries[i]?).map fun entry => (⟨i⟩, entry) := by
  rw [indexed, List.getElem?_map, List.getElem?_zipIdx, Option.map_map]
  simp [Function.comp_def]

/-! ### Reading the outline -/

theorem outline_get? (table : TypeTable) (id : TypeId) :
    table.outline[id.index]? = (table.get? id).map TypeEntry.outline := by
  simp [outline, get?]

theorem names_eq_of_outline {table other : TypeTable} (h : other.outline = table.outline) :
    other.names = table.names := by
  have hnames : ∀ t : TypeTable, t.names = t.outline.map (·.1) := by
    intro t
    simp [names, outline, TypeEntry.outline]
  rw [hnames other, hnames table, h]

theorem size_eq_of_outline {table other : TypeTable} (h : other.outline = table.outline) :
    other.size = table.size := by
  simpa [outline, size] using congrArg List.length h

/-- Tables of one outline have the same entry at an id, up to its kind. -/
theorem get?_of_outline {table other : TypeTable} (h : other.outline = table.outline) {id : TypeId}
    {entry : TypeEntry} (hentry : other.get? id = some entry) :
    ∃ found, table.get? id = some found ∧ found.outline = entry.outline := by
  have hget := outline_get? other id
  rw [h, outline_get?, hentry, Option.map_some] at hget
  exact Option.map_eq_some_iff.mp hget

theorem lookup?_eq_names (table : TypeTable) (name : String) :
    table.lookup? name = (table.names.findIdx? (· == name)).map TypeId.mk := by
  rw [lookup?, names, List.findIdx?_map]
  rfl

theorem lookup?_eq_of_outline {table other : TypeTable} (h : other.outline = table.outline)
    (name : String) : other.lookup? name = table.lookup? name := by
  rw [lookup?_eq_names, lookup?_eq_names, names_eq_of_outline h]

theorem canonical_eq_outline (table : TypeTable) (id : TypeId) :
    table.canonical id = ((table.outline[id.index]?).bind (·.2.2)).getD id := by
  rw [outline_get?, canonical, kind?]
  cases table.get? id <;> rfl

theorem canonical_eq_of_outline {table other : TypeTable} (h : other.outline = table.outline)
    (id : TypeId) : other.canonical id = table.canonical id := by
  rw [canonical_eq_outline, canonical_eq_outline, h]

theorem nameOf_eq_of_outline {table other : TypeTable} (h : other.outline = table.outline)
    (id : TypeId) : other.nameOf id = table.nameOf id := by
  have hname : ∀ t : TypeTable, t.nameOf id = ((t.outline[id.index]?).map (·.1)).getD "" := by
    intro t
    rw [outline_get?, Option.map_map]
    rfl
  rw [hname other, hname table, h]

theorem resolve_eq_of_outline {table other : TypeTable} (h : other.outline = table.outline)
    (name referrer : String) : other.resolve name referrer = table.resolve name referrer := by
  have hcanonical : other.canonical = table.canonical := funext (canonical_eq_of_outline h)
  rw [resolve, resolve, require, require, lookup?_eq_of_outline h, hcanonical]

theorem proper_of_outline {table other : TypeTable} (h : other.outline = table.outline)
    {id : TypeId} (hid : table.Proper id) : other.Proper id := by
  obtain ⟨entry, hentry, halias⟩ := hid
  obtain ⟨found, hfound, houtline⟩ := get?_of_outline h.symm hentry
  refine ⟨found, hfound, ?_⟩
  simp only [TypeEntry.outline, Prod.mk.injEq] at houtline
  rw [TypeKind.isAlias_eq_isSome, houtline.2.2, ← TypeKind.isAlias_eq_isSome, halias]

theorem aliasesEnd_of_outline {table other : TypeTable} (h : other.outline = table.outline)
    (hends : table.AliasesEnd) : other.AliasesEnd := by
  intro id entry target hentry hkind
  obtain ⟨found, hfound, houtline⟩ := get?_of_outline h hentry
  simp only [TypeEntry.outline, Prod.mk.injEq] at houtline
  refine proper_of_outline h (hends id found target hfound ?_)
  rw [← TypeKind.aliasTarget?_eq_some, houtline.2.2, TypeKind.aliasTarget?_eq_some]
  exact hkind

/-! ### What names stand for -/

theorem Proper.canonical_eq {table : TypeTable} {id : TypeId} (h : table.Proper id) :
    table.canonical id = id := by
  obtain ⟨entry, hentry, halias⟩ := h
  rw [TypeKind.isAlias_eq_isSome, Option.isSome_eq_false_iff, Option.isNone_iff_eq_none] at halias
  simp [canonical, kind?, hentry, halias]

/-- An alias stands for its target, and any other type for itself. -/
theorem canonical_of_get? {table : TypeTable} {id : TypeId} {entry : TypeEntry}
    (h : table.get? id = some entry) :
    entry.kind = .aliasTo (table.canonical id) ∨
      entry.kind.isAlias = false ∧ table.canonical id = id := by
  cases htarget : entry.kind.aliasTarget? with
  | none =>
      refine Or.inr ⟨?_, ?_⟩
      · rw [TypeKind.isAlias_eq_isSome, htarget]
        rfl
      · simp [canonical, kind?, h, htarget]
  | some target =>
      have hcanonical : table.canonical id = target := by simp [canonical, kind?, h, htarget]
      rw [hcanonical]
      exact Or.inl (TypeKind.aliasTarget?_eq_some.mp htarget)

theorem proper_canonical {table : TypeTable} (hends : table.AliasesEnd) {id : TypeId}
    (hid : id.index < table.size) : table.Proper (table.canonical id) := by
  obtain ⟨entry, hentry⟩ := exists_get? hid
  rcases canonical_of_get? hentry with hkind | ⟨halias, hsame⟩
  · exact hends id entry _ hentry hkind
  · rw [hsame]
    exact ⟨entry, hentry, halias⟩

theorem proper_of_resolve {table : TypeTable} (hends : table.AliasesEnd) {name referrer : String}
    {id : TypeId} (h : table.resolve name referrer = .ok id) : table.Proper id := by
  obtain ⟨found, hfound, rfl⟩ := Option.map_eq_some_iff.mp (resolve_eq_ok.mp h)
  exact proper_canonical hends (lt_size_of_lookup? hfound)

end TypeTable

end VulkanRegistry
