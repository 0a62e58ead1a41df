/-
Which structs extend which.

A struct names the structs that it extends, and linking turns the names into types.  Only when
all of them are known is the relation turned around: a struct lists the types that extend it,
each of them once, however often and under whatever names it was named.
-/
import VulkanRegistry.Proofs.TypeTable.Link

namespace VulkanRegistry.TypeTable

/-! ### The relation turned around -/

theorem mem_extendersOf_iff {table : TypeTable} {base id : TypeId} :
    id ∈ table.extendersOf base ↔
      ∃ layout, table.struct? id = some layout ∧ base ∈ layout.bases := by
  unfold extendersOf
  constructor
  · intro h
    obtain ⟨⟨found, entry⟩, hmem, rfl⟩ := List.mem_map.mp h
    obtain ⟨hindexed, hextends⟩ := List.mem_filter.mp hmem
    simp only [extendsStruct, Option.any_eq_true, List.contains_iff_mem] at hextends
    obtain ⟨layout, hlayout, hbase⟩ := hextends
    exact ⟨layout, struct?_eq_some_iff.mpr ⟨entry, mem_indexed.mp hindexed, hlayout⟩, hbase⟩
  · intro h
    obtain ⟨layout, hstruct, hbase⟩ := h
    obtain ⟨entry, hentry, hlayout⟩ := struct?_eq_some_iff.mp hstruct
    refine List.mem_map.mpr ⟨(id, entry), List.mem_filter.mpr ⟨mem_indexed.mpr hentry, ?_⟩, rfl⟩
    simp [extendsStruct, hlayout, hbase]

/-- A struct lists what extends it once. -/
theorem nodup_extendersOf (table : TypeTable) (base : TypeId) :
    (table.extendersOf base).Nodup := by
  have hsublist : (table.extendersOf base).Sublist (table.indexed.map Prod.fst) :=
    List.filter_sublist.map Prod.fst
  rw [map_fst_indexed] at hsublist
  refine (table.pairwise_ids.imp ?_).sublist hsublist
  intro a b hlt heq
  rw [heq] at hlt
  omega

theorem struct?_linkExtenders (table : TypeTable) (id : TypeId) :
    table.linkExtenders.struct? id = (table.struct? id).map fun layout =>
      { layout with extenders := table.extendersOf id } := by
  rw [struct?, struct?, kind?, kind?, get?_linkExtenders]
  cases table.get? id with
  | none => rfl
  | some entry => simp

/-- Turning the relation around does not change it. -/
theorem mem_extendersOf_linkExtenders {table : TypeTable} {base id : TypeId} :
    id ∈ table.linkExtenders.extendersOf base ↔ id ∈ table.extendersOf base := by
  rw [mem_extendersOf_iff, mem_extendersOf_iff, struct?_linkExtenders]
  simp

/-! ### Linked tables -/

/-- What a struct extends is what the names stand for that it says it extends. -/
theorem structOf_of_kindOf {table : TypeTable} {blocks : List EnumBlock} {decl : TypeDecl}
    {kind : TypeKind} (h : table.kindOf blocks decl = .ok kind) {layout : StructLayout}
    (hlayout : kind.structLayout? = some layout) : table.structOf decl = .ok layout := by
  unfold kindOf at h
  split at h
  · obtain ⟨found, hfound, rfl⟩ := Outcome.map_eq_ok.mp h
    rwa [← Option.some.inj hlayout]
  · obtain ⟨found, hfound, rfl⟩ := Outcome.map_eq_ok.mp h
    rwa [← Option.some.inj hlayout]
  · obtain ⟨_, -, h⟩ := Outcome.bind_eq_ok.mp h
    rw [← Except.ok.inj h] at hlayout
    simp [TypeKind.structLayout?] at hlayout
  · rw [← Except.ok.inj h] at hlayout
    simp [TypeKind.structLayout?] at hlayout
  · obtain ⟨_, -, h⟩ := Outcome.bind_eq_ok.mp h
    obtain ⟨_, -, h⟩ := Outcome.bind_eq_ok.mp h
    rw [← Except.ok.inj h] at hlayout
    simp [TypeKind.structLayout?] at hlayout
  · rw [← Except.ok.inj h] at hlayout
    simp [TypeKind.structLayout?] at hlayout
  · obtain ⟨_, -, rfl⟩ := Outcome.map_eq_ok.mp h
    simp [TypeKind.structLayout?] at hlayout
  · rw [← Except.ok.inj h] at hlayout
    simp [TypeKind.structLayout?] at hlayout

/-- What is linked to a struct has a declaration that is that of a struct. -/
theorem structOf_of_linkKind {registered aliased : TypeTable} {blocks : List EnumBlock}
    (haliased : Aliased registered aliased) {entry linked : TypeEntry}
    (hentry : entry ∈ aliased.entries) (h : aliased.linkKind blocks entry = .ok linked)
    {layout : StructLayout} (hlayout : linked.kind.structLayout? = some layout) :
    ∃ decl, linked.decl = some decl ∧ aliased.structOf decl = .ok layout := by
  have hplain : entry.kind.structLayout? = none := by
    rcases haliased.plain entry hentry with hbase | ⟨target, htarget, -⟩
    · rw [hbase]
      rfl
    · rw [htarget]
      rfl
  unfold linkKind at h
  split at h
  · rw [← Except.ok.inj h, hplain] at hlayout
    simp at hlayout
  · next decl hdecl =>
      split at h
      · rw [← Except.ok.inj h, hplain] at hlayout
        simp at hlayout
      · obtain ⟨kind, hkind, h⟩ := Outcome.bind_eq_ok.mp h
        rw [Outcome.pure_eq_ok] at h
        rw [← h] at hlayout ⊢
        exact ⟨decl, hdecl, structOf_of_kindOf hkind hlayout⟩

section Linked

variable {decls : List TypeDecl} {blocks : List EnumBlock} {linked : TypeTable}

/-- A struct of a linked table extends what the names of its declaration stand for. -/
theorem exists_bases_of_linked (h : (initial.registerAll decls).linked blocks = .ok linked)
    {id : TypeId} {entry : TypeEntry} (hentry : linked.get? id = some entry)
    {layout : StructLayout} (hlayout : entry.kind.structLayout? = some layout) :
    ∃ decl, entry.decl = some decl ∧
      decl.structExtends.mapM (fun name => linked.resolve name decl.name) = .ok layout.bases := by
  obtain ⟨aliases, kinds, haliases, hkinds, rfl⟩ := linked_eq_ok h
  have haliased := aliased_of_mapM (registered_registerBlocks decls blocks) haliases
  have houtline : (linkExtenders ⟨kinds⟩).outline = (⟨aliases⟩ : TypeTable).outline := by
    rw [outline_linkExtenders, outline_of_linkKinds haliased hkinds]
  obtain ⟨aliased, made, hmem, hlink, rfl⟩ := exists_linkKind hkinds hentry
  rw [TypeKind.structLayout?_mapStruct] at hlayout
  obtain ⟨before, hbefore, rfl⟩ := Option.map_eq_some_iff.mp hlayout
  obtain ⟨decl, hdecl, hstruct⟩ := structOf_of_linkKind haliased hmem hlink hbefore
  obtain ⟨bases, hbases, hstruct⟩ := Outcome.bind_eq_ok.mp hstruct
  rw [Outcome.pure_eq_ok] at hstruct
  refine ⟨decl, hdecl, ?_⟩
  simp only [resolve_eq_of_outline houtline]
  rw [hbases, ← hstruct]

/-- A struct of a linked table lists the structs that extend it, each of them once. -/
theorem extenders_of_linked (h : (initial.registerAll decls).linked blocks = .ok linked)
    {id : TypeId} {layout : StructLayout} (hlayout : linked.struct? id = some layout) :
    layout.extenders.Nodup ∧
      ∀ extender, extender ∈ layout.extenders ↔
        ∃ other, linked.struct? extender = some other ∧ id ∈ other.bases := by
  obtain ⟨aliases, kinds, -, -, rfl⟩ := linked_eq_ok h
  rw [struct?_linkExtenders] at hlayout
  obtain ⟨before, -, rfl⟩ := Option.map_eq_some_iff.mp hlayout
  refine ⟨nodup_extendersOf _ _, fun extender => ?_⟩
  rw [← mem_extendersOf_iff, mem_extendersOf_linkExtenders]

end Linked

end VulkanRegistry.TypeTable
