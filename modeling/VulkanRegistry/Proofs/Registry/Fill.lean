/-
What filling adds to the types and commands in use.

A member is read from a field: it keeps the field's name, and its base is what the type of
the field stands for, or the built-in type of text.  Structs in use get their members,
enumerations in use their values and commands their parameters this way; every other entry
stays, and so does the outline of the table.
-/
import VulkanRegistry.Proofs.Enumeration.Declarations
import VulkanRegistry.Proofs.Registry.Steps

namespace VulkanRegistry

/-! ### Members -/

namespace Member

theorem ofField_eq_ok {ctx : FieldContext} {field : FieldDecl} {m : Member}
    (h : ofField ctx field = .ok m) :
    m.name = field.name ∧ ∃ name referrer,
      (name = TypeTable.stringName ∨ name = field.typeName) ∧
        ctx.types.resolve name referrer = .ok m.base := by
  obtain ⟨declarator, -, h⟩ := Outcome.bind_eq_ok.mp h
  obtain ⟨arrays, -, h⟩ := Outcome.bind_eq_ok.mp h
  obtain ⟨⟨stars, isText⟩, -, h⟩ := Outcome.bind_eq_ok.mp h
  obtain ⟨base, hbase, h⟩ := Outcome.bind_eq_ok.mp h
  rw [Outcome.pure_eq_ok] at h
  rw [← h]
  refine ⟨rfl, _, _, ?_, hbase⟩
  cases isText with
  | true => exact Or.inl rfl
  | false => exact Or.inr rfl

/-- Members correspond to fields one to one, in order and by name. -/
theorem names_of_ofFields {ctx : FieldContext} {fields : List FieldDecl} {members : List Member}
    (h : ofFields ctx fields = .ok members) :
    members.map (·.name) = fields.map (·.name) :=
  Outcome.map_eq_of_mapM (fun _ _ _ hfield => (ofField_eq_ok hfield).1) h

/-- The base of every member is what a field's type stands for, or text. -/
theorem base_of_mem_ofFields {ctx : FieldContext} {fields : List FieldDecl} {members : List Member}
    (h : ofFields ctx fields = .ok members) {m : Member} (hm : m ∈ members) :
    ∃ name referrer, (name = TypeTable.stringName ∨ ∃ field ∈ fields, name = field.typeName) ∧
      ctx.types.resolve name referrer = .ok m.base := by
  obtain ⟨field, hfield, hread⟩ := Outcome.exists_of_mem_mapM h hm
  obtain ⟨-, name, referrer, hname, hresolve⟩ := ofField_eq_ok hread
  exact ⟨name, referrer, hname.imp id fun heq => ⟨field, hfield, heq⟩, hresolve⟩

end Member

/-! ### Structs -/

/-- Filling a struct leaves the entry alone or gives it its members. -/
theorem fillStruct_eq_ok {types : TypeTable} {constants : ConstantTable} {isActive : TypeId → Bool}
    {id : TypeId} {entry filled : TypeEntry}
    (h : fillStruct types constants isActive (id, entry) = .ok filled) :
    filled = entry ∧ (isActive id = true → entry.kind.structLayout? = none ∨ entry.decl = none) ∨
      ∃ decl members, entry.decl = some decl ∧ isActive id = true ∧
        entry.kind.structLayout?.isSome = true ∧
        Member.ofFields ⟨entry.name, .member, decl.members, types, constants⟩ decl.members =
          .ok members ∧
        filled = { entry with kind := entry.kind.mapStruct fun layout =>
          { layout with
            members
            bases := layout.bases.filter isActive
            extenders := layout.extenders.filter isActive } } := by
  unfold fillStruct at h
  dsimp only at h
  split at h
  · next hnone =>
      rw [← Except.ok.inj h]
      exact Or.inl ⟨rfl, fun _ => Or.inr hnone⟩
  · next decl hdecl =>
      split at h
      · next hactive =>
          obtain ⟨members, hmembers, h⟩ := Outcome.bind_eq_ok.mp h
          rw [Outcome.pure_eq_ok] at h
          rw [Bool.and_eq_true] at hactive
          exact Or.inr ⟨decl, members, hdecl, hactive.1, hactive.2, hmembers, h.symm⟩
      · next hinactive =>
          rw [← Except.ok.inj h]
          refine Or.inl ⟨rfl, fun hactive => Or.inl ?_⟩
          simpa [hactive] using hinactive

theorem outline_of_fillStruct {types : TypeTable} {constants : ConstantTable}
    {isActive : TypeId → Bool} {id : TypeId} {entry filled : TypeEntry}
    (h : fillStruct types constants isActive (id, entry) = .ok filled) :
    filled.outline = entry.outline := by
  rcases fillStruct_eq_ok h with ⟨rfl, -⟩ | ⟨decl, members, -, -, -, -, rfl⟩
  · rfl
  · simp [TypeEntry.outline]

theorem enumLayout?_of_fillStruct {types : TypeTable} {constants : ConstantTable}
    {isActive : TypeId → Bool} {id : TypeId} {entry filled : TypeEntry}
    (h : fillStruct types constants isActive (id, entry) = .ok filled) :
    filled.kind.enumLayout? = entry.kind.enumLayout? := by
  rcases fillStruct_eq_ok h with ⟨rfl, -⟩ | ⟨decl, members, -, -, -, -, rfl⟩
  · rfl
  · simp

/-! ### Enumerations -/

theorem fillEnum_eq_ok {doc : Document} {set : ActiveSet} {isActive : TypeId → Bool}
    {types : TypeTable} {declared : List DeclaredValue} {id : TypeId} {entry filled : TypeEntry}
    (h : fillEnum doc set isActive types declared (id, entry) = .ok filled) :
    filled = entry ∧ (isActive id = true → entry.kind.enumLayout? = none) ∨
      ∃ values, isActive id = true ∧
        mergedValues doc set (EnumDeclarations.among declared types id) entry.name id =
          .ok values ∧
        filled = { entry with
          kind := entry.kind.mapEnum fun layout => { layout with values } } := by
  unfold fillEnum at h
  dsimp only at h
  split at h
  · next hactive =>
      obtain ⟨values, hvalues, h⟩ := Outcome.bind_eq_ok.mp h
      rw [Outcome.pure_eq_ok] at h
      rw [Bool.and_eq_true] at hactive
      exact Or.inr ⟨values, hactive.1, hvalues, h.symm⟩
  · next hinactive =>
      rw [← Except.ok.inj h]
      refine Or.inl ⟨rfl, ?_⟩
      intro hactive
      simpa [hactive] using hinactive

theorem outline_of_fillEnum {doc : Document} {set : ActiveSet} {isActive : TypeId → Bool}
    {types : TypeTable} {declared : List DeclaredValue} {id : TypeId} {entry filled : TypeEntry}
    (h : fillEnum doc set isActive types declared (id, entry) = .ok filled) :
    filled.outline = entry.outline := by
  rcases fillEnum_eq_ok h with ⟨rfl, -⟩ | ⟨values, -, -, rfl⟩
  · rfl
  · simp [TypeEntry.outline]

/-! ### Commands -/

/-- The command is what an active declaration that is no alias says. -/
def ReadFromDecl (types : TypeTable) (constants : ConstantTable) (index : EntityIndex)
    (set : ActiveSet) (command : Command) : Prop :=
  ∃ place decl, index.decl? place = some decl ∧ (set.commandAt place).isActive = true ∧
    decl.aliasOf = none ∧ command.name = decl.name ∧
    Member.ofFields ⟨decl.name, .parameter, decl.params, types, constants⟩ decl.params =
      .ok command.params ∧
    types.resolve decl.returnType decl.name = .ok command.returnType

theorem EntityIndex.mem_active {index : EntityIndex} {set : ActiveSet} {place : Nat}
    {decl : CommandDecl} : (place, decl) ∈ index.active set ↔
      index.decl? place = some decl ∧ (set.commandAt place).isActive = true := by
  rw [active, List.mem_filter, mem_placed]

namespace CommandTable

theorem mem_insert {table : CommandTable} {command c : Command}
    (h : c ∈ (table.insert command).commands) : c ∈ table.commands ∨ c = command := by
  unfold insert at h
  split at h
  · exact Or.inl h
  · rcases List.mem_append.mp h with h | h
    · exact Or.inl h
    · exact Or.inr (List.mem_singleton.mp h)

/-- Giving a command another name changes nothing else about it. -/
theorem mem_insertAlias {table next : CommandTable} {name target : String}
    (h : table.insertAlias name target = .ok next) {c : Command} (hc : c ∈ next.commands) :
    ∃ old ∈ table.commands, c.name = old.name ∧ c.params = old.params ∧
      c.returnType = old.returnType := by
  unfold insertAlias at h
  split at h
  · simp at h
  · split at h
    · rw [← Except.ok.inj h] at hc
      exact ⟨c, hc, rfl, rfl, rfl⟩
    · rw [← Except.ok.inj h] at hc
      unfold modify at hc
      split at hc
      · rcases ActiveSet.mem_modify hc with hc | ⟨old, hold, rfl⟩
        · exact ⟨c, hc, rfl, rfl, rfl⟩
        · exact ⟨old, hold, rfl, rfl, rfl⟩
      · exact ⟨c, hc, rfl, rfl, rfl⟩

end CommandTable

theorem readFromDecl_of_addCommand {types : TypeTable} {constants : ConstantTable}
    {index : EntityIndex} {set : ActiveSet} {features : List Feature} {table next : CommandTable}
    {placed : Nat × CommandDecl} (hplaced : placed ∈ index.active set)
    (halias : placed.2.aliasOf = none)
    (htable : ∀ c ∈ table.commands, ReadFromDecl types constants index set c)
    (h : addCommand types constants set features table placed = .ok next) :
    ∀ c ∈ next.commands, ReadFromDecl types constants index set c := by
  intro c hc
  obtain ⟨command, hcommand, h⟩ := Outcome.bind_eq_ok.mp h
  rw [Outcome.pure_eq_ok] at h
  rw [← h] at hc
  rcases CommandTable.mem_insert hc with hc | rfl
  · exact htable c hc
  · obtain ⟨params, hparams, hcommand⟩ := Outcome.bind_eq_ok.mp hcommand
    obtain ⟨dispatch, -, hcommand⟩ := Outcome.bind_eq_ok.mp hcommand
    obtain ⟨returnType, hreturn, hcommand⟩ := Outcome.bind_eq_ok.mp hcommand
    rw [Outcome.pure_eq_ok] at hcommand
    rw [← hcommand]
    obtain ⟨hdecl, hactive⟩ := EntityIndex.mem_active.mp hplaced
    exact ⟨placed.1, placed.2, hdecl, hactive, halias, rfl, hparams, hreturn⟩

/-- Every command of the table comes from an active declaration. -/
theorem readFromDecl_of_buildCommands {types : TypeTable} {constants : ConstantTable}
    {index : EntityIndex} {set : ActiveSet} {features : List Feature} {table : CommandTable}
    (h : buildCommands types constants index set features = .ok table) :
    ∀ c ∈ table.commands, ReadFromDecl types constants index set c := by
  obtain ⟨named, hnamed, h⟩ := Outcome.bind_eq_ok.mp h
  have hcommands : ∀ c ∈ named.commands, ReadFromDecl types constants index set c := by
    refine Outcome.foldlM_induction
      (fun t => ∀ c ∈ t.commands, ReadFromDecl types constants index set c)
      ?_ (by simp [CommandTable.empty]) hnamed
    intro placed hplaced t next ht hnext
    obtain ⟨hmem, halias⟩ := List.mem_filter.mp hplaced
    exact readFromDecl_of_addCommand hmem (by simpa using halias) ht hnext
  refine Outcome.foldlM_induction
    (fun t => ∀ c ∈ t.commands, ReadFromDecl types constants index set c)
    ?_ hcommands h
  intro placed _ t next ht hnext c hc
  obtain ⟨old, hold, hname, hparams, hreturn⟩ := CommandTable.mem_insertAlias hnext hc
  unfold ReadFromDecl
  rw [hname, hparams, hreturn]
  exact ht old hold

/-! ### Tables read entry by entry -/

namespace TypeTable

/-- Where every entry keeps its outline, the table does. -/
theorem outline_of_mapM {table : TypeTable} {entries : List TypeEntry}
    {f : TypeId × TypeEntry → Outcome TypeEntry}
    (hkeep : ∀ id entry filled, f (id, entry) = .ok filled → filled.outline = entry.outline)
    (h : table.indexed.mapM f = .ok entries) :
    (⟨entries⟩ : TypeTable).outline = table.outline := by
  have houtlines : entries.map TypeEntry.outline =
      table.indexed.map fun indexed => indexed.2.outline :=
    Outcome.map_eq_of_mapM (fun indexed _ filled hfill => hkeep indexed.1 indexed.2 filled hfill) h
  rw [outline, outline, houtlines, ← map_snd_indexed, List.map_map]
  rfl

/-- Each entry is made of the one at its id. -/
theorem get?_of_mapM {table : TypeTable} {entries : List TypeEntry}
    {f : TypeId × TypeEntry → Outcome TypeEntry} (h : table.indexed.mapM f = .ok entries)
    {id : TypeId} {filled : TypeEntry} (hfilled : (⟨entries⟩ : TypeTable).get? id = some filled) :
    ∃ entry, table.get? id = some entry ∧ f (id, entry) = .ok filled := by
  obtain ⟨indexed, hindexed, hfill⟩ := Outcome.getElem?_of_mapM h hfilled
  rw [getElem?_indexed] at hindexed
  obtain ⟨entry, hentry, rfl⟩ := Option.map_eq_some_iff.mp hindexed
  exact ⟨entry, hentry, hfill⟩

end TypeTable

namespace Registry.Steps

variable {doc : Document} {options : RegistryOptions} (s : Steps doc options)

theorem structsFilled_eq : ∃ entries,
    s.linked.indexed.mapM (fillStruct s.linked s.applied.constants s.isActive) = .ok entries ∧
      s.structsFilled = ⟨entries⟩ := by
  obtain ⟨entries, hentries, h⟩ := Outcome.bind_eq_ok.mp s.structs_eq
  exact ⟨entries, hentries, (Except.ok.inj h).symm⟩

theorem outline_structsFilled : s.structsFilled.outline = s.linked.outline := by
  obtain ⟨entries, hentries, heq⟩ := s.structsFilled_eq
  rw [heq]
  exact TypeTable.outline_of_mapM (fun _ _ _ hfill => outline_of_fillStruct hfill) hentries

theorem types_eq_mapM : ∃ declared entries, doc.declaredValues s.structsFilled = .ok declared ∧
    s.structsFilled.indexed.mapM (fillEnum doc s.set s.isActive s.structsFilled declared) =
      .ok entries ∧ s.types = ⟨entries⟩ := by
  obtain ⟨declared, hdeclared, h⟩ := Outcome.bind_eq_ok.mp s.types_eq
  obtain ⟨entries, hentries, h⟩ := Outcome.bind_eq_ok.mp h
  exact ⟨declared, entries, hdeclared, hentries, (Except.ok.inj h).symm⟩

theorem outline_types : s.types.outline = s.linked.outline := by
  obtain ⟨declared, entries, -, hentries, heq⟩ := s.types_eq_mapM
  rw [heq, ← outline_structsFilled]
  exact TypeTable.outline_of_mapM (fun _ _ _ hfill => outline_of_fillEnum hfill) hentries

/-- How the entry at an id came about: linked, filled as a struct, filled as an enumeration. -/
theorem exists_stages {id : TypeId} {entry : TypeEntry} (h : s.types.get? id = some entry) :
    ∃ declared linked filled, doc.declaredValues s.structsFilled = .ok declared ∧
      s.linked.get? id = some linked ∧ s.structsFilled.get? id = some filled ∧
      fillStruct s.linked s.applied.constants s.isActive (id, linked) = .ok filled ∧
      fillEnum doc s.set s.isActive s.structsFilled declared (id, filled) = .ok entry := by
  obtain ⟨declared, entries, hdeclared, hentries, heq⟩ := s.types_eq_mapM
  rw [heq] at h
  obtain ⟨filled, hfilled, hfillEnum⟩ := TypeTable.get?_of_mapM hentries h
  obtain ⟨structs, hstructs, heq⟩ := s.structsFilled_eq
  have hget := hfilled
  rw [heq] at hget
  obtain ⟨linked, hlinked, hfillStruct⟩ := TypeTable.get?_of_mapM hstructs hget
  exact ⟨declared, linked, filled, hdeclared, hlinked, hfilled, hfillStruct, hfillEnum⟩

/-- The values of an enumeration in use are merged from its block and from what was added. -/
theorem exists_mergedValues {id : TypeId} {layout : EnumLayout}
    (hlayout : s.types.enum? id = some layout) (hactive : s.isActive id = true) :
    ∃ declared, doc.declaredValues s.types = .ok declared ∧
      mergedValues doc s.set (EnumDeclarations.among declared s.types id) (s.types.nameOf id) id =
        .ok layout.values := by
  obtain ⟨kind, hkind, henum⟩ := Option.bind_eq_some_iff.mp hlayout
  obtain ⟨entry, hentry, rfl⟩ := TypeTable.kind?_eq_some.mp hkind
  obtain ⟨declared, linked, filled, hdeclared, -, -, -, hfill⟩ := s.exists_stages hentry
  have hsame : s.types.outline = s.structsFilled.outline :=
    s.outline_types.trans s.outline_structsFilled.symm
  refine ⟨declared, ?_, ?_⟩
  · rw [doc.declaredValues_eq_of_outline hsame, hdeclared]
  have hname : s.types.nameOf id = filled.name := by
    have houtline := outline_of_fillEnum hfill
    simp only [TypeEntry.outline, Prod.mk.injEq] at houtline
    simp [TypeTable.nameOf, hentry, houtline.1]
  rw [EnumDeclarations.among_eq_of_outline hsame, hname]
  rcases fillEnum_eq_ok hfill with ⟨rfl, hnone⟩ | ⟨values, -, hvalues, rfl⟩
  · rw [hnone hactive] at henum
    simp at henum
  · rw [TypeKind.enumLayout?_mapEnum] at henum
    obtain ⟨before, -, rfl⟩ := Option.map_eq_some_iff.mp henum
    exact hvalues

theorem lt_size_of_enum? {id : TypeId} {layout : EnumLayout}
    (h : s.types.enum? id = some layout) : id.index < s.types.size := by
  obtain ⟨kind, hkind, -⟩ := Option.bind_eq_some_iff.mp h
  obtain ⟨entry, hentry, -⟩ := TypeTable.kind?_eq_some.mp hkind
  exact TypeTable.index_lt_size hentry

/-- What is an enumeration in the end is one when types are linked, and the other way round. -/
theorem isSome_enum? (id : TypeId) : (s.types.enum? id).isSome = (s.linked.enum? id).isSome := by
  cases hentry : s.types.get? id with
  | none =>
      have hnone : s.linked.get? id = none := by
        rw [TypeTable.get?_eq_none_iff] at hentry ⊢
        rwa [← TypeTable.size_eq_of_outline s.outline_types]
      simp [TypeTable.enum?, TypeTable.kind?, hentry, hnone]
  | some entry =>
      obtain ⟨declared, linked, filled, -, hlinked, -, hstruct, henum⟩ := s.exists_stages hentry
      have hfilled : entry.kind.enumLayout?.isSome = filled.kind.enumLayout?.isSome := by
        rcases fillEnum_eq_ok henum with ⟨rfl, -⟩ | ⟨values, -, -, rfl⟩
        · rfl
        · simp
      simp [TypeTable.enum?, TypeTable.kind?, hentry, hlinked, hfilled,
        enumLayout?_of_fillStruct hstruct]

/-- An enumeration that is not in use gets no values. -/
theorem values_of_not_isActive {id : TypeId} {layout : EnumLayout}
    (hlayout : s.types.enum? id = some layout) (h : s.isActive id = false) :
    layout.values = [] := by
  obtain ⟨kind, hkind, henum⟩ := Option.bind_eq_some_iff.mp hlayout
  obtain ⟨entry, hentry, rfl⟩ := TypeTable.kind?_eq_some.mp hkind
  obtain ⟨declared, linked, filled, -, hlinked, -, hstruct, hfill⟩ := s.exists_stages hentry
  rcases fillEnum_eq_ok hfill with ⟨rfl, -⟩ | ⟨values, hactive, -, -⟩
  · have hbefore : s.linked.enum? id = some layout := by
      simp [TypeTable.enum?, TypeTable.kind?, hlinked, ← enumLayout?_of_fillStruct hstruct, henum]
    exact TypeTable.values_of_linked s.linked_eq hbefore
  · rw [h] at hactive
    simp at hactive

end Registry.Steps

end VulkanRegistry
