/-
No reference of a finished registry leads astray.

A linked table refers to types that are no aliases, and a closure makes active whatever an
active entity mentions; between them they cover every id that an active type or a command of
the registry holds.  What a struct only lists, the structs it extends and those that extend
it, is not mentioned by it and need not be in use, which is why those lists are filtered.
-/
import VulkanRegistry.Proofs.Registry.Fill

namespace VulkanRegistry.Registry

/-- The id leads to a type that is in use and no alias. -/
def Usable (r : Registry) (id : TypeId) : Prop :=
  ∃ entry, r.types.get? id = some entry ∧ entry.kind.isAlias = false ∧ r.isActive id = true

/-- What consumers of a registry for a document rely on: whatever its active types and its
commands refer to is usable, names of active types resolve to usable types, and members and
parameters are those that the document declares for the interface. -/
structure Resolved (r : Registry) (doc : Document) (options : RegistryOptions) : Prop where
  refs : ∀ id entry, r.types.get? id = some entry → r.isActive id = true →
    ∀ ref ∈ entry.kind.refs, r.Usable ref
  names : ∀ id entry, r.types.get? id = some entry → r.isActive id = true →
    ∃ target, r.resolve entry.name = .ok target ∧ r.Usable target
  members : ∀ id entry layout, r.types.get? id = some entry → r.isActive id = true →
    entry.kind.structLayout? = some layout →
      ∃ decl, (doc.types.filter (options.acceptsApi ·.api)).find? (·.name == entry.name) =
          some decl ∧
        layout.members.map (·.name) =
          (decl.members.filter (options.acceptsApi ·.api)).map (·.name)
  commands : ∀ command ∈ r.commands.commands,
    r.Usable command.returnType ∧ ∀ param ∈ command.params, r.Usable param.base
  params : ∀ command ∈ r.commands.commands,
    ∃ decl, (doc.commands.filter (options.acceptsApi ·.api)).find? (·.name == command.name) =
        some decl ∧
      command.params.map (·.name) =
        (decl.params.filter (options.acceptsApi ·.api)).map (·.name)

namespace Steps

variable {doc : Document} {options : RegistryOptions} (s : Steps doc options)

/-! ### What is in use -/

theorem lookup?_stringName : s.linked.lookup? TypeTable.stringName = some ⟨0⟩ :=
  TypeTable.lookup?_eq_of_nodup s.linked_spec.nodup s.linked_spec.string

theorem isActive_iff {id : TypeId} :
    s.isActive id = true ↔ (s.set.typeAt id).isActive = true ∨ id = ⟨0⟩ := by
  unfold isActive
  rw [lookup?_stringName, Bool.or_eq_true, beq_iff_eq, Option.some.injEq, eq_comm (a := id)]

/-- A type of the linked table that is no alias and in use is usable in the registry. -/
theorem usable {id : TypeId} (hproper : s.linked.Proper id) (hactive : s.isActive id = true) :
    s.registry.Usable id := by
  obtain ⟨entry, hentry, halias⟩ := TypeTable.proper_of_outline s.outline_types hproper
  refine ⟨entry, hentry, halias, ?_⟩
  rw [registry_isActive s (TypeTable.index_lt_size hentry)]
  exact hactive

/-- What an active type mentions is active. -/
theorem isActive_of_mentions {e : Entity} (hactive : (s.set.record e).isActive = true) {m : Mention}
    (hm : Mentions s.linked (EntityIndex.ofDocument doc) e m) {id : TypeId}
    (hmeans : m.entity? s.linked (EntityIndex.ofDocument doc) = some (.type id)) :
    (s.set.typeAt id).isActive = true := by
  obtain ⟨b, hb, -, hpassed⟩ := s.closed e hactive m hm
  rw [hmeans, Option.some.injEq] at hb
  obtain ⟨o, ho⟩ := Activation.isActive_iff.mp hactive
  rw [← hb] at hpassed
  exact Activation.isActive_iff.mpr ⟨o, hpassed o ho⟩

/-- An alias leads to what it stands for. -/
theorem reaches_canonical {id : TypeId} (hlt : id.index < s.linked.size) :
    Reaches s.linked (EntityIndex.ofDocument doc) (.type id) (.type (s.linked.canonical id)) := by
  obtain ⟨entry, hentry⟩ := TypeTable.exists_get? hlt
  rcases TypeTable.canonical_of_get? hentry with hkind | ⟨-, hsame⟩
  · obtain ⟨target, htarget, -⟩ := s.linked_spec.ends id entry _ hentry hkind
    exact .single ⟨_, .target hentry hkind, by simp [Mention.entity?, htarget]⟩
  · rw [hsame]

/-- With an alias, what it stands for is active. -/
theorem isActive_canonical {id : TypeId} (hlt : id.index < s.linked.size)
    (hactive : (s.set.typeAt id).isActive = true) :
    (s.set.typeAt (s.linked.canonical id)).isActive = true := by
  obtain ⟨o, ho⟩ := Activation.isActive_iff.mp hactive
  exact Activation.isActive_iff.mpr
    ⟨o, s.closed.mem_origins_of_reaches (a := .type id) (s.reaches_canonical hlt) ho⟩

/-- What a name that an active entity mentions resolves to is usable. -/
theorem usable_of_resolve {e : Entity} (hactive : (s.set.record e).isActive = true)
    {name referrer : String} {id : TypeId}
    (hname : name = TypeTable.stringName ∨
      Mentions s.linked (EntityIndex.ofDocument doc) e (.typeNamed name))
    (h : s.linked.resolve name referrer = .ok id) : s.registry.Usable id := by
  refine s.usable (TypeTable.proper_of_resolve s.linked_spec.ends h) ?_
  obtain ⟨found, hfound, rfl⟩ := Option.map_eq_some_iff.mp (TypeTable.resolve_eq_ok.mp h)
  rw [isActive_iff]
  rcases hname with rfl | hm
  · rw [lookup?_stringName, Option.some.injEq] at hfound
    rw [← hfound]
    exact Or.inr (TypeTable.Proper.canonical_eq ⟨_, s.linked_spec.string, rfl⟩)
  · have hmeans : (Mention.typeNamed name).entity? s.linked (EntityIndex.ofDocument doc) =
        some (.type found) := by simp [Mention.entity?, hfound]
    exact Or.inl (s.isActive_canonical (TypeTable.lt_size_of_lookup? hfound)
      (s.isActive_of_mentions hactive hm hmeans))

/-! ### Types in use -/

/-- A struct in use has the members of its declaration, and of what it lists what is in use. -/
theorem exists_struct {id : TypeId} {entry : TypeEntry} (hentry : s.types.get? id = some entry)
    (hactive : s.isActive id = true) {layout : StructLayout}
    (hlayout : entry.kind.structLayout? = some layout) :
    ∃ linked before decl, s.linked.get? id = some linked ∧ linked.name = entry.name ∧
      linked.kind.structLayout? = some before ∧ linked.decl = some decl ∧
      doc.types.find? (·.name == entry.name) = some decl ∧
      layout.bases = before.bases.filter s.isActive ∧
      layout.extenders = before.extenders.filter s.isActive ∧
      Member.ofFields ⟨linked.name, .member, decl.members, s.linked, s.applied.constants⟩
        decl.members = .ok layout.members := by
  obtain ⟨declared, linked, filled, -, hlinked, -, hfillStruct, hfillEnum⟩ := s.exists_stages hentry
  have hname : linked.name = entry.name := by
    have houtline := (outline_of_fillEnum hfillEnum).trans (outline_of_fillStruct hfillStruct)
    simp only [TypeEntry.outline, Prod.mk.injEq] at houtline
    exact houtline.1.symm
  have hfilled : filled.kind.structLayout? = some layout := by
    rcases fillEnum_eq_ok hfillEnum with ⟨rfl, -⟩ | ⟨values, -, -, rfl⟩
    · exact hlayout
    · simpa using hlayout
  rcases fillStruct_eq_ok hfillStruct with
    ⟨rfl, hleft⟩ | ⟨decl, members, hdecl, -, -, hmembers, rfl⟩
  · -- A struct in use is never left alone: it has a declaration.
    obtain ⟨-, decl, hdecl, -⟩ := s.linked_spec.layout id filled hlinked layout hfilled
    rcases hleft hactive with hnone | hnone
    · simp [hfilled] at hnone
    · simp [hdecl] at hnone
  · rw [TypeKind.structLayout?_mapStruct] at hfilled
    obtain ⟨before, hbefore, rfl⟩ := Option.map_eq_some_iff.mp hfilled
    obtain ⟨-, found, hfound, hfind⟩ := s.linked_spec.layout id linked hlinked before hbefore
    rw [hdecl, Option.some.injEq] at hfound
    rw [← hfound, hname] at hfind
    exact ⟨linked, before, decl, hlinked, hname, hbefore, hdecl, hfind, rfl, rfl, hmembers⟩

/-- What is no struct keeps the ids of the linked table. -/
theorem exists_refs {id : TypeId} {entry : TypeEntry} (hentry : s.types.get? id = some entry)
    (hlayout : entry.kind.structLayout? = none) :
    ∃ linked, s.linked.get? id = some linked ∧ linked.kind.structLayout? = none ∧
      linked.kind.refs = entry.kind.refs := by
  obtain ⟨declared, linked, filled, -, hlinked, -, hfillStruct, hfillEnum⟩ := s.exists_stages hentry
  have hfilled : filled.kind.structLayout? = none ∧ filled.kind.refs = entry.kind.refs := by
    rcases fillEnum_eq_ok hfillEnum with ⟨rfl, -⟩ | ⟨values, -, -, rfl⟩
    · exact ⟨hlayout, rfl⟩
    · simpa using hlayout
  rcases fillStruct_eq_ok hfillStruct with ⟨rfl, -⟩ | ⟨decl, members, -, -, hsome, -, rfl⟩
  · exact ⟨filled, hlinked, hfilled⟩
  · rw [TypeKind.structLayout?_mapStruct, Option.map_eq_none_iff] at hfilled
    simp [hfilled.1] at hsome

/-- Only the built-in type is in use without directives, and it refers to nothing. -/
theorem isActive_typeAt {id : TypeId} {entry : TypeEntry} (hentry : s.types.get? id = some entry)
    (hactive : s.isActive id = true) {ref : TypeId} (href : ref ∈ entry.kind.refs) :
    (s.set.typeAt id).isActive = true := by
  rcases s.isActive_iff.mp hactive with hset | rfl
  · exact hset
  · cases hlayout : entry.kind.structLayout? with
    | none =>
        obtain ⟨linked, hlinked, -, hrefs⟩ := s.exists_refs hentry hlayout
        rw [s.linked_spec.string, Option.some.injEq] at hlinked
        rw [← hrefs, ← hlinked] at href
        simp [TypeKind.refs] at href
    | some layout =>
        obtain ⟨linked, before, decl, hlinked, -, hbefore, -⟩ :=
          s.exists_struct hentry hactive hlayout
        rw [s.linked_spec.string, Option.some.injEq] at hlinked
        rw [← hlinked] at hbefore
        simp [TypeKind.structLayout?] at hbefore

theorem usable_of_mem_refs {id : TypeId} {entry : TypeEntry} (hentry : s.types.get? id = some entry)
    (hactive : s.isActive id = true) {ref : TypeId} (href : ref ∈ entry.kind.refs) :
    s.registry.Usable ref := by
  have hset := s.isActive_typeAt hentry hactive href
  cases hlayout : entry.kind.structLayout? with
  | none =>
      obtain ⟨linked, hlinked, hnone, hrefs⟩ := s.exists_refs hentry hlayout
      rw [← hrefs] at href
      obtain ⟨found, hfound, hproper⟩ := s.linked_spec.refs id linked hlinked ref href
      have hused : (s.set.typeAt ref).isActive = true :=
        s.isActive_of_mentions (e := .type id) hset
          ((mentions_type_iff hlinked).mpr ⟨hnone, href⟩) (by simp [Mention.entity?, hfound])
      exact s.usable ⟨found, hfound, hproper⟩ (s.isActive_iff.mpr (Or.inl hused))
  | some layout =>
      obtain ⟨linked, before, decl, hlinked, hname, hbefore, hdecl, -, hbases, hextenders,
        hmembers⟩ := s.exists_struct hentry hactive hlayout
      have hrefs := s.linked_spec.refs id linked hlinked
      rw [TypeKind.refs_of_structLayout? hbefore] at hrefs
      rw [TypeKind.refs_of_structLayout? hlayout, hbases, hextenders] at href
      simp only [List.mem_append, List.mem_filter] at href hrefs
      rcases href with (⟨hbase, hused⟩ | ⟨hextender, hused⟩) | hmember
      · exact s.usable (hrefs ref (Or.inl (Or.inl hbase))) hused
      · exact s.usable (hrefs ref (Or.inl (Or.inr hextender))) hused
      · obtain ⟨m, hm, rfl⟩ := List.mem_map.mp hmember
        obtain ⟨name, referrer, hname, hresolve⟩ := Member.base_of_mem_ofFields hmembers hm
        refine s.usable_of_resolve (e := .type id) hset ?_ hresolve
        rcases hname with rfl | ⟨field, hfield, rfl⟩
        · exact Or.inl rfl
        · exact Or.inr (.member hlinked (by simp [hbefore]) hdecl hfield)

/-- The name of a type in use resolves to a usable type. -/
theorem resolve_of_isActive {id : TypeId} {entry : TypeEntry}
    (hentry : s.types.get? id = some entry) (hactive : s.isActive id = true) :
    ∃ target, s.registry.resolve entry.name = .ok target ∧ s.registry.Usable target := by
  have hnodup : s.types.names.Nodup := by
    rw [TypeTable.names_eq_of_outline s.outline_types]
    exact s.linked_spec.nodup
  have hlt := TypeTable.index_lt_size hentry
  have htypeId : s.registry.typeId? entry.name = some id := by
    show (s.types.lookup? entry.name).filter s.registry.isActive = some id
    rw [TypeTable.lookup?_eq_of_nodup hnodup hentry]
    simp [registry_isActive s hlt, hactive]
  refine ⟨s.types.canonical id, ?_, ?_⟩
  · unfold resolve
    rw [htypeId]
    rfl
  · rw [TypeTable.size_eq_of_outline s.outline_types] at hlt
    rw [TypeTable.canonical_eq_of_outline s.outline_types]
    refine s.usable (TypeTable.proper_canonical s.linked_spec.ends hlt) (s.isActive_iff.mpr ?_)
    rcases s.isActive_iff.mp hactive with hset | rfl
    · exact Or.inl (s.isActive_canonical hlt hset)
    · exact Or.inr (TypeTable.Proper.canonical_eq ⟨_, s.linked_spec.string, rfl⟩)

/-! ### Commands -/

theorem readFromDecl {command : Command} (h : command ∈ s.commands.commands) :
    ReadFromDecl s.structsFilled s.applied.constants (EntityIndex.ofDocument doc) s.set command :=
  readFromDecl_of_buildCommands s.commands_eq command h

theorem usable_of_mem_commands {command : Command} (h : command ∈ s.commands.commands) :
    s.registry.Usable command.returnType ∧
      ∀ param ∈ command.params, s.registry.Usable param.base := by
  obtain ⟨place, decl, hdecl, hactive, halias, -, hparams, hreturn⟩ := s.readFromDecl h
  refine ⟨?_, ?_⟩
  · rw [TypeTable.resolve_eq_of_outline s.outline_structsFilled] at hreturn
    exact s.usable_of_resolve (e := .command place) hactive (Or.inr (.result hdecl halias)) hreturn
  · intro param hparam
    obtain ⟨name, referrer, hname, hresolve⟩ := Member.base_of_mem_ofFields hparams hparam
    rw [show (FieldContext.mk decl.name .parameter decl.params s.structsFilled
      s.applied.constants).types = s.structsFilled from rfl,
      TypeTable.resolve_eq_of_outline s.outline_structsFilled] at hresolve
    refine s.usable_of_resolve (e := .command place) hactive ?_ hresolve
    rcases hname with rfl | ⟨field, hfield, rfl⟩
    · exact Or.inl rfl
    · exact Or.inr (.parameter hdecl hfield)

/-- A command has the parameters of the first declaration of its name. -/
theorem exists_decl_of_mem_commands {command : Command} (h : command ∈ s.commands.commands) :
    ∃ decl, doc.commands.find? (·.name == command.name) = some decl ∧
      command.params.map (·.name) = decl.params.map (·.name) := by
  obtain ⟨place, decl, hdecl, hactive, -, hname, hparams, -⟩ := s.readFromDecl h
  refine ⟨decl, ?_, Member.names_of_ofFields hparams⟩
  obtain ⟨name, hplace⟩ := s.between.named s.formed hactive
  rw [← EntityIndex.command?_eq_of_decl? hplace hdecl, ← hname] at hplace
  unfold EntityIndex.command? at hplace
  unfold EntityIndex.decl? at hdecl
  rw [List.find?_eq_bind_findIdx?_getElem?]
  show (doc.commands.findIdx? _).bind _ = some decl
  rw [show doc.commands.findIdx? (·.name == command.name) = some place from hplace]
  exact hdecl

end Steps

/-! ### The interface's part of a document -/

theorem find?_types_forApi (doc : Document) (options : RegistryOptions) (name : String) :
    (doc.forApi options).types.find? (·.name == name) =
      ((doc.types.filter (options.acceptsApi ·.api)).find? (·.name == name)).map
        (TypeDecl.forApi options) := by
  rw [Document.forApi, List.find?_map]
  rfl

theorem find?_commands_forApi (doc : Document) (options : RegistryOptions) (name : String) :
    (doc.forApi options).commands.find? (·.name == name) =
      ((doc.commands.filter (options.acceptsApi ·.api)).find? (·.name == name)).map
        (CommandDecl.forApi options) := by
  rw [Document.forApi, List.find?_map]
  rfl

/-- No reference leads astray whatever document the registry is built from. -/
theorem ofDocument_resolved {doc : Document} {options : RegistryOptions} {r : Registry}
    (h : ofDocument (doc.forApi options) options = .ok r) : r.Resolved doc options := by
  obtain ⟨s, rfl⟩ := exists_steps h
  have hactive : ∀ id entry, s.types.get? id = some entry → s.registry.isActive id = true →
      s.isActive id = true := by
    intro id entry hentry hid
    rwa [s.registry_isActive (TypeTable.index_lt_size hentry)] at hid
  refine ⟨?_, ?_, ?_, ?_, ?_⟩
  · intro id entry hentry hid ref href
    exact s.usable_of_mem_refs hentry (hactive id entry hentry hid) href
  · intro id entry hentry hid
    exact s.resolve_of_isActive hentry (hactive id entry hentry hid)
  · intro id entry layout hentry hid hlayout
    obtain ⟨_, _, decl, -, -, -, -, hfind, -, -, hmembers⟩ :=
      s.exists_struct hentry (hactive id entry hentry hid) hlayout
    rw [find?_types_forApi] at hfind
    obtain ⟨declared, hdeclared, rfl⟩ := Option.map_eq_some_iff.mp hfind
    exact ⟨declared, hdeclared, Member.names_of_ofFields hmembers⟩
  · intro command hcommand
    exact s.usable_of_mem_commands hcommand
  · intro command hcommand
    obtain ⟨decl, hfind, hparams⟩ := s.exists_decl_of_mem_commands hcommand
    rw [find?_commands_forApi] at hfind
    obtain ⟨declared, hdeclared, rfl⟩ := Option.map_eq_some_iff.mp hfind
    exact ⟨declared, hdeclared, hparams⟩

/--
**No reference survives a build that leads astray.**  Whatever a build makes of a document
under whatever options, every id that an active type or a command holds leads to a type that
is in use and no alias, the names of active types resolve to such types, and the members of
structs in use and the parameters of commands are those of the document, in order, as far as
they are meant for the interface.
-/
theorem build_resolved {source : String} {options : RegistryOptions} {r : Registry}
    (h : build source options = .ok r) :
    ∃ doc, Document.parse source = .ok doc ∧ r.Resolved doc options := by
  obtain ⟨doc, hdoc, h⟩ := build_eq_ok.mp h
  exact ⟨doc, hdoc, ofDocument_resolved h⟩

/-- A struct that refers to itself and to a typedef, another name for it, and a command. -/
def nodeText : String :=
  "<registry><platforms/>
<types><type name='void'/><type name='uint32_t'/>
<type category='basetype'><type>uint32_t</type> <name>VkFlags</name></type>
<type category='struct' name='VkNode'><member><type>VkNode</type>* <name>next</name></member>
<member api='vulkansc'><type>VkFlags</type> <name>spare</name></member>
<member><type>VkFlags</type> <name>flags</name></member></type>
<type category='struct' name='VkNodeKHR' alias='VkNode'/></types>
<enums name='API Constants'/>
<commands><command><proto><type>void</type> <name>vkTrim</name></proto>
<param><type>VkNodeKHR</type>* <name>node</name></param></command></commands>
<feature name='VK_VERSION_1_0' number='1.0'><require><command name='vkTrim'/></require></feature>
</registry>"

set_option maxRecDepth 20000 in
/-- `nodeText` builds, with `VkNode` in use only because a command and then the alias
mention it, so `VkNode` is usable and the alias resolves to it. -/
theorem resolved_nodeText :
    ∃ r doc, build nodeText .everything = .ok r ∧ Document.parse nodeText = .ok doc ∧
      r.Resolved doc .everything ∧ r.commands.commands.map (·.name) = ["vkTrim"] ∧
      (r.activeTypes.map fun indexed => indexed.2.name) =
        ["string", "void", "uint32_t", "VkFlags", "VkNode", "VkNodeKHR"] := by
  have hbuild : build nodeText .everything = _ := build_ofList _ .everything
  have hany : (build nodeText .everything).toOption.any (fun r =>
      r.commands.commands.map (·.name) == ["vkTrim"] &&
        (r.activeTypes.map fun indexed => indexed.2.name) ==
          ["string", "void", "uint32_t", "VkFlags", "VkNode", "VkNodeKHR"]) = true := by
    rw [hbuild]
    decide +kernel
  obtain ⟨r, hr, hnames⟩ := Outcome.exists_ok_of_any hany
  rw [Bool.and_eq_true, beq_iff_eq, beq_iff_eq] at hnames
  obtain ⟨doc, hdoc, hresolved⟩ := build_resolved hr
  exact ⟨r, doc, hr, hdoc, hresolved, hnames.1, hnames.2⟩

end VulkanRegistry.Registry
