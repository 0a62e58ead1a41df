/-
Chains hold what is declared to extend.

A document says of a struct which others it extends, by any of their names.  The registry keeps
this in two places, with the struct that extends and with the one that is extended, and both are
cut down to what is in use when members are read.  They are cut by the same measure, so between
two structs in use they still say the same (`LinksChains`), and so does the table of chains,
which leads from a tag to its first struct and asks then whether the chain may carry it.
-/
import VulkanRegistry.Proofs.Chain
import VulkanRegistry.Proofs.Registry.References
import VulkanRegistry.Proofs.TypeTable.Extenders

namespace VulkanRegistry

/-- One of the names of what the declaration extends stands for the type. -/
def TypeDecl.ExtendsIn (decl : TypeDecl) (types : TypeTable) (base : TypeId) : Prop :=
  ∃ name ∈ decl.structExtends, types.resolve name decl.name = .ok base

namespace Registry

/-- The struct or union is in use, with this layout. -/
def StructInUse (r : Registry) (id : TypeId) (layout : StructLayout) : Prop :=
  ChainTable.InUse r.types r.isActive id layout

/-- The document declares, for the interface, that the struct extends the type. -/
def DeclaresExtension (r : Registry) (doc : Document) (options : RegistryOptions)
    (struct base : TypeId) : Prop :=
  ∃ decl, (doc.types.filter (options.acceptsApi ·.api)).find? (·.name == r.types.nameOf struct) =
      some decl ∧ decl.ExtendsIn r.types base

/-- Of the structs in use, in the order of their declaration, it is the first one with the tag. -/
def FirstTagged (r : Registry) (tag : String) (struct : TypeId) : Prop :=
  (∃ layout, r.StructInUse struct layout ∧ ChainTable.HasTag layout tag) ∧
    ∀ other layout, r.StructInUse other layout → ChainTable.HasTag layout tag →
      struct.index ≤ other.index

/-- Between structs in use, being listed as an extender, listing what is extended and being
declared to extend are one, and the chain of a struct carries what a tag leads to just in case
that is declared to extend it. -/
structure LinksChains (r : Registry) (doc : Document) (options : RegistryOptions) : Prop where
  extenders : ∀ base struct baseLayout layout, r.StructInUse base baseLayout →
    r.StructInUse struct layout → (struct ∈ baseLayout.extenders ↔ base ∈ layout.bases)
  bases : ∀ base struct baseLayout layout, r.StructInUse base baseLayout →
    r.StructInUse struct layout → (base ∈ layout.bases ↔ r.DeclaresExtension doc options struct base)
  once : ∀ base baseLayout, r.StructInUse base baseLayout → baseLayout.extenders.Nodup
  downcast : ∀ base baseLayout, r.StructInUse base baseLayout → ∀ tag struct,
    r.chain.downcast? base tag = some struct ↔
      r.FirstTagged tag struct ∧ r.DeclaresExtension doc options struct base

namespace Steps

variable {doc : Document} {options : RegistryOptions} (s : Steps doc options)

theorem structInUse_iff {id : TypeId} {layout : StructLayout} :
    s.registry.StructInUse id layout ↔ ChainTable.InUse s.types s.isActive id layout := by
  unfold StructInUse ChainTable.InUse
  refine and_congr_left fun hstruct => ?_
  obtain ⟨entry, hentry, -⟩ := TypeTable.struct?_eq_some_iff.mp hstruct
  rw [s.registry_isActive (TypeTable.index_lt_size hentry)]

/-- A struct in use keeps, of what it extends and of what extends it, what is in use. -/
theorem exists_linked_struct {id : TypeId} {layout : StructLayout}
    (h : s.registry.StructInUse id layout) :
    ∃ before decl, s.linked.struct? id = some before ∧
      doc.types.find? (·.name == s.types.nameOf id) = some decl ∧
      layout.bases = before.bases.filter s.isActive ∧
      layout.extenders = before.extenders.filter s.isActive ∧
      ∀ base, base ∈ before.bases ↔ decl.ExtendsIn s.types base := by
  obtain ⟨hactive, hstruct⟩ := s.structInUse_iff.mp h
  obtain ⟨entry, hentry, hlayout⟩ := TypeTable.struct?_eq_some_iff.mp hstruct
  obtain ⟨linked, before, decl, hlinked, -, hbefore, hdecl, hfind, hbases, hextenders, -⟩ :=
    s.exists_struct hentry hactive hlayout
  have hname : s.types.nameOf id = entry.name := by simp [TypeTable.nameOf, hentry]
  refine ⟨before, decl, TypeTable.struct?_eq_some_iff.mpr ⟨linked, hlinked, hbefore⟩, ?_, hbases,
    hextenders, fun base => ?_⟩
  · rw [hname, hfind]
  · obtain ⟨found, hfound, hread⟩ := TypeTable.exists_bases_of_linked s.linked_eq hlinked hbefore
    rw [hdecl, Option.some.injEq] at hfound
    rw [← hfound] at hread
    unfold TypeDecl.ExtendsIn
    simp only [TypeTable.resolve_eq_of_outline s.outline_types]
    constructor
    · intro hbase
      exact Outcome.exists_of_mem_mapM hread hbase
    · intro h
      obtain ⟨name, hname, hresolve⟩ := h
      obtain ⟨base', hbase, hresolve'⟩ := Outcome.exists_mem_of_mapM hread hname
      rw [hresolve, Except.ok.injEq] at hresolve'
      rw [hresolve']
      exact hbase

/-- What extends a struct in use, and is in use itself, is what it lists. -/
theorem mem_extenders_iff {base struct : TypeId} {baseLayout layout : StructLayout}
    (hbase : s.registry.StructInUse base baseLayout)
    (hstruct : s.registry.StructInUse struct layout) :
    struct ∈ baseLayout.extenders ↔ base ∈ layout.bases := by
  obtain ⟨linkedBase, -, hlinkedBase, -, -, hextenders, -⟩ := s.exists_linked_struct hbase
  obtain ⟨linked, -, hlinked, -, hbases, -, -⟩ := s.exists_linked_struct hstruct
  have hactiveBase := (s.structInUse_iff.mp hbase).1
  have hactive := (s.structInUse_iff.mp hstruct).1
  rw [hextenders, hbases, List.mem_filter, List.mem_filter,
    (TypeTable.extenders_of_linked s.linked_eq hlinkedBase).2, hlinked]
  simp [hactive, hactiveBase]

theorem nodup_extenders {base : TypeId} {baseLayout : StructLayout}
    (hbase : s.registry.StructInUse base baseLayout) : baseLayout.extenders.Nodup := by
  obtain ⟨linkedBase, -, hlinkedBase, -, -, hextenders, -⟩ := s.exists_linked_struct hbase
  rw [hextenders]
  exact (TypeTable.extenders_of_linked s.linked_eq hlinkedBase).1.filter _

/-- A tag leads from the slot of a struct to its first struct, if that extends the owner. -/
theorem downcast?_eq_some_iff {base : TypeId} {baseLayout : StructLayout}
    (hbase : s.registry.StructInUse base baseLayout) {tag : String} {struct : TypeId} :
    s.registry.chain.downcast? base tag = some struct ↔
      s.registry.FirstTagged tag struct ∧ struct ∈ baseLayout.extenders := by
  have hextenders : s.registry.chain.extenders base = baseLayout.extenders :=
    ChainTable.extenders_ofTypes (s.structInUse_iff.mp hbase)
  have hfirst : s.registry.chain.structFor? tag = some struct ↔
      s.registry.FirstTagged tag struct := by
    simp only [FirstTagged, s.structInUse_iff]
    exact ChainTable.structFor?_ofTypes_eq_some_iff
  rw [ChainTable.downcast?, Option.filter_eq_some_iff, hfirst, hextenders, List.contains_iff_mem]

end Steps

/-- What a declaration extends does not depend on the interface. -/
theorem declaresExtension_iff {r : Registry} {doc : Document} {options : RegistryOptions}
    {struct base : TypeId} :
    r.DeclaresExtension doc options struct base ↔
      ∃ decl, (doc.forApi options).types.find? (·.name == r.types.nameOf struct) = some decl ∧
        decl.ExtendsIn r.types base := by
  rw [find?_types_forApi]
  simp only [Option.map_eq_some_iff, DeclaresExtension, exists_exists_and_eq_and]
  rfl

/-- The chains of a registry that is built from a document hold what the document declares for the
interface. -/
theorem ofDocument_linksChains {doc : Document} {options : RegistryOptions} {r : Registry}
    (h : ofDocument (doc.forApi options) options = .ok r) : r.LinksChains doc options := by
  obtain ⟨s, rfl⟩ := exists_steps h
  have hbases : ∀ base struct layout, s.isActive base = true →
      s.registry.StructInUse struct layout →
        (base ∈ layout.bases ↔ s.registry.DeclaresExtension doc options struct base) := by
    intro base struct layout hactive hstruct
    obtain ⟨before, decl, -, hfind, hkept, -, hdeclared⟩ := s.exists_linked_struct hstruct
    have hfind' : (doc.forApi options).types.find? (·.name == s.registry.types.nameOf struct) =
        some decl := hfind
    rw [declaresExtension_iff, hkept, List.mem_filter, hdeclared, hfind']
    simp only [hactive, and_true, Option.some.injEq, exists_eq_left']
    rfl
  refine ⟨?_, ?_, ?_, ?_⟩
  · intro base struct baseLayout layout hbase hstruct
    exact s.mem_extenders_iff hbase hstruct
  · intro base struct baseLayout layout hbase hstruct
    exact hbases base struct layout (s.structInUse_iff.mp hbase).1 hstruct
  · intro base baseLayout hbase
    exact s.nodup_extenders hbase
  · intro base baseLayout hbase tag struct
    rw [s.downcast?_eq_some_iff hbase]
    refine and_congr_right fun hfirst => ?_
    obtain ⟨layout, hstruct, -⟩ := hfirst.1
    rw [s.mem_extenders_iff hbase hstruct,
      hbases base struct layout (s.structInUse_iff.mp hbase).1 hstruct]

/--
**Chains hold what is declared to extend.**  Whatever a build makes of a document, a struct or
union in use is listed as extending another one, and listed once, exactly when it says itself
that it extends that one, and that is so exactly when one of the names that it is declared to
extend stands for it.  A tag leads from the slot of a struct to the first struct in use with
that tag, if it extends the owner of the slot, and otherwise nowhere.
-/
theorem build_linksChains {source : String} {options : RegistryOptions} {r : Registry}
    (h : build source options = .ok r) :
    ∃ doc, Document.parse source = .ok doc ∧ r.LinksChains doc options := by
  obtain ⟨doc, hdoc, h⟩ := build_eq_ok.mp h
  exact ⟨doc, hdoc, ofDocument_linksChains h⟩

/-- A struct under two names, two structs with one tag that extend it, the first of them by
both names, a third that is not in use, and a struct that extends nothing. -/
def sharedTagText : String :=
  "<registry><platforms/>
<types><type name='void'/><type name='uint32_t'/>
<type category='struct' name='VkBaseKHR' alias='VkBase'/>
<type category='struct' name='VkFirst' structextends='VkBaseKHR,VkBase'>
<member values='TAG_SHARED'><type>uint32_t</type> <name>sType</name></member></type>
<type category='struct' name='VkIdle' structextends='VkBase'>
<member values='TAG_IDLE'><type>uint32_t</type> <name>sType</name></member></type>
<type category='struct' name='VkSecond' structextends='VkBaseKHR'>
<member values='TAG_SHARED'><type>uint32_t</type> <name>sType</name></member></type>
<type category='struct' name='VkBase'>
<member values='TAG_BASE'><type>uint32_t</type> <name>sType</name></member>
<member><type>void</type>* <name>pNext</name></member></type></types>
<enums name='API Constants'/><commands/>
<feature name='VK_VERSION_1_0' number='1.0'><require><type name='VkBase'/>
<type name='VkFirst'/><type name='VkSecond'/></require></feature></registry>"

set_option maxRecDepth 20000 in
/-- `sharedTagText` builds.  The slot of `VkBase` carries `VkFirst` and `VkSecond`, its tag
leads to the first, and neither the tag of `VkIdle` nor its own leads anywhere. -/
theorem linksChains_sharedTagText :
    ∃ r doc, build sharedTagText .everything = .ok r ∧ Document.parse sharedTagText = .ok doc ∧
      r.LinksChains doc .everything ∧
      (r.chain.extenders ⟨7⟩).map r.types.nameOf = ["VkFirst", "VkSecond"] ∧
      (r.chain.downcast? ⟨7⟩ "TAG_SHARED").map r.types.nameOf = some "VkFirst" ∧
      r.chain.downcast? ⟨7⟩ "TAG_IDLE" = none ∧ r.chain.downcast? ⟨7⟩ "TAG_BASE" = none := by
  have hbuild : build sharedTagText .everything = _ := build_ofList _ .everything
  have hany : (build sharedTagText .everything).toOption.any (fun r =>
      (r.chain.extenders ⟨7⟩).map r.types.nameOf == ["VkFirst", "VkSecond"] &&
        (r.chain.downcast? ⟨7⟩ "TAG_SHARED").map r.types.nameOf == some "VkFirst" &&
        (r.chain.downcast? ⟨7⟩ "TAG_IDLE").isNone &&
        (r.chain.downcast? ⟨7⟩ "TAG_BASE").isNone) = true := by
    rw [hbuild]
    decide +kernel
  obtain ⟨r, hr, hchecks⟩ := Outcome.exists_ok_of_any hany
  simp only [Bool.and_eq_true, beq_iff_eq, Option.isNone_iff_eq_none] at hchecks
  obtain ⟨⟨⟨hextenders, hshared⟩, hidle⟩, hown⟩ := hchecks
  obtain ⟨doc, hdoc, hlinks⟩ := build_linksChains hr
  exact ⟨r, doc, hr, hdoc, hlinks, hextenders, hshared, hidle, hown⟩

end Registry

end VulkanRegistry
