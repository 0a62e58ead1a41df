/-
Which numbers of a finished enumeration have a name that stands for them.

The number of an alias is looked up among all declarations of the document, where the first
one of a name counts, while merging sees only what is in use, where the first contribution of
a name counts.  As long as all declarations of a name say the same, both agree and every
number has one name that stands for it.  Where an extension that is not selected declares a
name with another number, two aliases of that name share a number that no other name has,
and both are left without an alias.
-/
import VulkanRegistry.Proofs.Enumeration.Canonical
import VulkanRegistry.Proofs.Registry.Sources

namespace VulkanRegistry.Registry

namespace Steps

variable {doc : Document} {options : RegistryOptions} (s : Steps doc options)

theorem nodup_names : s.types.names.Nodup := by
  rw [TypeTable.names_eq_of_outline s.outline_types]
  exact s.linked_spec.nodup

theorem exists_declaredValues : ∃ declared, doc.declaredValues s.types = .ok declared := by
  obtain ⟨declared, -, hdeclared, -⟩ := s.types_eq_mapM
  refine ⟨declared, ?_⟩
  rw [← hdeclared]
  exact doc.declaredValues_eq_of_outline (s.outline_types.trans s.outline_structsFilled.symm)

/-- Whatever a directive that is applied adds is declared by the document. -/
theorem mem_declaredValues_of_added {declared : List DeclaredValue}
    (hdeclared : doc.declaredValues s.types = .ok declared) {v : AddedValue}
    (hv : v ∈ s.set.values) : ⟨v.enumeration, v.name, v.spec⟩ ∈ declared := by
  rw [s.between.values] at hv
  obtain ⟨a, ha, d, extended, id, hvalue, hextended, hid, hspec, hadded⟩ :=
    exists_adds_of_mem_values s.applied_eq hv
  obtain ⟨block, hhas, -, -, hd⟩ := s.exists_block_of_application ha
  have hheld : (a.source.number, .value d) ∈ doc.heldDirectives := by
    rw [← hvalue]
    refine Document.mem_heldDirectives.mpr ⟨block, hhas.mono ?_, hd⟩
    intro ext hext
    exact (s.mem_selected.mp hext).1
  rw [← TypeTable.lookup?_eq_of_outline s.outline_types] at hid
  have hmem := Document.mem_declaredValues_of_directive hdeclared hheld hextended hid hspec
  rw [TypeTable.canonical_eq_of_outline s.outline_types] at hmem
  rw [hadded]
  exact hmem

/-- The block of an enumeration declares values of that enumeration. -/
theorem mem_declaredValues_of_blockValue {declared : List DeclaredValue}
    (hdeclared : doc.declaredValues s.types = .ok declared) {id : TypeId} {layout : EnumLayout}
    (hlayout : s.types.enum? id = some layout) {value : ValueDecl}
    (hvalue : value ∈ s.set.blockValues (enumBlock? doc.enums (s.types.nameOf id))) :
    ∃ spec, ValueSpec.ofBlock value = .ok spec ∧ ⟨id, value.name, spec⟩ ∈ declared := by
  obtain ⟨kind, hkind, henum⟩ := Option.bind_eq_some_iff.mp hlayout
  obtain ⟨entry, hentry, rfl⟩ := TypeTable.kind?_eq_some.mp hkind
  have hname : s.types.nameOf id = entry.name := by simp [TypeTable.nameOf, hentry]
  have hcanonical : s.types.canonical id = id := by
    rcases TypeTable.canonical_of_get? hentry with halias | ⟨-, hsame⟩
    · simp [halias, TypeKind.enumLayout?] at henum
    · exact hsame
  cases hblock : enumBlock? doc.enums (s.types.nameOf id) with
  | none => simp [ActiveSet.blockValues, hblock] at hvalue
  | some block =>
      obtain ⟨hmem, hfound⟩ := List.mem_filter.mp (List.mem_of_getLast? hblock)
      simp only [Bool.and_eq_true, beq_iff_eq] at hfound
      simp only [ActiveSet.blockValues, hblock, Option.map_some, Option.getD_some,
        List.mem_filter] at hvalue
      have hlookup : s.types.lookup? block.name = some id := by
        rw [hfound.2, hname]
        exact TypeTable.lookup?_eq_of_nodup s.nodup_names hentry
      obtain ⟨spec, hspec, hdecl⟩ :=
        Document.mem_declaredValues_of_block hdeclared hmem hfound.1 hlookup hvalue.1
      rw [hcanonical] at hdecl
      exact ⟨spec, hspec, hdecl⟩

/-- Contributions follow the declarations where these do not disagree. -/
theorem follows_of_declaredAlike {declared : List DeclaredValue}
    (hdeclared : doc.declaredValues s.types = .ok declared) {id : TypeId} {layout : EnumLayout}
    (hlayout : s.types.enum? id = some layout) {core extension : List Contribution}
    (hparts : contributionsTo doc s.set (EnumDeclarations.among declared s.types id)
      (s.types.nameOf id) id = .ok (core, extension)) {c : Contribution}
    (hc : c ∈ core ++ extension) (halike : DeclaredAlike declared id c.name) :
    c.Follows (EnumDeclarations.among declared s.types id) := by
  rcases exists_value_of_contributionsTo hparts hc with ⟨value, hvalue, hread⟩ |
    ⟨value, hvalue, rfl, hread⟩
  · rw [name_of_blockContribution hread] at halike
    obtain ⟨spec, hspec, hmem⟩ := s.mem_declaredValues_of_blockValue hdeclared hlayout hvalue
    exact EnumDeclarations.follows_of_blockContribution hspec
      (EnumDeclarations.spec?_among_of_mem hmem halike) hread
  · rw [name_of_addedContribution hread] at halike
    have hmem := s.mem_declaredValues_of_added hdeclared hvalue
    exact EnumDeclarations.follows_of_addedContribution
      (EnumDeclarations.spec?_among_of_mem hmem halike) hread

end Steps

/-- Of a document that is filtered already, the values of an enumeration in use are named once if
and only if each number that names share has a name that is no alias of a name in use. -/
theorem ofDocument_namedOnce {doc : Document} {options : RegistryOptions} {r : Registry}
    (h : ofDocument doc options = .ok r) :
    ∃ s : Steps doc options, s.registry = r ∧
      ∃ declared, doc.declaredValues r.types = .ok declared ∧
      ∀ id layout, r.isActive id = true → r.types.enum? id = some layout →
        (∀ v ∈ layout.values, ∀ name, v.aliasOf = some name →
          ∃ w ∈ layout.canonical, w.name = name ∧ w.value = v.value) ∧
        (∃ core extension,
          contributionsTo doc s.set (EnumDeclarations.among declared r.types id)
            (r.types.nameOf id) id = .ok (core, extension) ∧
          (layout.NamedOnce ↔
            Contribution.Represented (Contribution.firstOfEach (core ++ extension)))) ∧
        ((∀ v ∈ layout.values, DeclaredAlike declared id v.name) → layout.NamedOnce) := by
  obtain ⟨s, rfl⟩ := exists_steps h
  obtain ⟨declared, hdeclared⟩ := s.exists_declaredValues
  refine ⟨s, rfl, declared, hdeclared, ?_⟩
  intro id layout hactive hlayout
  rw [s.registry_isActive (s.lt_size_of_enum? hlayout)] at hactive
  obtain ⟨found, hfound, hmerged⟩ := s.exists_mergedValues hlayout hactive
  rw [hdeclared, Except.ok.injEq] at hfound
  rw [← hfound] at hmerged
  obtain ⟨core, extension, hparts, hvalues⟩ := mergedValues_eq_ok.mp hmerged
  refine ⟨?_, ⟨core, extension, hparts, namedOnce_iff_represented hvalues⟩, ?_⟩
  · intro v hv name halias
    exact exists_canonical_of_merge hvalues hv halias
  · intro halike
    have hfollows : ∀ c ∈ Contribution.firstOfEach (core ++ extension),
        c.Follows (EnumDeclarations.among declared s.types id) := by
      intro c hc
      refine s.follows_of_declaredAlike hdeclared hlayout hparts
        (Contribution.mem_of_mem_firstOfEach hc) ?_
      have hmem : Contribution.toValue (Contribution.firstOfEach (core ++ extension)) c ∈
          layout.values := by
        rw [← hvalues]
        exact List.mem_map_of_mem hc
      exact halike _ hmem
    exact (namedOnce_iff_represented hvalues).mpr (Contribution.represented_of_follows hfollows)

/--
**When every number has one name that stands for it.**  After every build, each alias of a
value of an enumeration in use leads to a value of the same number that is no alias.  Besides,
every number has one name that stands for it if and only if each number that names share has
a name that is no alias of a name in use; and so it is wherever all declarations of each name
say the same.
-/
theorem namedOnce_iff {source : String} {options : RegistryOptions} {r : Registry}
    (h : build source options = .ok r) :
    ∃ doc, Document.parse source = .ok doc ∧ ∃ s : Steps (doc.forApi options) options,
      s.registry = r ∧ ∃ declared, (doc.forApi options).declaredValues r.types = .ok declared ∧
      ∀ id layout, r.isActive id = true → r.types.enum? id = some layout →
        (∀ v ∈ layout.values, ∀ name, v.aliasOf = some name →
          ∃ w ∈ layout.canonical, w.name = name ∧ w.value = v.value) ∧
        (∃ core extension,
          contributionsTo (doc.forApi options) s.set (EnumDeclarations.among declared r.types id)
            (r.types.nameOf id) id = .ok (core, extension) ∧
          (layout.NamedOnce ↔
            Contribution.Represented (Contribution.firstOfEach (core ++ extension)))) ∧
        ((∀ v ∈ layout.values, DeclaredAlike declared id v.name) → layout.NamedOnce) := by
  obtain ⟨doc, hdoc, h⟩ := build_eq_ok.mp h
  exact ⟨doc, hdoc, ofDocument_namedOnce h⟩

/-! ### A number that no name stands for -/

/-- Two extensions declare a name of `VkResult`, each with a number of its own range, and the
second one has two other names for it. -/
def disputedText : String :=
  "<registry><platforms/>
<types><type category='enum' name='VkResult'/></types>
<enums name='VkResult' type='enum'><enum name='VK_SUCCESS' value='0'/></enums>
<commands/>
<feature name='VK_VERSION_1_0' number='1.0'><require><type name='VkResult'/></require></feature>
<extensions><extension name='VK_ARM_lost' number='1' author='ARM' supported='vulkan'><require>
<enum extends='VkResult' name='VK_ERROR_LOST_KHR' offset='0' dir='-'/></require></extension>
<extension name='VK_KHR_lost' number='2' author='KHR' supported='vulkan'><require>
<enum extends='VkResult' name='VK_ERROR_LOST_KHR' offset='0' dir='-'/>
<enum extends='VkResult' name='VK_ERROR_LOST_EXT' alias='VK_ERROR_LOST_KHR'/>
<enum extends='VkResult' name='VK_ERROR_LOST_NV' alias='VK_ERROR_LOST_KHR'/></require></extension></extensions></registry>"

/-- The values of `VkResult` in `disputedText` with the second extension alone: the other names
have the number of the first declaration, which is that of the first extension. -/
def disputedValues : List EnumValue :=
  [⟨"VK_SUCCESS", 0, none, none⟩, ⟨"VK_ERROR_LOST_KHR", -1000001000, none, none⟩,
    ⟨"VK_ERROR_LOST_EXT", -1000000000, none, none⟩, ⟨"VK_ERROR_LOST_NV", -1000000000, none, none⟩]

/-- The values of `VkResult` in `disputedText` with both extensions. -/
def settledValues : List EnumValue :=
  [⟨"VK_SUCCESS", 0, none, none⟩, ⟨"VK_ERROR_LOST_KHR", -1000000000, none, none⟩,
    ⟨"VK_ERROR_LOST_EXT", -1000000000, some "VK_ERROR_LOST_KHR", none⟩,
    ⟨"VK_ERROR_LOST_NV", -1000000000, some "VK_ERROR_LOST_KHR", none⟩]

/-- The second type of the registry is an enumeration in use with these values. -/
def HasResultValues (r : Registry) (values : List EnumValue) : Bool :=
  r.isActive ⟨1⟩ && (r.types.enum? ⟨1⟩).map (·.values) == some values

theorem exists_layout_of_hasResultValues {r : Registry} {values : List EnumValue}
    (h : r.HasResultValues values = true) :
    r.isActive ⟨1⟩ = true ∧ ∃ layout, r.types.enum? ⟨1⟩ = some layout ∧ layout.values = values := by
  rw [HasResultValues, Bool.and_eq_true, beq_iff_eq] at h
  exact ⟨h.1, Option.map_eq_some_iff.mp h.2⟩

set_option maxRecDepth 20000 in
theorem exists_disputed :
    (∃ r, build disputedText .standard = .ok r ∧ r.HasResultValues disputedValues = true) ∧
      ∃ r, build disputedText .everything = .ok r ∧ r.HasResultValues settledValues = true := by
  refine ⟨exists_build_of_any ?_, exists_build_of_any ?_⟩
  · decide +kernel
  · decide +kernel

/-- With both extensions of `disputedText`, the two other names are aliases of the name that is
disputed, and the number that the three share is represented. -/
theorem namedOnce_disputedText :
    ∃ r doc, build disputedText .everything = .ok r ∧ Document.parse disputedText = .ok doc ∧
      ∃ s : Steps (doc.forApi .everything) .everything, s.registry = r ∧
        ∃ declared core extension,
          contributionsTo (doc.forApi .everything) s.set
            (EnumDeclarations.among declared r.types ⟨1⟩) (r.types.nameOf ⟨1⟩) ⟨1⟩ =
              .ok (core, extension) ∧
          Contribution.Represented (Contribution.firstOfEach (core ++ extension)) := by
  obtain ⟨-, r, hr, hvalues⟩ := exists_disputed
  obtain ⟨hactive, layout, hlayout, hvalues⟩ := exists_layout_of_hasResultValues hvalues
  obtain ⟨doc, hdoc, s, hs, declared, -, hall⟩ := namedOnce_iff hr
  obtain ⟨haliased, ⟨core, extension, hparts, hiff⟩, -⟩ := hall ⟨1⟩ layout hactive hlayout
  have hunique : (layout.canonical.map (·.value)).Nodup := by
    rw [EnumLayout.canonical, hvalues]
    decide
  exact ⟨r, doc, hr, hdoc, s, hs, declared, core, extension, hparts,
    hiff.mp ⟨hunique, haliased⟩⟩

/-- With the second extension of `disputedText` alone, two names of one number are no aliases. -/
theorem not_namedOnce_disputedText :
    ∃ r, build disputedText .standard = .ok r ∧
      ¬ ∀ id layout, r.isActive id = true → r.types.enum? id = some layout → layout.NamedOnce := by
  obtain ⟨⟨r, hr, hvalues⟩, -⟩ := exists_disputed
  obtain ⟨hactive, layout, hlayout, hvalues⟩ := exists_layout_of_hasResultValues hvalues
  refine ⟨r, hr, ?_⟩
  intro hall
  have hunique := (hall ⟨1⟩ layout hactive hlayout).unique
  rw [EnumLayout.canonical, hvalues] at hunique
  exact absurd hunique (by decide)

end VulkanRegistry.Registry
