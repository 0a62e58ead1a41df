/-
Which block values a finished enumeration has.

All blocks whose names stand for an enumeration are read when its declarations are collected,
so the values of each of them can be the target of an alias.  When its values are merged, the
enumeration takes those of one block: the last block that has its own name.  A value that only
an earlier block of the name declares, or one under another name for the type, is lost unless
a directive gives it as well.
-/
import VulkanRegistry.Proofs.Registry.AddedValues

namespace VulkanRegistry

/-- The block that describes an enumeration declares the value. -/
def Document.OwnBlockDeclares (doc : Document) (types : TypeTable) (id : TypeId)
    (name : String) : Prop :=
  ∃ block, enumBlock? doc.enums (types.nameOf id) = some block ∧
    name ∈ block.values.map (·.name)

namespace Registry

/-- An enumeration in use has every value that a block under one of its names declares, unless
a directive removes the value. -/
def KeepsBlockValues (r : Registry) (doc : Document) (sources : List DirectiveSource) : Prop :=
  ∀ block ∈ doc.enums, block.hasType = true → ∀ value ∈ block.values, ∀ found layout,
    r.types.lookup? block.name = some found →
    r.isActive (r.types.canonical found) = true →
    r.types.enum? (r.types.canonical found) = some layout →
    (∀ a ∈ applications sources, ¬ a.Removes value.name) →
    value.name ∈ layout.values.map (·.name)

/-- Of a document that is filtered already, an enumeration in use keeps a value of some block if
the last block of its own name declares it or a directive gives it. -/
theorem ofDocument_blockValue {doc : Document} {options : RegistryOptions} {r : Registry}
    (h : ofDocument doc options = .ok r) :
    ∃ sources, doc.directiveSources options = .ok sources ∧
      ∀ block ∈ doc.enums, block.hasType = true → ∀ value ∈ block.values,
        ∀ found layout, r.types.lookup? block.name = some found →
          r.isActive (r.types.canonical found) = true →
          r.types.enum? (r.types.canonical found) = some layout →
          (∀ a ∈ applications sources, ¬ a.Removes value.name) →
          (value.name ∈ layout.values.map (·.name) ↔
            doc.OwnBlockDeclares r.types (r.types.canonical found) value.name ∨
              ∃ a ∈ applications sources,
                a.Defines r.types (r.types.canonical found) value.name) := by
  obtain ⟨s, rfl⟩ := exists_steps h
  refine ⟨s.sources, s.directiveSources_eq, ?_⟩
  intro block _ _ value _ found layout _ hactive hlayout hkept
  rw [s.registry_isActive (s.lt_size_of_enum? hlayout)] at hactive
  have hmark : s.applied.set.isValueRemoved value.name = false := by
    by_contra hmark
    obtain ⟨a, ha, hremoves⟩ :=
      exists_removes_of_isValueRemoved s.applied_eq (by simpa using hmark)
    exact hkept a ha hremoves
  rw [s.mem_names_iff_contributed hlayout hactive, DefinedSinceRemoval, sinceRemoval_eq_self hkept]
  simp only [hmark, and_true]
  exact Iff.rfl

/--
**Block values are kept by their last block.**  After every build, an enumeration in use has a
value that some block under one of its names declares and that no directive removes if and
only if the last block of its own name declares the value or a directive gives it.
-/
theorem blockValue_iff {source : String} {options : RegistryOptions} {r : Registry}
    (h : build source options = .ok r) :
    ∃ doc sources, Document.parse source = .ok doc ∧
      (doc.forApi options).directiveSources options = .ok sources ∧
      ∀ block ∈ (doc.forApi options).enums, block.hasType = true → ∀ value ∈ block.values,
        ∀ found layout, r.types.lookup? block.name = some found →
          r.isActive (r.types.canonical found) = true →
          r.types.enum? (r.types.canonical found) = some layout →
          (∀ a ∈ applications sources, ¬ a.Removes value.name) →
          (value.name ∈ layout.values.map (·.name) ↔
            (doc.forApi options).OwnBlockDeclares r.types (r.types.canonical found) value.name ∨
              ∃ a ∈ applications sources,
                a.Defines r.types (r.types.canonical found) value.name) := by
  obtain ⟨doc, hdoc, h⟩ := build_eq_ok.mp h
  obtain ⟨sources, hsources, hvalues⟩ := ofDocument_blockValue h
  exact ⟨doc, sources, hdoc, hsources, hvalues⟩

/-! ### Values that are lost -/

/-- `VkResult` has two blocks of its own name and one under its other name. -/
def scatteredText : String :=
  "<registry><platforms/>
<types><type category='enum' name='VkResult'/>
<type category='enum' name='VkResultKHR' alias='VkResult'/></types>
<enums name='VkResult' type='enum'><enum name='VK_SUCCESS' value='0'/></enums>
<enums name='VkResult' type='enum'><enum name='VK_NOT_READY' value='1'/></enums>
<enums name='VkResultKHR' type='enum'><enum name='VK_TIMEOUT' value='2'/></enums>
<commands/>
<feature name='VK_VERSION_1_0' number='1.0'><require><type name='VkResult'/></require></feature>
</registry>"

/-- The one source of directives of `scatteredText`. -/
def scatteredSource : DirectiveSource where
  name := "VK_VERSION_1_0"
  origin := .feature 0
  number := none
  blocks := [{ kind := .require, directives := [.type "VkResult"] }]

/-- The blocks of `scatteredText`: their names and what they declare. -/
def scatteredBlocks : List (String × List String) :=
  [("VkResult", ["VK_SUCCESS"]), ("VkResult", ["VK_NOT_READY"]), ("VkResultKHR", ["VK_TIMEOUT"])]

set_option maxRecDepth 20000 in
theorem exists_scattered :
    ∃ doc r, Document.parse scatteredText = .ok doc ∧
      (doc.forApi .standard).directiveSources .standard = .ok [scatteredSource] ∧
      build scatteredText .standard = .ok r ∧
      r.isActive ⟨1⟩ = true ∧ r.types.canonical ⟨1⟩ = ⟨1⟩ ∧ r.types.canonical ⟨2⟩ = ⟨1⟩ ∧
      r.types.lookup? "VkResult" = some ⟨1⟩ ∧ r.types.lookup? "VkResultKHR" = some ⟨2⟩ ∧
      (∃ layout, r.types.enum? ⟨1⟩ = some layout ∧
        layout.values.map (·.name) = ["VK_NOT_READY"]) ∧
      (doc.forApi .standard).enums.all (·.hasType) = true ∧
      (doc.forApi .standard).enums.map (fun block => (block.name, block.values.map (·.name))) =
        scatteredBlocks := by
  obtain ⟨doc, sources, r, hdoc, hsources, hr, hfacts⟩ :
      ∃ doc sources r, Document.parse scatteredText = .ok doc ∧
        (doc.forApi .standard).directiveSources .standard = .ok sources ∧
        build scatteredText .standard = .ok r ∧
        (sources == [scatteredSource] && r.isActive ⟨1⟩ && r.types.canonical ⟨1⟩ == ⟨1⟩ &&
          r.types.canonical ⟨2⟩ == ⟨1⟩ && r.types.lookup? "VkResult" == some ⟨1⟩ &&
          r.types.lookup? "VkResultKHR" == some ⟨2⟩ &&
          (r.types.enum? ⟨1⟩).map (fun layout => layout.values.map (·.name)) ==
            some ["VK_NOT_READY"] &&
          (doc.forApi .standard).enums.all (·.hasType) &&
          (doc.forApi .standard).enums.map (fun block => (block.name, block.values.map (·.name)))
            == scatteredBlocks) = true :=
    exists_buildWithSources_of_any (by decide +kernel)
  simp only [Bool.and_eq_true, beq_iff_eq] at hfacts
  obtain ⟨⟨⟨⟨⟨⟨⟨⟨hsame, hactive⟩, hown⟩, hother⟩, hname⟩, halias⟩, hlayout⟩, htyped⟩, hblocks⟩ :=
    hfacts
  rw [hsame] at hsources
  exact ⟨doc, r, hdoc, hsources, hr, hactive, hown, hother, hname, halias,
    Option.map_eq_some_iff.mp hlayout, htyped, hblocks⟩

theorem not_removes_scatteredSource (name : String) :
    ∀ a ∈ applications [scatteredSource], ¬ a.Removes name := by
  intro a ha
  simp [applications, DirectiveSource.directives, scatteredSource] at ha
  rintro ⟨hkind, -⟩
  simp [ha] at hkind

/-- A value of `scatteredText` is declared by some block. -/
theorem exists_block_of_scatteredBlocks {doc : Document} {name value : String}
    (hblocks : doc.enums.map (fun block => (block.name, block.values.map (·.name))) =
      scatteredBlocks) (h : (name, [value]) ∈ scatteredBlocks) :
    ∃ block ∈ doc.enums, block.name = name ∧ ∃ decl ∈ block.values, decl.name = value := by
  rw [← hblocks] at h
  obtain ⟨block, hblock, heq⟩ := List.mem_map.mp h
  obtain ⟨hname, hvalues⟩ := Prod.mk.inj heq
  have hmem : value ∈ block.values.map (·.name) := by simp [hvalues]
  obtain ⟨decl, hdecl, hvalue⟩ := List.mem_map.mp hmem
  exact ⟨block, hblock, hname, decl, hdecl, hvalue⟩

/-- In `scatteredText`, the value of the last block of the enumeration's own name is kept, and
neither that block nor a directive has the value of the block under the other name. -/
theorem blockValue_scatteredText :
    ∃ r doc sources, build scatteredText .standard = .ok r ∧
      Document.parse scatteredText = .ok doc ∧
      (doc.forApi .standard).directiveSources .standard = .ok sources ∧
      ((doc.forApi .standard).OwnBlockDeclares r.types ⟨1⟩ "VK_NOT_READY" ∨
        ∃ a ∈ applications sources, a.Defines r.types ⟨1⟩ "VK_NOT_READY") ∧
      ¬ ((doc.forApi .standard).OwnBlockDeclares r.types ⟨1⟩ "VK_TIMEOUT" ∨
        ∃ a ∈ applications sources, a.Defines r.types ⟨1⟩ "VK_TIMEOUT") := by
  obtain ⟨doc, r, hdoc, hsources, hr, hactive, hown, hother, hname, halias,
    ⟨layout, hlayout, hnames⟩, htyped, hblocks⟩ := exists_scattered
  obtain ⟨found, sources, hfound, hfoundSources, hiff⟩ := blockValue_iff hr
  rw [hdoc, Except.ok.injEq] at hfound
  rw [← hfound] at hfoundSources hiff
  rw [hsources, Except.ok.injEq] at hfoundSources
  rw [← hfoundSources] at hiff
  obtain ⟨block, hblock, hblockName, value, hvalue, hvalueName⟩ :=
    exists_block_of_scatteredBlocks hblocks
      (by decide : ("VkResult", ["VK_NOT_READY"]) ∈ scatteredBlocks)
  obtain ⟨lost, hlost, hlostName, timeout, htimeout, htimeoutName⟩ :=
    exists_block_of_scatteredBlocks hblocks
      (by decide : ("VkResultKHR", ["VK_TIMEOUT"]) ∈ scatteredBlocks)
  have hkept := hiff block hblock (List.all_eq_true.mp htyped block hblock) value hvalue ⟨1⟩ layout
    (by rw [hblockName, hname]) (by rw [hown, hactive]) (by rw [hown, hlayout])
    (not_removes_scatteredSource _)
  have hgone := hiff lost hlost (List.all_eq_true.mp htyped lost hlost) timeout htimeout ⟨2⟩ layout
    (by rw [hlostName, halias]) (by rw [hother, hactive]) (by rw [hother, hlayout])
    (not_removes_scatteredSource _)
  rw [hnames, hvalueName, hown] at hkept
  rw [hnames, htimeoutName, hother] at hgone
  exact ⟨r, doc, [scatteredSource], hr, hdoc, hsources, hkept.mp (by decide),
    fun h => absurd (hgone.mpr h) (by decide)⟩

/-- In `scatteredText`, only the values of one block are kept. -/
theorem not_keepsBlockValues_scatteredText :
    ∃ r doc sources, build scatteredText .standard = .ok r ∧
      Document.parse scatteredText = .ok doc ∧
      (doc.forApi .standard).directiveSources .standard = .ok sources ∧
      ¬ r.KeepsBlockValues (doc.forApi .standard) sources := by
  obtain ⟨doc, r, hdoc, hsources, hr, hactive, hown, -, hname, -, ⟨layout, hlayout, hnames⟩, htyped,
    hblocks⟩ := exists_scattered
  refine ⟨r, doc, [scatteredSource], hr, hdoc, hsources, ?_⟩
  intro hkeeps
  obtain ⟨block, hblock, hblockName, value, hvalue, hvalueName⟩ :=
    exists_block_of_scatteredBlocks hblocks
      (by decide : ("VkResult", ["VK_SUCCESS"]) ∈ scatteredBlocks)
  have hmem := hkeeps block hblock (List.all_eq_true.mp htyped block hblock) value hvalue ⟨1⟩ layout
    (by rw [hblockName, hname]) (by rw [hown, hactive]) (by rw [hown, hlayout])
    (not_removes_scatteredSource _)
  rw [hnames, hvalueName] at hmem
  exact absurd hmem (by decide)

end Registry

end VulkanRegistry
