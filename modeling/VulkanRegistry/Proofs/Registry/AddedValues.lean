/-
Which added values a finished enumeration has.

Whether a type or a command is in use is decided by the last directive that names it.  For a
value that directives add this holds only half: a removal that comes last takes it out, but a
require that comes last brings it back only if it, or another one behind the last removal,
gives the value again.  One that only names it clears the mark of the removal, and the value
stays out.
-/
import VulkanRegistry.Proofs.Enumeration.Merge
import VulkanRegistry.Proofs.Registry.Fill

namespace VulkanRegistry

/-- The versions and extensions whose directives a build applies, in order. -/
def Document.directiveSources (doc : Document) (options : RegistryOptions) :
    Outcome (List DirectiveSource) := do
  let selected ← selectExtensions doc options
  let features ← doc.features.zipIdx.mapM fun (decl, place) =>
    featureSource (doc.activeNames selected) decl place
  let extensions ← selected.zipIdx.mapM fun (decl, place) =>
    extensionSource (doc.activeNames selected) decl place
  return features.map (·.2) ++ extensions.map (·.2)

/-- What names stand for decides what a directive defines. -/
theorem definedFrom_of_outline {table other : TypeTable} (h : other.outline = table.outline)
    (enumeration : TypeId) (name : String) (o : Origin) (run : List Application) :
    DefinedFrom other enumeration name o run ↔ DefinedFrom table enumeration name o run := by
  have hlookup : other.lookup? = table.lookup? := funext (TypeTable.lookup?_eq_of_outline h)
  have hcanonical : other.canonical = table.canonical :=
    funext (TypeTable.canonical_eq_of_outline h)
  unfold DefinedFrom Application.Defines
  rw [hlookup, hcanonical]

theorem definedSinceRemoval_of_outline {table other : TypeTable} (h : other.outline = table.outline)
    (enumeration : TypeId) (name : String) (run : List Application) :
    DefinedSinceRemoval other enumeration name run ↔
      DefinedSinceRemoval table enumeration name run := by
  rw [definedSinceRemoval_iff_from, definedSinceRemoval_iff_from]
  exact exists_congr fun o => definedFrom_of_outline h enumeration name o run

namespace Registry

namespace Steps

variable {doc : Document} {options : RegistryOptions} (s : Steps doc options)

theorem directiveSources_eq : doc.directiveSources options = .ok s.sources :=
  Outcome.bind_eq_ok.mpr ⟨s.selected, s.selected_eq, Outcome.bind_eq_ok.mpr
    ⟨s.featureSources, s.features_eq, Outcome.bind_eq_ok.mpr
      ⟨s.extensionSources, s.extensions_eq, rfl⟩⟩⟩

/-- An enumeration in use has what is left of its own block and what directives left. -/
theorem mem_names_iff_contributed {id : TypeId} {layout : EnumLayout} {name : String}
    (hlayout : s.types.enum? id = some layout) (hactive : s.isActive id = true) :
    name ∈ layout.values.map (·.name) ↔
      (∃ block, enumBlock? doc.enums (s.types.nameOf id) = some block ∧
        name ∈ block.values.map (·.name)) ∧ s.applied.set.isValueRemoved name = false ∨
      DefinedSinceRemoval s.types id name (applications s.sources) := by
  obtain ⟨declared, -, hvalues⟩ := s.exists_mergedValues hlayout hactive
  have hset : s.set.HasValue id name ↔ s.applied.set.HasValue id name := by
    unfold ActiveSet.HasValue
    rw [s.between.values]
  have hmark : s.set.isValueRemoved name = s.applied.set.isValueRemoved name := by
    rw [ActiveSet.isValueRemoved, s.between.removedValues, ActiveSet.isValueRemoved]
  rw [mem_names_mergedValues hvalues, mem_names_blockValues, hmark, hset,
    applyDirectives_hasValue_iff s.applied_eq, definedSinceRemoval_of_outline s.outline_types]
  exact Iff.rfl

theorem mem_names_iff {id : TypeId} {layout : EnumLayout} {name : String}
    (hlayout : s.types.enum? id = some layout) (hactive : s.isActive id = true)
    (hundeclared : ∀ block ∈ doc.enums, ∀ value ∈ block.values, value.name ≠ name) :
    name ∈ layout.values.map (·.name) ↔
      DefinedSinceRemoval s.types id name (applications s.sources) := by
  rw [s.mem_names_iff_contributed hlayout hactive, or_iff_right]
  rintro ⟨⟨block, hblock, hname⟩, -⟩
  obtain ⟨value, hvalue, hsame⟩ := List.mem_map.mp hname
  have hmem := (List.mem_filter.mp (List.mem_of_getLast? hblock)).1
  exact hundeclared block hmem value hvalue hsame

end Steps

/-- Of a document that is filtered already, an enumeration in use has a value that no block
declares if and only if a directive behind the last removal of its name gives it the value. -/
theorem ofDocument_addedValue {doc : Document} {options : RegistryOptions} {r : Registry}
    (h : ofDocument doc options = .ok r) :
    ∃ sources, doc.directiveSources options = .ok sources ∧
      ∀ id layout name, r.isActive id = true → r.types.enum? id = some layout →
        (∀ block ∈ doc.enums, ∀ value ∈ block.values, value.name ≠ name) →
        (name ∈ layout.values.map (·.name) ↔
          DefinedSinceRemoval r.types id name (applications sources)) ∧
        ((name ∈ layout.values.map (·.name) ↔ LastRequired name (applications sources)) ↔
          (LastRequired name (applications sources) →
            DefinedSinceRemoval r.types id name (applications sources))) := by
  obtain ⟨s, rfl⟩ := exists_steps h
  refine ⟨s.sources, s.directiveSources_eq, ?_⟩
  intro id layout name hactive hlayout hundeclared
  rw [s.registry_isActive (s.lt_size_of_enum? hlayout)] at hactive
  have hmem := s.mem_names_iff hlayout hactive hundeclared
  refine ⟨hmem, ?_⟩
  rw [hmem]
  constructor
  · intro hiff hlast
    exact hiff.mpr hlast
  · intro himp
    exact ⟨DefinedSinceRemoval.lastRequired, himp⟩

/--
**An added value stays out until it is given again.**  After every build, an enumeration in
use has a value that no block declares if and only if a directive behind the last removal of
its name gives it the value.  So the last directive that names the value decides, unless that
is a require and no require behind the last removal gives the value: then it is out although
it was required last.
-/
theorem addedValue_iff {source : String} {options : RegistryOptions} {r : Registry}
    (h : build source options = .ok r) :
    ∃ doc sources, Document.parse source = .ok doc ∧
      (doc.forApi options).directiveSources options = .ok sources ∧
      ∀ id layout name, r.isActive id = true → r.types.enum? id = some layout →
        (∀ block ∈ (doc.forApi options).enums, ∀ value ∈ block.values, value.name ≠ name) →
        (name ∈ layout.values.map (·.name) ↔
          DefinedSinceRemoval r.types id name (applications sources)) ∧
        ((name ∈ layout.values.map (·.name) ↔ LastRequired name (applications sources)) ↔
          (LastRequired name (applications sources) →
            DefinedSinceRemoval r.types id name (applications sources))) := by
  obtain ⟨doc, hdoc, h⟩ := build_eq_ok.mp h
  obtain ⟨sources, hsources, hvalues⟩ := ofDocument_addedValue h
  exact ⟨doc, sources, hdoc, hsources, hvalues⟩

/-! ### A value that stays out -/

/-- For every value that only directives give to an enumeration in use, the last directive
that names it decides whether the enumeration has it. -/
def AddedValuesFollowLast (r : Registry) (doc : Document) (sources : List DirectiveSource) : Prop :=
  ∀ id layout name, r.isActive id = true → r.types.enum? id = some layout →
    (∃ a ∈ applications sources, a.Defines r.types id name) →
    (∀ a ∈ applications sources, ∀ other, a.Defines r.types other name → other = id) →
    (∀ block ∈ doc.enums, ∀ value ∈ block.values, value.name ≠ name) →
    (name ∈ layout.values.map (·.name) ↔ LastRequired name (applications sources))

/-- One value is taken out and given again, the other taken out and only named again. -/
def withdrawnText : String :=
  "<registry><platforms/>
<types><type name='int32_t'/><type category='enum' name='VkResult'/></types>
<enums name='VkResult' type='enum'><enum name='VK_SUCCESS' value='0'/></enums>
<commands/>
<feature name='VK_VERSION_1_0' number='1.0'>
<require><type name='VkResult'/><enum extends='VkResult' name='VK_TIMEOUT' value='2'/>
<enum extends='VkResult' name='VK_INCOMPLETE' value='5'/></require>
<remove><enum name='VK_TIMEOUT'/><enum name='VK_INCOMPLETE'/></remove>
<require><enum extends='VkResult' name='VK_TIMEOUT' value='2'/><enum name='VK_INCOMPLETE'/></require>
</feature></registry>"

/-- A directive that gives a value to `VkResult`. -/
def resultValue (name literal : String) : ValueDirective :=
  { name, extended := some "VkResult", value := some literal }

/-- The one source of directives of `withdrawnText`. -/
def withdrawnSource : DirectiveSource where
  name := "VK_VERSION_1_0"
  origin := .feature 0
  number := none
  blocks := [
    { kind := .require
      directives := [.type "VkResult", .value (resultValue "VK_TIMEOUT" "2"),
        .value (resultValue "VK_INCOMPLETE" "5")] },
    { kind := .remove
      directives := [.value { name := "VK_TIMEOUT" }, .value { name := "VK_INCOMPLETE" }] },
    { kind := .require
      directives := [.value (resultValue "VK_TIMEOUT" "2"), .value { name := "VK_INCOMPLETE" }] }]

/-- What a text says, the sources of the directives that are applied, and the registry. -/
def buildWithSources (source : String) (options : RegistryOptions) :
    Outcome (Document × List DirectiveSource × Registry) := do
  let doc ← Document.parse source
  let sources ← (doc.forApi options).directiveSources options
  let r ← ofDocument (doc.forApi options) options
  return (doc, sources, r)

theorem buildWithSources_eq_ok {source : String} {options : RegistryOptions} {doc : Document}
    {sources : List DirectiveSource} {r : Registry}
    (h : buildWithSources source options = .ok (doc, sources, r)) :
    Document.parse source = .ok doc ∧ (doc.forApi options).directiveSources options = .ok sources ∧
      build source options = .ok r := by
  obtain ⟨found, hdoc, h⟩ := Outcome.bind_eq_ok.mp h
  obtain ⟨applied, hsources, h⟩ := Outcome.bind_eq_ok.mp h
  obtain ⟨built, hr, h⟩ := Outcome.bind_eq_ok.mp h
  rw [Outcome.pure_eq_ok, Prod.mk.injEq, Prod.mk.injEq] at h
  obtain ⟨rfl, rfl, rfl⟩ := h
  exact ⟨hdoc, hsources, Outcome.bind_eq_ok.mpr ⟨found, hdoc, hr⟩⟩

/-- What characters say, the sources of directives and the registry, if they pass a check. -/
theorem exists_buildWithSources_of_any {cs : List Char} {options : RegistryOptions}
    {p : Document → List DirectiveSource → Registry → Bool}
    (h : ((Markup.Element.ofChars cs >>= Document.ofElement) >>= fun doc => do
      let sources ← (doc.forApi options).directiveSources options
      let r ← ofDocument (doc.forApi options) options
      return (doc, sources, r)).toOption.any (fun (doc, sources, r) => p doc sources r) = true) :
    ∃ doc sources r, Document.parse (String.ofList cs) = .ok doc ∧
      (doc.forApi options).directiveSources options = .ok sources ∧
      build (String.ofList cs) options = .ok r ∧ p doc sources r = true := by
  rw [← Document.parse_ofList] at h
  obtain ⟨⟨doc, sources, r⟩, hparts, hcheck⟩ := Outcome.exists_ok_of_any h
  obtain ⟨hdoc, hsources, hr⟩ := buildWithSources_eq_ok hparts
  exact ⟨doc, sources, r, hdoc, hsources, hr, hcheck⟩

set_option maxRecDepth 20000 in
theorem exists_withdrawn :
    ∃ doc r, Document.parse withdrawnText = .ok doc ∧
      (doc.forApi .standard).directiveSources .standard = .ok [withdrawnSource] ∧
      build withdrawnText .standard = .ok r ∧
      r.isActive ⟨2⟩ = true ∧ r.types.lookup? "VkResult" = some ⟨2⟩ ∧ r.types.canonical ⟨2⟩ = ⟨2⟩ ∧
      (∃ layout, r.types.enum? ⟨2⟩ = some layout ∧
        layout.values.map (·.name) = ["VK_SUCCESS", "VK_TIMEOUT"]) ∧
      (∀ block ∈ (doc.forApi .standard).enums, ∀ value ∈ block.values, value.name = "VK_SUCCESS") ∧
      ∀ block ∈ doc.enums, ∀ value ∈ block.values, value.name = "VK_SUCCESS" := by
  obtain ⟨doc, sources, r, hdoc, hsources, hr, hfacts⟩ :
      ∃ doc sources r, Document.parse withdrawnText = .ok doc ∧
        (doc.forApi .standard).directiveSources .standard = .ok sources ∧
        build withdrawnText .standard = .ok r ∧
        (sources == [withdrawnSource] && r.isActive ⟨2⟩ &&
          r.types.lookup? "VkResult" == some ⟨2⟩ && r.types.canonical ⟨2⟩ == ⟨2⟩ &&
          (r.types.enum? ⟨2⟩).map (fun layout => layout.values.map (·.name)) ==
            some ["VK_SUCCESS", "VK_TIMEOUT"] &&
          ((doc.forApi .standard).enums.flatMap (·.values)).all (·.name == "VK_SUCCESS") &&
          (doc.enums.flatMap (·.values)).all (·.name == "VK_SUCCESS")) = true :=
    exists_buildWithSources_of_any (by decide +kernel)
  simp only [Bool.and_eq_true, beq_iff_eq] at hfacts
  obtain ⟨⟨⟨⟨⟨⟨hsame, hactive⟩, hlookup⟩, hcanonical⟩, hlayout⟩, hfiltered⟩, hall⟩ := hfacts
  rw [hsame] at hsources
  refine ⟨doc, r, hdoc, hsources, hr, hactive, hlookup, hcanonical,
    Option.map_eq_some_iff.mp hlayout, ?_, ?_⟩
  · intro block hblock value hvalue
    have hmem := List.mem_flatMap.mpr ⟨block, hblock, hvalue⟩
    simpa using List.all_eq_true.mp hfiltered value hmem
  · intro block hblock value hvalue
    have hmem := List.mem_flatMap.mpr ⟨block, hblock, hvalue⟩
    simpa using List.all_eq_true.mp hall value hmem

/-- In `withdrawnText`, the value that is given again is there and the other one is not. -/
theorem addedValue_withdrawnText :
    ∃ r doc sources, build withdrawnText .standard = .ok r ∧
      Document.parse withdrawnText = .ok doc ∧
      (doc.forApi .standard).directiveSources .standard = .ok sources ∧
      DefinedSinceRemoval r.types ⟨2⟩ "VK_TIMEOUT" (applications sources) ∧
      ¬ DefinedSinceRemoval r.types ⟨2⟩ "VK_INCOMPLETE" (applications sources) := by
  obtain ⟨doc, r, hdoc, -, hr, hactive, -, -, ⟨layout, hlayout, hnames⟩, hblocks, -⟩ :=
    exists_withdrawn
  obtain ⟨found, sources, hfound, hsources, hiff⟩ := addedValue_iff hr
  rw [hdoc, Except.ok.injEq] at hfound
  rw [← hfound] at hsources hiff
  have hnot : ∀ name, name ≠ "VK_SUCCESS" → ∀ block ∈ (doc.forApi .standard).enums,
      ∀ value ∈ block.values, value.name ≠ name := by
    intro name hne block hblock value hvalue heq
    exact hne (heq.symm.trans (hblocks block hblock value hvalue))
  have htimeout := hiff ⟨2⟩ layout "VK_TIMEOUT" hactive hlayout (hnot _ (by decide))
  have hincomplete := hiff ⟨2⟩ layout "VK_INCOMPLETE" hactive hlayout (hnot _ (by decide))
  rw [hnames] at htimeout hincomplete
  exact ⟨r, doc, sources, hr, hdoc, hsources, htimeout.1.mp (by decide),
    fun hdefined => absurd (hincomplete.1.mpr hdefined) (by decide)⟩

/-- In `withdrawnText`, the value that is only named again was required last and is out. -/
theorem not_addedValuesFollowLast_withdrawnText :
    ∃ r doc sources, build withdrawnText .standard = .ok r ∧
      Document.parse withdrawnText = .ok doc ∧
      (doc.forApi .standard).directiveSources .standard = .ok sources ∧
      ¬ r.AddedValuesFollowLast doc sources := by
  obtain ⟨doc, r, hdoc, hsources, hr, hactive, hlookup, hcanonical, ⟨layout, hlayout, hnames⟩, -,
    hblocks⟩ := exists_withdrawn
  refine ⟨r, doc, [withdrawnSource], hr, hdoc, hsources, ?_⟩
  intro hfollow
  have hdefines : ∃ a ∈ applications [withdrawnSource],
      a.Defines r.types ⟨2⟩ "VK_INCOMPLETE" := by
    refine ⟨⟨withdrawnSource, .require, .value (resultValue "VK_INCOMPLETE" "5")⟩, ?_, rfl, _,
      "VkResult", ⟨2⟩, rfl, rfl, rfl, rfl, hlookup, hcanonical⟩
    simp [applications, DirectiveSource.directives, withdrawnSource]
  have honly : ∀ a ∈ applications [withdrawnSource], ∀ other,
      a.Defines r.types other "VK_INCOMPLETE" → other = ⟨2⟩ := by
    have hall : ((applications [withdrawnSource]).filterMap (·.directive.declaredValue?)).all
        (·.extended == some "VkResult") = true := by decide
    rintro a ha other ⟨-, d, extended, id, hd, -, hgives, hextended, hid, hstands⟩
    have hreference : d.isReference = false := by
      by_contra hreference
      rw [ValueDirective.givesValue_of_isReference (by simpa using hreference)] at hgives
      simp at hgives
    have hdeclared : a.directive.declaredValue? = some d := by
      simp [hd, Directive.declaredValue?, hreference]
    have hextends := List.all_eq_true.mp hall d (List.mem_filterMap.mpr ⟨a, ha, hdeclared⟩)
    rw [beq_iff_eq, hextended, Option.some.injEq] at hextends
    rw [hextends, hlookup, Option.some.injEq] at hid
    rw [← hstands, ← hid, hcanonical]
  have hundeclared : ∀ block ∈ doc.enums, ∀ value ∈ block.values, value.name ≠ "VK_INCOMPLETE" := by
    intro block hblock value hvalue
    rw [hblocks block hblock value hvalue]
    decide
  have hlast : LastRequired "VK_INCOMPLETE" (applications [withdrawnSource]) :=
    ⟨⟨withdrawnSource, .require, .value { name := "VK_INCOMPLETE" }⟩, rfl, rfl⟩
  have hmem := (hfollow ⟨2⟩ layout _ hactive hlayout hdefines honly hundeclared).mpr hlast
  rw [hnames] at hmem
  exact absurd hmem (by decide)

end Registry

end VulkanRegistry
