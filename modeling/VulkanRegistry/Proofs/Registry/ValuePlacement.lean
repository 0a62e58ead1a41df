/-
Which bucket a value is in.

When values are merged, an enumeration's own block counts as core, like the directives of core
versions.  When values are put into buckets, only directives count: the enumeration speaks for
a value alone if no directive gives it.  So what both agree on is where directives decide, and
where there are none.  They part over a value of an enumeration of the core that stands in its
own block and that an extension for a platform gives once more: merged it is core, and it is
put into the bucket of the platform.
-/
import VulkanRegistry.Proofs.Origin
import VulkanRegistry.Proofs.Registry.BlockValues
import VulkanRegistry.Proofs.Registry.Unguarded

namespace VulkanRegistry

/-! ### Buckets by origins -/

/-- Where every origin ties an entity to a platform, the first one says to which. -/
theorem bucket_cons {first : Origin} {rest : List Origin} {extensions : List Extension}
    (h : ∀ o ∈ first :: rest, o.platform? extensions ≠ none) :
    bucket (first :: rest) extensions = first.platform? extensions := by
  have hrest : ∃ platforms, rest.mapM (Origin.platform? extensions) = some platforms := by
    have htied : ∀ o ∈ rest, o.platform? extensions ≠ none :=
      fun o ho => h o (List.mem_cons_of_mem _ ho)
    clear h
    induction rest with
    | nil => exact ⟨[], rfl⟩
    | cons o rest ih =>
        obtain ⟨platform, hplatform⟩ := Option.ne_none_iff_exists'.mp (htied o (by simp))
        obtain ⟨platforms, hplatforms⟩ := ih fun o ho => htied o (List.mem_cons_of_mem _ ho)
        exact ⟨platform :: platforms, by simp [List.mapM_cons, hplatform, hplatforms]⟩
  obtain ⟨platforms, hplatforms⟩ := hrest
  obtain ⟨platform, hplatform⟩ := Option.ne_none_iff_exists'.mp (h first (by simp))
  simp [bucket, List.mapM_cons, hplatform, hplatforms]

/-- What only extensions bring in, all of them for platforms, is for that of the first one. -/
theorem bucket_of_least {origins : List Origin} (hascending : Origin.Ascending origins)
    {extensions : List Extension} (htied : ∀ o ∈ origins, o.platform? extensions ≠ none)
    (hne : origins ≠ []) :
    ∃ j, .extension j ∈ origins ∧ (∀ i, .extension i ∈ origins → j ≤ i) ∧
      bucket origins extensions = (Origin.extension j).platform? extensions := by
  obtain ⟨first, rest, rfl⟩ := List.exists_cons_of_ne_nil hne
  cases first with
  | feature j => exact absurd rfl (htied (.feature j) (by simp))
  | extension j =>
      refine ⟨j, by simp, ?_, bucket_cons htied⟩
      intro i hi
      rcases List.mem_cons.mp hi with heq | hi
      · rw [Origin.extension.injEq] at heq
        exact Nat.le_of_eq heq.symm
      · cases (List.pairwise_cons.mp hascending).1 _ hi with
        | extensions hlt => exact Nat.le_of_lt hlt

/-! ### The origins of added values -/

namespace ActiveSet

variable {set : ActiveSet} {name : String}

theorem valueOrigins?_eq_none :
    set.valueOrigins? name = none ↔ ∀ v ∈ set.values, v.name ≠ name := by
  unfold valueOrigins?
  split
  · next hnil => simpa using hnil
  · next origins hne =>
      simp only [reduceCtorEq, false_iff]
      intro hall
      refine hne ?_
      simpa using hall

theorem valueOrigins?_eq_some {origins : List Origin} (h : set.valueOrigins? name = some origins) :
    Origin.Ascending origins ∧
      ∀ o, o ∈ origins ↔ ∃ v ∈ set.values, v.name = name ∧ v.origin = o := by
  unfold valueOrigins? at h
  split at h
  · simp at h
  · rw [← Option.some.inj h]
    refine ⟨Origin.ascending_insertAll Origin.ascending_nil, fun o => ?_⟩
    simp [Origin.mem_insertAll, and_assoc]

end ActiveSet

/-! ### Who brings a value in -/

/-- The bucket for a platform lists the value. -/
def PlatformTable.ListsValue (table : PlatformTable) (platform : Option String)
    (value : ValueRef) : Prop :=
  ∃ p, table.platforms[table.slot platform]? = some p ∧ value ∈ p.enumValues

namespace Registry

/-- The core lists the type. -/
def CoreLists (r : Registry) (id : TypeId) : Prop :=
  ∃ core, r.platforms.core? = some core ∧ id ∈ core.types

/-- A core version or an extension without a platform gives the value to the enumeration. -/
def DefinedInCore (r : Registry) (run : List Application) (id : TypeId) (name : String) : Prop :=
  ∃ o, DefinedFrom r.types id name o run ∧ o.platform? r.extensions = none

/-- This is the first extension that gives the value to the enumeration. -/
def FirstExtension (r : Registry) (run : List Application) (id : TypeId) (name : String)
    (j : Nat) : Prop :=
  DefinedFrom r.types id name (.extension j) run ∧
    ∀ i, DefinedFrom r.types id name (.extension i) run → j ≤ i

/-- A value is placed by the directives that give it, and otherwise with its enumeration. -/
structure PlacedByDirectives (r : Registry) (run : List Application) (id : TypeId)
    (name : String) : Prop where
  core : r.DefinedInCore run id name → r.platforms.ListsValue none ⟨id, name⟩
  first : ¬ r.DefinedInCore run id name → DefinedSinceRemoval r.types id name run →
    ∃ j, r.FirstExtension run id name j ∧
      r.platforms.ListsValue ((Origin.extension j).platform? r.extensions) ⟨id, name⟩
  own : ¬ DefinedSinceRemoval r.types id name run →
    ∃ p ∈ r.platforms.platforms, id ∈ p.types ∧ ⟨id, name⟩ ∈ p.enumValues

/-- The core brings the value in: in the block of an enumeration of its own, or by directives. -/
def BroughtInByCore (r : Registry) (doc : Document) (run : List Application) (id : TypeId)
    (name : String) : Prop :=
  doc.OwnBlockDeclares r.types id name ∧ r.CoreLists id ∨ r.DefinedInCore run id name

/-- A value is placed by all that contribute it, the block of the enumeration included. -/
structure PlacedByContributions (r : Registry) (doc : Document) (run : List Application)
    (id : TypeId) (name : String) : Prop where
  core : r.BroughtInByCore doc run id name → r.platforms.ListsValue none ⟨id, name⟩
  first : ¬ r.BroughtInByCore doc run id name → DefinedSinceRemoval r.types id name run →
    ∃ j, r.FirstExtension run id name j ∧
      r.platforms.ListsValue ((Origin.extension j).platform? r.extensions) ⟨id, name⟩
  own : ¬ r.BroughtInByCore doc run id name → ¬ DefinedSinceRemoval r.types id name run →
    ∃ p ∈ r.platforms.platforms, id ∈ p.types ∧ ⟨id, name⟩ ∈ p.enumValues

/-- The value stands in the block of an enumeration of the core, and those directives that give
it are all for platforms, the first one for a platform with a bucket of its own. -/
def Overruled (r : Registry) (doc : Document) (run : List Application) (id : TypeId)
    (name : String) : Prop :=
  doc.OwnBlockDeclares r.types id name ∧ r.CoreLists id ∧ ¬ r.DefinedInCore run id name ∧
    ∃ j, r.FirstExtension run id name j ∧
      r.platforms.slot ((Origin.extension j).platform? r.extensions) ≠ 0

namespace Steps

variable {doc : Document} {options : RegistryOptions} (s : Steps doc options)

/-- The origins that count for a value. -/
def placeOrigins (id : TypeId) (name : String) : List Origin :=
  (s.set.valueOrigins? name).getD (s.set.typeAt id).origins

theorem placeValue_eq {x : ValueRef × List Origin} (h : x ∈ s.contents.values) :
    s.contents.placeValue x =
      bucket (s.placeOrigins x.1.enumeration x.1.name) s.registry.extensions := by
  obtain ⟨id, -, hx⟩ := List.mem_flatMap.mp h
  split at hx
  · obtain ⟨value, -, rfl⟩ := List.mem_map.mp hx
    rfl
  · simp at hx

theorem slot_platforms : s.registry.platforms.slot = s.blank.slot :=
  s.contents.slot_filled s.blank

variable {id : TypeId} {layout : EnumLayout} {name : String}

/-- A bucket lists a type in use if its origins lead there. -/
theorem mem_types_iff_slot (hactive : s.registry.isActive id = true) {k : Nat} {p : Platform}
    (hp : s.registry.platforms.platforms[k]? = some p) :
    id ∈ p.types ↔
      s.blank.slot (bucket (s.set.typeAt id).origins s.registry.extensions) = k := by
  rw [(s.contents.shares_types s.blank_blank).mem_iff hp]
  constructor
  · rintro ⟨x, -, hslot, rfl⟩
    exact hslot
  · intro hslot
    exact ⟨id, s.mem_types_iff.mpr hactive, hslot, rfl⟩

theorem coreLists_iff (hactive : s.registry.isActive id = true) :
    s.registry.CoreLists id ↔
      s.blank.slot (bucket (s.set.typeAt id).origins s.registry.extensions) = 0 := by
  obtain ⟨core, hcore, -⟩ := s.exists_core
  rw [← s.mem_types_iff_slot hactive hcore, CoreLists, PlatformTable.core?,
    List.head?_eq_getElem?, hcore]
  simp

/-- The bucket for a platform lists a value if the origins that count for it lead there. -/
theorem listsValue_iff (hactive : s.registry.isActive id = true)
    (hlayout : s.types.enum? id = some layout) (hname : name ∈ layout.values.map (·.name))
    (platform : Option String) :
    s.registry.platforms.ListsValue platform ⟨id, name⟩ ↔
      s.blank.slot (bucket (s.placeOrigins id name) s.registry.extensions) =
        s.blank.slot platform := by
  have hmem : ∀ {k p}, s.registry.platforms.platforms[k]? = some p →
      (⟨id, name⟩ ∈ p.enumValues ↔
        s.blank.slot (bucket (s.placeOrigins id name) s.registry.extensions) = k) := by
    intro k p hp
    rw [(s.contents.shares_values s.blank_blank).mem_iff hp]
    constructor
    · rintro ⟨x, hx, hslot, hvalue⟩
      rw [← hslot, s.placeValue_eq hx, hvalue]
    · intro hslot
      have hlisted : (⟨id, name⟩ : ValueRef) ∈ s.contents.values.map (·.1) :=
        s.mem_valueRefs_iff.mpr ⟨hactive, layout, hlayout, hname⟩
      obtain ⟨x, hx, hvalue⟩ := List.mem_map.mp hlisted
      refine ⟨x, hx, ?_, hvalue⟩
      rw [← hslot, s.placeValue_eq hx, hvalue]
  rw [PlatformTable.ListsValue, s.slot_platforms]
  constructor
  · rintro ⟨p, hp, hvalue⟩
    exact (hmem hp).mp hvalue
  · intro hslot
    have hp := List.getElem?_eq_getElem (s.contents.slot_lt_filled s.blank_blank platform)
    exact ⟨_, hp, (hmem hp).mpr hslot⟩

/-! ### The origins that count -/

section Origins

variable (honly : ∀ other, DefinedSinceRemoval s.types other name (applications s.sources) →
  other = id)

include honly

/-- The added values of a name that only one enumeration has come from the directives that give
it to that one. -/
theorem exists_origin_iff (o : Origin) :
    (∃ v ∈ s.set.values, v.name = name ∧ v.origin = o) ↔
      DefinedFrom s.types id name o (applications s.sources) := by
  have hfrom : ∀ other, s.set.HasValueFrom other name o ↔
      DefinedFrom s.types other name o (applications s.sources) := by
    intro other
    rw [ActiveSet.HasValueFrom, s.between.values, definedFrom_of_outline s.outline_types]
    exact applyDirectives_hasValueFrom_iff s.applied_eq
  rw [← hfrom id]
  constructor
  · rintro ⟨v, hv, hname, horigin⟩
    have hother := (hfrom v.enumeration).mp ⟨v, hv, rfl, hname, horigin⟩
    exact ⟨v, hv, honly _ (definedSinceRemoval_iff_from.mpr ⟨o, hother⟩), hname, horigin⟩
  · rintro ⟨v, hv, -, hname, horigin⟩
    exact ⟨v, hv, hname, horigin⟩

theorem placeOrigins_of_not_defined
    (h : ¬ DefinedSinceRemoval s.types id name (applications s.sources)) :
    s.placeOrigins id name = (s.set.typeAt id).origins := by
  have hnone : s.set.valueOrigins? name = none := by
    rw [ActiveSet.valueOrigins?_eq_none]
    intro v hv hname
    have hfrom := (s.exists_origin_iff honly v.origin).mp ⟨v, hv, hname, rfl⟩
    exact h (definedSinceRemoval_iff_from.mpr ⟨v.origin, hfrom⟩)
  rw [placeOrigins, hnone]
  rfl

theorem placeOrigins_of_defined
    (h : DefinedSinceRemoval s.types id name (applications s.sources)) :
    Origin.Ascending (s.placeOrigins id name) ∧
      ∀ o, o ∈ s.placeOrigins id name ↔
        DefinedFrom s.types id name o (applications s.sources) := by
  cases horigins : s.set.valueOrigins? name with
  | none =>
      obtain ⟨o, ho⟩ := definedSinceRemoval_iff_from.mp h
      obtain ⟨v, hv, hname, -⟩ := (s.exists_origin_iff honly o).mpr ho
      exact absurd hname (ActiveSet.valueOrigins?_eq_none.mp horigins v hv)
  | some origins =>
      obtain ⟨hascending, hmem⟩ := ActiveSet.valueOrigins?_eq_some horigins
      rw [placeOrigins, horigins]
      exact ⟨hascending, fun o => (hmem o).trans (s.exists_origin_iff honly o)⟩

end Origins

/-! ### The bucket of a value -/

section Placement

variable (hactive : s.registry.isActive id = true) (hlayout : s.types.enum? id = some layout)
  (hname : name ∈ layout.values.map (·.name))
  (honly : ∀ other, DefinedSinceRemoval s.types other name (applications s.sources) → other = id)

include hactive hlayout hname honly

theorem placedByDirectives : s.registry.PlacedByDirectives (applications s.sources) id name := by
  have hlists := s.listsValue_iff hactive hlayout hname
  refine ⟨?core, ?first, ?own⟩
  case core =>
    rintro ⟨o, hfrom, hplatform⟩
    obtain ⟨-, hmem⟩ :=
      s.placeOrigins_of_defined honly (definedSinceRemoval_iff_from.mpr ⟨o, hfrom⟩)
    rw [hlists, bucket_eq_none ((hmem o).mpr hfrom) hplatform]
  case first =>
    intro hcore hdefined
    obtain ⟨hascending, hmem⟩ := s.placeOrigins_of_defined honly hdefined
    have htied : ∀ o ∈ s.placeOrigins id name, o.platform? s.registry.extensions ≠ none :=
      fun o ho hnone => hcore ⟨o, (hmem o).mp ho, hnone⟩
    obtain ⟨o, ho⟩ := definedSinceRemoval_iff_from.mp hdefined
    obtain ⟨j, hj, hleast, hbucket⟩ :=
      bucket_of_least hascending htied (List.ne_nil_of_mem ((hmem o).mpr ho))
    refine ⟨j, ⟨(hmem _).mp hj, fun i hi => hleast i ((hmem _).mpr hi)⟩, ?_⟩
    rw [hlists, hbucket]
  case own =>
    intro hundefined
    obtain ⟨p, hslot, hvalue⟩ := (hlists (bucket (s.set.typeAt id).origins
      s.registry.extensions)).mpr (by rw [s.placeOrigins_of_not_defined honly hundefined])
    rw [s.slot_platforms] at hslot
    exact ⟨p, List.mem_of_getElem? hslot, (s.mem_types_iff_slot hactive hslot).mpr rfl, hvalue⟩

/-- Directives place a value where all contributions would, unless they overrule the block. -/
theorem placedByContributions_iff :
    s.registry.PlacedByContributions doc (applications s.sources) id name ↔
      ¬ s.registry.Overruled doc (applications s.sources) id name := by
  have hlists := s.listsValue_iff hactive hlayout hname
  have hplaced := s.placedByDirectives hactive hlayout hname honly
  constructor
  · rintro hcontributions ⟨hown, hcore, hnot, j, hfirst, hslot⟩
    have hzero := (hlists none).mp (hcontributions.core (Or.inl ⟨hown, hcore⟩))
    obtain ⟨i, hleast, hlisted⟩ :=
      hplaced.first hnot (definedSinceRemoval_iff_from.mpr ⟨_, hfirst.1⟩)
    have hsame : i = j := Nat.le_antisymm (hleast.2 j hfirst.1) (hfirst.2 i hleast.1)
    rw [hsame, hlists] at hlisted
    rw [s.slot_platforms, ← hlisted, hzero] at hslot
    exact hslot rfl
  · intro hnot
    refine ⟨?core, fun hcore => hplaced.first fun hin => hcore (Or.inr hin), fun _ => hplaced.own⟩
    rintro (⟨hown, hcore⟩ | hin)
    · by_cases hin : s.registry.DefinedInCore (applications s.sources) id name
      · exact hplaced.core hin
      · by_cases hdefined : DefinedSinceRemoval s.types id name (applications s.sources)
        · obtain ⟨j, hfirst, hlisted⟩ := hplaced.first hin hdefined
          have hslot : s.registry.platforms.slot
              ((Origin.extension j).platform? s.registry.extensions) = 0 := by
            by_contra hslot
            exact hnot ⟨hown, hcore, hin, j, hfirst, hslot⟩
          rw [PlatformTable.ListsValue, hslot] at hlisted
          exact hlisted
        · rw [hlists, s.placeOrigins_of_not_defined honly hdefined]
          exact (s.coreLists_iff hactive).mp hcore
    · exact hplaced.core hin

end Placement

end Steps

/-- Of a document that is filtered already, a value of an enumeration in use is where its
directives put it, and where all its contributions do unless its block is overruled. -/
theorem ofDocument_valuePlacement {doc : Document} {options : RegistryOptions} {r : Registry}
    (h : ofDocument doc options = .ok r) :
    ∃ sources, doc.directiveSources options = .ok sources ∧
      ∀ id layout name, r.isActive id = true → r.types.enum? id = some layout →
        name ∈ layout.values.map (·.name) →
        (∀ other, DefinedSinceRemoval r.types other name (applications sources) → other = id) →
        r.PlacedByDirectives (applications sources) id name ∧
        (r.PlacedByContributions doc (applications sources) id name ↔
          ¬ r.Overruled doc (applications sources) id name) := by
  obtain ⟨s, rfl⟩ := exists_steps h
  refine ⟨s.sources, s.directiveSources_eq, ?_⟩
  intro id layout name hactive hlayout hname honly
  exact ⟨s.placedByDirectives hactive hlayout hname honly,
    s.placedByContributions_iff hactive hlayout hname honly⟩

/--
**Directives place values, and the block only where there are none.**  After every build, a
value whose name no directive gives to another enumeration is in the core if a core version or
an extension without a platform gives it, else in the bucket of the first extension that does,
and else in that of its enumeration.  That is where all its contributions put it, its own block
included, unless the block of an enumeration of the core has the value and only extensions for
platforms give it, the first one for a platform with a bucket of its own.
-/
theorem valuePlacement {source : String} {options : RegistryOptions} {r : Registry}
    (h : build source options = .ok r) :
    ∃ doc sources, Document.parse source = .ok doc ∧
      (doc.forApi options).directiveSources options = .ok sources ∧
      ∀ id layout name, r.isActive id = true → r.types.enum? id = some layout →
        name ∈ layout.values.map (·.name) →
        (∀ other, DefinedSinceRemoval r.types other name (applications sources) → other = id) →
        r.PlacedByDirectives (applications sources) id name ∧
        (r.PlacedByContributions (doc.forApi options) (applications sources) id name ↔
          ¬ r.Overruled (doc.forApi options) (applications sources) id name) := by
  obtain ⟨doc, hdoc, h⟩ := build_eq_ok.mp h
  obtain ⟨sources, hsources, hplaced⟩ := ofDocument_valuePlacement h
  exact ⟨doc, sources, hdoc, hsources, hplaced⟩

/-! ### A block that is overruled -/

/-- Every value of an enumeration in use that no directive gives to another one is placed by
all its contributions. -/
def PlacesByContributions (r : Registry) (doc : Document) (sources : List DirectiveSource) : Prop :=
  ∀ id layout name, r.isActive id = true → r.types.enum? id = some layout →
    name ∈ layout.values.map (·.name) →
    (∀ other, DefinedSinceRemoval r.types other name (applications sources) → other = id) →
    r.PlacedByContributions doc (applications sources) id name

/-- An extension for a platform gives a value that the block of its enumeration has already, and
another one. -/
def overruledText : String :=
  "<registry><platforms>
<platform name='xlib' protect='VK_USE_PLATFORM_XLIB_KHR' comment='X'/></platforms>
<types><type category='enum' name='VkResult'/></types>
<enums name='VkResult' type='enum'><enum name='VK_SUCCESS' value='0'/>
<enum name='VK_TIMEOUT' value='2'/></enums>
<commands/>
<feature name='VK_VERSION_1_0' number='1.0'><require><type name='VkResult'/></require></feature>
<extensions>
<extension name='VK_KHR_xlib' number='2' author='KHR' platform='xlib' supported='vulkan'>
<require><enum extends='VkResult' name='VK_TIMEOUT' value='2'/>
<enum extends='VkResult' name='VK_HIDDEN' value='5'/></require>
</extension></extensions></registry>"

/-- The sources of directives of `overruledText`. -/
def overruledSources : List DirectiveSource :=
  [{ name := "VK_VERSION_1_0"
     origin := .feature 0
     number := none
     blocks := [{ kind := .require, directives := [.type "VkResult"] }] },
    { name := "VK_KHR_xlib"
      origin := .extension 0
      number := some 2
      blocks := [
        { kind := .require
          directives := [.value (resultValue "VK_TIMEOUT" "2"),
            .value (resultValue "VK_HIDDEN" "5")] }] }]

/-- The buckets of `overruledText`: their names, types and values. -/
def overruledBuckets : List (String × List TypeId × List ValueRef) :=
  [("", [⟨0⟩, ⟨1⟩], [⟨⟨1⟩, "VK_SUCCESS"⟩]),
    ("xlib", [], [⟨⟨1⟩, "VK_TIMEOUT"⟩, ⟨⟨1⟩, "VK_HIDDEN"⟩])]

set_option maxRecDepth 20000 in
theorem exists_overruled :
    ∃ doc r, Document.parse overruledText = .ok doc ∧
      (doc.forApi .everything).directiveSources .everything = .ok overruledSources ∧
      build overruledText .everything = .ok r ∧
      r.isActive ⟨1⟩ = true ∧ r.types.lookup? "VkResult" = some ⟨1⟩ ∧ r.types.canonical ⟨1⟩ = ⟨1⟩ ∧
      (∃ layout, r.types.enum? ⟨1⟩ = some layout ∧
        layout.values.map (·.name) = ["VK_SUCCESS", "VK_TIMEOUT", "VK_HIDDEN"]) ∧
      (∃ block, enumBlock? (doc.forApi .everything).enums (r.types.nameOf ⟨1⟩) = some block ∧
        block.values.map (·.name) = ["VK_SUCCESS", "VK_TIMEOUT"]) ∧
      (r.platforms.platforms.map fun p => (p.name, p.types, p.enumValues)) = overruledBuckets := by
  obtain ⟨doc, sources, r, hdoc, hsources, hr, hfacts⟩ :
      ∃ doc sources r, Document.parse overruledText = .ok doc ∧
        (doc.forApi .everything).directiveSources .everything = .ok sources ∧
        build overruledText .everything = .ok r ∧
        (sources == overruledSources && r.isActive ⟨1⟩ &&
          r.types.lookup? "VkResult" == some ⟨1⟩ && r.types.canonical ⟨1⟩ == ⟨1⟩ &&
          (r.types.enum? ⟨1⟩).map (fun layout => layout.values.map (·.name)) ==
            some ["VK_SUCCESS", "VK_TIMEOUT", "VK_HIDDEN"] &&
          (enumBlock? (doc.forApi .everything).enums (r.types.nameOf ⟨1⟩)).map
            (fun block => block.values.map (·.name)) == some ["VK_SUCCESS", "VK_TIMEOUT"] &&
          (r.platforms.platforms.map fun p => (p.name, p.types, p.enumValues)) ==
            overruledBuckets) = true :=
    exists_buildWithSources_of_any (by decide +kernel)
  simp only [Bool.and_eq_true, beq_iff_eq] at hfacts
  obtain ⟨⟨⟨⟨⟨⟨hsame, hactive⟩, hlookup⟩, hcanonical⟩, hlayout⟩, hblock⟩, hbuckets⟩ := hfacts
  rw [hsame] at hsources
  exact ⟨doc, r, hdoc, hsources, hr, hactive, hlookup, hcanonical,
    Option.map_eq_some_iff.mp hlayout, Option.map_eq_some_iff.mp hblock, hbuckets⟩

/-- All values in `overruledText` that directives give are given to `VkResult`. -/
theorem eq_of_definedSinceRemoval_overruledSources {types : TypeTable}
    (hlookup : types.lookup? "VkResult" = some ⟨1⟩) (hcanonical : types.canonical ⟨1⟩ = ⟨1⟩)
    {other : TypeId} {name : String}
    (h : DefinedSinceRemoval types other name (applications overruledSources)) : other = ⟨1⟩ := by
  obtain ⟨a, ha, -, d, extended, id, hvalue, -, -, hextended, hid, hstands⟩ := h
  have hmem : a ∈ applications overruledSources :=
    List.Sublist.mem ha (List.rtakeWhile_suffix _ _).sublist
  have hall : ((applications overruledSources).filterMap (·.directive.declaredValue?)).all
      (fun d => d.extended == none || d.extended == some "VkResult") = true := by decide
  have hdeclared : a.directive.declaredValue? = some d := by
    simp [hvalue, Directive.declaredValue?, ValueDirective.isReference, hextended]
  have hextends := List.all_eq_true.mp hall d (List.mem_filterMap.mpr ⟨a, hmem, hdeclared⟩)
  have hsame : extended = "VkResult" := by simpa [hextended] using hextends
  rw [hsame, hlookup, Option.some.injEq] at hid
  rw [← hstands, ← hid, hcanonical]

/-- Where the buckets are those of `overruledText`, the value that both give is not placed by
all its contributions. -/
theorem not_placedByContributions_of_overruledBuckets {r : Registry} {doc : Document}
    {run : List Application}
    (hbuckets : (r.platforms.platforms.map fun p => (p.name, p.types, p.enumValues)) =
      overruledBuckets)
    (hown : doc.OwnBlockDeclares r.types ⟨1⟩ "VK_TIMEOUT") :
    ¬ r.PlacedByContributions doc run ⟨1⟩ "VK_TIMEOUT" := by
  have hfirst := congrArg (·[0]?) hbuckets
  simp only [List.getElem?_map, overruledBuckets, List.getElem?_cons_zero,
    Option.map_eq_some_iff, Prod.mk.injEq] at hfirst
  obtain ⟨core, hcore, -, htypes, hvalues⟩ := hfirst
  have hlists : r.CoreLists ⟨1⟩ :=
    ⟨core, by rw [PlatformTable.core?, List.head?_eq_getElem?, hcore], by simp [htypes]⟩
  intro hplaced
  obtain ⟨p, hp, hmem⟩ := hplaced.core (Or.inl ⟨hown, hlists⟩)
  have hsame : p = core := Option.some.inj (hp.symm.trans hcore)
  rw [hsame, hvalues] at hmem
  exact absurd hmem (by decide)

/-- In `overruledText`, the extension's own value is placed by all its contributions, and the
value that the block has as well is overruled. -/
theorem valuePlacement_overruledText :
    ∃ r doc sources, build overruledText .everything = .ok r ∧
      Document.parse overruledText = .ok doc ∧
      (doc.forApi .everything).directiveSources .everything = .ok sources ∧
      r.PlacedByContributions (doc.forApi .everything) (applications sources) ⟨1⟩ "VK_HIDDEN" ∧
      r.PlacedByDirectives (applications sources) ⟨1⟩ "VK_TIMEOUT" ∧
      r.Overruled (doc.forApi .everything) (applications sources) ⟨1⟩ "VK_TIMEOUT" := by
  obtain ⟨doc, r, hdoc, hsources, hr, hactive, hlookup, hcanonical, ⟨layout, hlayout, hnames⟩,
    ⟨block, hblock, hdeclared⟩, hbuckets⟩ := exists_overruled
  obtain ⟨found, sources, hfound, hfoundSources, hplacement⟩ := valuePlacement hr
  rw [hdoc, Except.ok.injEq] at hfound
  rw [← hfound] at hfoundSources hplacement
  rw [hsources, Except.ok.injEq] at hfoundSources
  rw [← hfoundSources] at hplacement
  have hplacement' := fun name hname => hplacement ⟨1⟩ layout name hactive hlayout hname
    fun other => eq_of_definedSinceRemoval_overruledSources hlookup hcanonical
  obtain ⟨-, hhidden⟩ := hplacement' "VK_HIDDEN" (by rw [hnames]; decide)
  obtain ⟨hplaced, htimeout⟩ := hplacement' "VK_TIMEOUT" (by rw [hnames]; decide)
  have hnot : ¬ r.PlacedByContributions (doc.forApi .everything) (applications overruledSources)
      ⟨1⟩ "VK_TIMEOUT" :=
    not_placedByContributions_of_overruledBuckets hbuckets
      ⟨block, hblock, by rw [hdeclared]; decide⟩
  refine ⟨r, doc, overruledSources, hr, hdoc, hsources, hhidden.mpr ?_, hplaced,
    not_not.mp fun h => hnot (htimeout.mpr h)⟩
  rintro ⟨⟨own, hown, hmem⟩, -⟩
  have hsame : own = block := Option.some.inj (hown.symm.trans hblock)
  rw [hsame, hdeclared] at hmem
  exact absurd hmem (by decide)

/-- In `overruledText`, a value that stands in the block of an enumeration of the core is in the
bucket of a platform. -/
theorem not_placesByContributions_overruledText :
    ∃ r doc sources, build overruledText .everything = .ok r ∧
      Document.parse overruledText = .ok doc ∧
      (doc.forApi .everything).directiveSources .everything = .ok sources ∧
      ¬ r.PlacesByContributions (doc.forApi .everything) sources := by
  obtain ⟨doc, r, hdoc, hsources, hr, hactive, hlookup, hcanonical, ⟨layout, hlayout, hnames⟩,
    ⟨block, hblock, hdeclared⟩, hbuckets⟩ := exists_overruled
  refine ⟨r, doc, overruledSources, hr, hdoc, hsources, ?_⟩
  intro hplaces
  have hplaced := hplaces ⟨1⟩ layout "VK_TIMEOUT" hactive hlayout (by rw [hnames]; decide)
    fun other => eq_of_definedSinceRemoval_overruledSources hlookup hcanonical
  exact not_placedByContributions_of_overruledBuckets hbuckets
    ⟨block, hblock, by rw [hdeclared]; decide⟩ hplaced

end Registry

end VulkanRegistry
