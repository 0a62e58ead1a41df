/-
Wanting more loses nothing.

Two builds of one document for one interface differ in what they select.  If the second one
selects all that the first one does, more names are there for dependencies to hold among, so
it applies every directive that the first one applies.  What it does about them differs in
order, in origins and in places; but where nothing is ever removed, what is in use depends on
none of these, only on which directives there are.
-/
import VulkanRegistry.Proofs.Activation.RequireOnly
import VulkanRegistry.Proofs.Enumeration.Merge
import VulkanRegistry.Proofs.Registry.Commands
import VulkanRegistry.Proofs.Registry.References
import VulkanRegistry.Proofs.Registry.Sources
import VulkanRegistry.Proofs.Selection

namespace VulkanRegistry

/-- No block of the document takes anything out. -/
def Document.RequiresOnly (doc : Document) : Prop :=
  ∀ block ∈ doc.blocks, block.kind = .require

instance (doc : Document) : Decidable doc.RequiresOnly :=
  inferInstanceAs (Decidable (∀ block ∈ doc.blocks, block.kind = .require))

theorem mem_blocksForApi {options : RegistryOptions} {blocks : List DirectiveBlock}
    {block : DirectiveBlock} (h : block ∈ blocksForApi options blocks) :
    ∃ whole ∈ blocks, block.kind = whole.kind := by
  obtain ⟨whole, hwhole, rfl⟩ := List.mem_map.mp h
  exact ⟨whole, (List.mem_filter.mp hwhole).1, rfl⟩

theorem Document.RequiresOnly.forApi {doc : Document} (h : doc.RequiresOnly)
    (options : RegistryOptions) : (doc.forApi options).RequiresOnly := by
  intro block hblock
  unfold blocks at hblock
  rcases List.mem_append.mp hblock with hblock | hblock
  · obtain ⟨feature, hfeature, hblock⟩ := List.mem_flatMap.mp hblock
    obtain ⟨declared, hdeclared, rfl⟩ := List.mem_map.mp hfeature
    obtain ⟨whole, hwhole, hkind⟩ := mem_blocksForApi hblock
    rw [hkind]
    exact h whole (List.mem_append_left _
      (List.mem_flatMap.mpr ⟨declared, (List.mem_filter.mp hdeclared).1, hwhole⟩))
  · obtain ⟨ext, hext, hblock⟩ := List.mem_flatMap.mp hblock
    obtain ⟨declared, hdeclared, rfl⟩ := List.mem_map.mp hext
    obtain ⟨whole, hwhole, hkind⟩ := mem_blocksForApi hblock
    rw [hkind]
    exact h whole (List.mem_append_right _ (List.mem_flatMap.mpr ⟨declared, hdeclared, hwhole⟩))

theorem Document.mem_blocks_of_hasBlock {doc : Document} {holder : Option Nat}
    {block : DirectiveBlock} (h : doc.HasBlock doc.extensions holder block) :
    block ∈ doc.blocks := by
  rcases h with ⟨-, feature, hfeature, hblock⟩ | ⟨ext, hext, -, hblock⟩
  · exact List.mem_append_left _ (List.mem_flatMap.mpr ⟨feature, hfeature, hblock⟩)
  · exact List.mem_append_right _ (List.mem_flatMap.mpr ⟨ext, hext, hblock⟩)

theorem DirectiveBlock.Holds.mono {active others : List String} {block : DirectiveBlock}
    (h : block.Holds active) (hsubset : ∀ name ∈ active, name ∈ others) : block.Holds others := by
  intro expr hexpr
  refine Dependency.evaluate_mono ?_ (h expr hexpr)
  intro name hname
  rw [List.contains_iff_mem] at hname ⊢
  exact hsubset name hname

namespace Registry

/-- The second registry has all that the first one has: the same types, and in use whatever
is in use in the first one. -/
structure Within (small large : Registry) : Prop where
  extensions : (small.extensions.map (·.name)).Sublist (large.extensions.map (·.name))
  typeNames : large.types.names = small.types.names
  types : ∀ id, small.isActive id = true → large.isActive id = true
  commands : ∀ name, small.commands.contains name = true → large.commands.contains name = true
  values : ∀ id layout, small.types.enum? id = some layout →
    ∃ other, large.types.enum? id = some other ∧
      ∀ value ∈ layout.values, value.name ∈ other.values.map (·.name)

namespace Steps

variable {doc : Document} {small large : RegistryOptions} (s : Steps doc small)
  (t : Steps doc large)

/-! ### What the second build applies -/

theorem linked_eq_linked : t.linked = s.linked :=
  Except.ok.inj (t.linked_eq.symm.trans s.linked_eq)

theorem outline_eq_outline : t.types.outline = s.types.outline := by
  rw [t.outline_types, s.outline_types, s.linked_eq_linked t]

/-- Where no block takes anything out, no directive does. -/
theorem requiresOnly (h : doc.RequiresOnly) : RequiresOnly (applications s.sources) := by
  intro a ha
  obtain ⟨block, hhas, -, hkind, -⟩ := s.exists_block_of_application ha
  rw [← hkind]
  exact h block (Document.mem_blocks_of_hasBlock
    (hhas.mono fun ext hext => (s.mem_selected.mp hext).1))

variable (hle : small.AtMost large)

include hle

theorem selected_sublist : s.selected.Sublist t.selected := by
  rw [s.selected_eq_filter, t.selected_eq_filter]
  exact List.monotone_filter_right _ fun ext => ExtensionDecl.isSelected_mono hle

/-- The second build applies all directives that the first one applies. -/
theorem exists_application {a : Application} (ha : a ∈ applications s.sources) :
    ∃ b ∈ applications t.sources, b.kind = a.kind ∧ b.directive = a.directive := by
  have hsub := s.selected_sublist t hle
  obtain ⟨block, hhas, hholds, hkind, hd⟩ := s.exists_block_of_application ha
  have hmore : block.Holds (doc.activeNames t.selected) := by
    refine hholds.mono ?_
    intro name hname
    rcases List.mem_append.mp hname with hname | hname
    · exact List.mem_append_left _ hname
    · exact List.mem_append_right _ ((hsub.map _).subset hname)
  obtain ⟨b, hb, -, hkind', hdirective⟩ := t.exists_application_of_block
    (hhas.mono fun ext hext => hsub.subset hext) hmore hd
  exact ⟨b, hb, hkind'.trans hkind, hdirective⟩

variable (hrequires : doc.RequiresOnly)

include hrequires

/-! ### What is in use -/

/-- What is active in the first build is active in the second one. -/
theorem record_isActive_mono {e : Entity} (h : (s.set.record e).isActive = true) :
    (t.set.record e).isActive = true := by
  obtain ⟨a, ha, hreaches⟩ := (s.between.isActive_iff s.closed e).mp h
  obtain ⟨x, hx, htarget⟩ := ((s.requiresOnly hrequires).isActive_iff s.applied_eq a).mp ha
  obtain ⟨y, hy, -, hsame⟩ := s.exists_application t hle hx
  rw [← s.linked_eq_linked t, ← hsame] at htarget
  rw [← s.linked_eq_linked t] at hreaches
  exact (t.between.isActive_iff t.closed e).mpr
    ⟨a, ((t.requiresOnly hrequires).isActive_iff t.applied_eq a).mpr ⟨y, hy, htarget⟩, hreaches⟩

theorem isActive_mono {id : TypeId} (h : s.isActive id = true) : t.isActive id = true := by
  rw [t.isActive_iff]
  exact (s.isActive_iff.mp h).imp_left (s.record_isActive_mono t hle hrequires (e := .type id))

theorem contains_mono {name : String} (h : s.commands.contains name = true) :
    t.commands.contains name = true := by
  obtain ⟨⟨place, decl⟩, hplaced, hname⟩ := s.contains_commands_iff.mp h
  obtain ⟨hdecl, hactive⟩ := EntityIndex.mem_active.mp hplaced
  exact t.contains_commands_iff.mpr ⟨(place, decl), EntityIndex.mem_active.mpr ⟨hdecl,
    s.record_isActive_mono t hle hrequires (e := .command place) hactive⟩, hname⟩

/-! ### Values -/

/-- What a directive adds to an enumeration in the first build is added in the second one. -/
theorem hasValue_mono {id : TypeId} {name : String} (h : s.set.HasValue id name) :
    t.set.HasValue id name := by
  unfold ActiveSet.HasValue at h ⊢
  rw [s.between.values] at h
  rw [t.between.values]
  obtain ⟨a, ha, hkind, hdefines⟩ :=
    ((s.requiresOnly hrequires).hasValue_iff s.applied_eq).mp h
  obtain ⟨b, hb, hkind', hsame⟩ := s.exists_application t hle ha
  refine ((t.requiresOnly hrequires).hasValue_iff t.applied_eq).mpr ⟨b, hb, hkind'.trans hkind, ?_⟩
  rw [hsame, s.linked_eq_linked t]
  exact hdefines

omit hle in
/-- No value of a block is taken out. -/
theorem blockValues_eq (block : Option EnumBlock) :
    s.set.blockValues block = (block.map (·.values)).getD [] := by
  have hremoved : s.set.removedValues = [] := by
    rw [s.between.removedValues]
    exact (s.requiresOnly hrequires).removedValues_eq s.applied_eq
  unfold ActiveSet.blockValues
  rw [List.filter_eq_self]
  intro value _
  simp [ActiveSet.isValueRemoved, hremoved]

theorem values_mono {id : TypeId} {layout other : EnumLayout}
    (hlayout : s.types.enum? id = some layout) (hother : t.types.enum? id = some other)
    {value : EnumValue} (hvalue : value ∈ layout.values) :
    value.name ∈ other.values.map (·.name) := by
  have hactive : s.isActive id = true := by
    by_contra hidle
    rw [s.values_of_not_isActive hlayout (by simpa using hidle)] at hvalue
    simp at hvalue
  obtain ⟨_, -, hmerged⟩ := s.exists_mergedValues hlayout hactive
  obtain ⟨_, -, hmerged'⟩ :=
    t.exists_mergedValues hother (s.isActive_mono t hle hrequires hactive)
  rw [TypeTable.nameOf_eq_of_outline (s.outline_eq_outline t)] at hmerged'
  rw [mem_names_mergedValues hmerged', t.blockValues_eq hrequires]
  have hname := (mem_names_mergedValues hmerged).mp (List.mem_map_of_mem hvalue)
  rw [s.blockValues_eq hrequires] at hname
  exact hname.imp_right (s.hasValue_mono t hle hrequires)

theorem within : s.registry.Within t.registry := by
  refine ⟨?extensions, ?typeNames, ?types, ?commands, ?values⟩
  case extensions =>
    rw [s.extensionNames_eq, t.extensionNames_eq]
    exact (s.selected_sublist t hle).map _
  case typeNames => exact TypeTable.names_eq_of_outline (s.outline_eq_outline t)
  case types =>
    intro id h
    obtain ⟨hlt, hactive⟩ := s.registry_isActive_iff.mp h
    rw [← TypeTable.size_eq_of_outline (s.outline_eq_outline t)] at hlt
    exact t.registry_isActive_iff.mpr ⟨hlt, s.isActive_mono t hle hrequires hactive⟩
  case commands =>
    intro name h
    exact s.contains_mono t hle hrequires h
  case values =>
    intro id layout (hlayout : s.types.enum? id = some layout)
    have hsome : (t.types.enum? id).isSome = true := by
      rw [t.isSome_enum?, s.linked_eq_linked t, ← s.isSome_enum?, hlayout]
      rfl
    obtain ⟨other, hother⟩ := Option.isSome_iff_exists.mp hsome
    exact ⟨other, hother, fun value hvalue => s.values_mono t hle hrequires hlayout hother hvalue⟩

end Steps

/-- A document without blocks that take anything out loses nothing to options that want more. -/
theorem ofDocument_mono {doc : Document} {small large : RegistryOptions} {r other : Registry}
    (hrequires : doc.RequiresOnly) (hle : small.AtMost large)
    (h : ofDocument (doc.forApi small) small = .ok r)
    (hother : ofDocument (doc.forApi large) large = .ok other) : r.Within other := by
  -- Both options name the same interface, so both builds start from the same document.
  rw [doc.forApi_congr hle.api] at hother
  obtain ⟨s, rfl⟩ := exists_steps h
  obtain ⟨t, rfl⟩ := exists_steps hother
  exact s.within t hle (hrequires.forApi small)

/--
**Wanting more loses nothing.**  If no block of a document takes anything out, a build with
options that want whatever other options want has all extensions, types, commands and values
that the build with those has.
-/
theorem build_mono {source : String} {doc : Document} {small large : RegistryOptions}
    {r other : Registry} (hdoc : Document.parse source = .ok doc) (hrequires : doc.RequiresOnly)
    (hle : small.AtMost large) (h : build source small = .ok r)
    (hother : build source large = .ok other) : r.Within other := by
  obtain ⟨first, hfirst, h⟩ := build_eq_ok.mp h
  obtain ⟨second, hsecond, hother⟩ := build_eq_ok.mp hother
  rw [hdoc, Except.ok.injEq] at hfirst hsecond
  rw [← hfirst] at h
  rw [← hsecond] at hother
  exact ofDocument_mono hrequires hle h hother

/-- An extension that gives more next to another one, which is for a platform. -/
def surfaceText : String :=
  "<registry><platforms>
<platform name='xlib' protect='VK_USE_PLATFORM_XLIB_KHR' comment='X'/></platforms>
<types><type name='void'/><type name='Display'/><type category='enum' name='VkResult'/></types>
<enums name='VkResult' type='enum'><enum name='VK_SUCCESS' value='0'/></enums>
<commands><command><proto><type>VkResult</type> <name>vkShow</name></proto></command>
<command><proto><type>void</type> <name>vkHide</name></proto>
<param><type>Display</type>* <name>display</name></param></command></commands>
<feature name='VK_VERSION_1_0' number='1.0'><require><type name='VkResult'/></require></feature>
<extensions>
<extension name='VK_KHR_xlib' number='1' author='KHR' platform='xlib' supported='vulkan'>
<require><type name='Display'/></require></extension>
<extension name='VK_KHR_surface' number='2' author='KHR' supported='vulkan'>
<require><command name='vkShow'/></require>
<require depends='VK_VERSION_1_0+VK_KHR_xlib'><command name='vkHide'/>
<enum extends='VkResult' name='VK_HIDDEN' offset='1'/></require>
</extension></extensions></registry>"

theorem standard_atMost_everything : RegistryOptions.AtMost .standard .everything where
  api := rfl
  platforms _ _ := rfl
  authors _ _ := rfl
  allowed _ h := h
  blocked _ h := h

set_option maxRecDepth 20000 in
/-- `surfaceText` removes nothing and builds with both options; with the second ones, the first
extension is there and what depends on it. -/
theorem mono_surfaceText :
    ∃ r other doc, Document.parse surfaceText = .ok doc ∧ doc.RequiresOnly ∧
      RegistryOptions.AtMost .standard .everything ∧
      build surfaceText .standard = .ok r ∧ build surfaceText .everything = .ok other ∧
      r.Within other ∧ r.extensions.map (·.name) = ["VK_KHR_surface"] ∧
      r.commands.commands.map (·.name) = ["vkShow"] ∧
      other.extensions.map (·.name) = ["VK_KHR_xlib", "VK_KHR_surface"] ∧
      other.commands.commands.map (·.name) = ["vkShow", "vkHide"] := by
  have hparse : Document.parse surfaceText = _ := Document.parse_ofList _
  have hdoc : (Document.parse surfaceText).toOption.any (fun doc => decide doc.RequiresOnly) =
      true := by
    rw [hparse]
    decide +kernel
  obtain ⟨doc, hdoc, hrequires⟩ := Outcome.exists_ok_of_any hdoc
  obtain ⟨r, hr, hnames⟩ : ∃ r, build surfaceText .standard = .ok r ∧
      (r.extensions.map (·.name) == ["VK_KHR_surface"] &&
        r.commands.commands.map (·.name) == ["vkShow"]) = true :=
    exists_build_of_any (by decide +kernel)
  obtain ⟨other, hother, hmore⟩ : ∃ other, build surfaceText .everything = .ok other ∧
      (other.extensions.map (·.name) == ["VK_KHR_xlib", "VK_KHR_surface"] &&
        other.commands.commands.map (·.name) == ["vkShow", "vkHide"]) = true :=
    exists_build_of_any (by decide +kernel)
  rw [Bool.and_eq_true, beq_iff_eq, beq_iff_eq] at hnames hmore
  have hrequires := of_decide_eq_true hrequires
  exact ⟨r, other, doc, hdoc, hrequires, standard_atMost_everything, hr, hother,
    build_mono hdoc hrequires standard_atMost_everything hr hother, hnames.1, hnames.2, hmore.1,
    hmore.2⟩

end Registry

end VulkanRegistry
