/-
Which directives a build applies.

Every core version that the interface has is a source of directives, and so is every selected
extension.  From both, exactly the blocks are applied whose dependencies hold among the names
of these versions and extensions, so what is applied can be told without the order of
application: a block of the document, who holds it, and whether it holds.
-/
import VulkanRegistry.Proofs.Registry.Fill

namespace VulkanRegistry

/-- What the block depends on holds among the given names. -/
def DirectiveBlock.Holds (active : List String) (block : DirectiveBlock) : Prop :=
  ∀ expr, block.depends = some expr → Dependency.evaluate expr active.contains = .ok true

/-- A core version of the document has the block, or one of these extensions does; then
`holder` is the number of the extension. -/
def Document.HasBlock (doc : Document) (extensions : List ExtensionDecl) (holder : Option Nat)
    (block : DirectiveBlock) : Prop :=
  (holder = none ∧ ∃ feature ∈ doc.features, block ∈ feature.blocks) ∨
    ∃ ext ∈ extensions, holder = some ext.number ∧ block ∈ ext.blocks

theorem mem_applicableBlocks {active : List String} {blocks applicable : List DirectiveBlock}
    (h : applicableBlocks active blocks = .ok applicable) {block : DirectiveBlock} :
    block ∈ applicable ↔ block ∈ blocks ∧ block.Holds active := by
  rw [Outcome.mem_filterM h]
  refine and_congr_right fun _ => ?_
  unfold DirectiveBlock.Holds
  cases hdepends : block.depends with
  | none => simp
  | some expr => simp

theorem featureSource_spec {active : List String} {decl : FeatureDecl} {place : Nat}
    {pair : Feature × DirectiveSource} (h : featureSource active decl place = .ok pair) :
    pair.2.number = none ∧
      ∀ block, block ∈ pair.2.blocks ↔ block ∈ decl.blocks ∧ block.Holds active := by
  obtain ⟨blocks, hblocks, h⟩ := Outcome.bind_eq_ok.mp h
  obtain ⟨feature, -, h⟩ := Outcome.bind_eq_ok.mp h
  rw [Outcome.pure_eq_ok] at h
  rw [← h]
  exact ⟨rfl, fun _ => mem_applicableBlocks hblocks⟩

theorem extensionSource_spec {active : List String} {decl : ExtensionDecl} {place : Nat}
    {pair : Extension × DirectiveSource} (h : extensionSource active decl place = .ok pair) :
    pair.2.number = some decl.number ∧
      ∀ block, block ∈ pair.2.blocks ↔ block ∈ decl.blocks ∧ block.Holds active := by
  obtain ⟨blocks, hblocks, h⟩ := Outcome.bind_eq_ok.mp h
  rw [Outcome.pure_eq_ok] at h
  rw [← h]
  exact ⟨rfl, fun _ => mem_applicableBlocks hblocks⟩

theorem Document.mem_heldDirectives {doc : Document} {holder : Option Nat} {d : Directive} :
    (holder, d) ∈ doc.heldDirectives ↔
      ∃ block, doc.HasBlock doc.extensions holder block ∧ d ∈ block.directives := by
  unfold heldDirectives HasBlock
  simp only [List.mem_append, List.mem_flatMap, List.mem_map, Prod.mk.injEq]
  constructor
  · rintro (⟨feature, hfeature, _, ⟨block, hblock, hd⟩, rfl, rfl⟩ |
      ⟨ext, hext, _, ⟨block, hblock, hd⟩, rfl, rfl⟩)
    · exact ⟨block, Or.inl ⟨rfl, feature, hfeature, hblock⟩, hd⟩
    · exact ⟨block, Or.inr ⟨ext, hext, rfl, hblock⟩, hd⟩
  · rintro ⟨block, ⟨rfl, feature, hfeature, hblock⟩ | ⟨ext, hext, rfl, hblock⟩, hd⟩
    · exact Or.inl ⟨feature, hfeature, d, ⟨block, hblock, hd⟩, rfl, rfl⟩
    · exact Or.inr ⟨ext, hext, d, ⟨block, hblock, hd⟩, rfl, rfl⟩

theorem mem_applications {sources : List DirectiveSource} {a : Application} :
    a ∈ applications sources ↔
      a.source ∈ sources ∧ ∃ block ∈ a.source.blocks, block.kind = a.kind ∧
        a.directive ∈ block.directives := by
  obtain ⟨source, kind, directive⟩ := a
  simp only [applications, DirectiveSource.directives, List.mem_flatMap, List.mem_map]
  constructor
  · rintro ⟨found, hfound, pair, ⟨block, hblock, d, hd, rfl⟩, heq⟩
    simp only [Application.mk.injEq] at heq
    obtain ⟨rfl, rfl, rfl⟩ := heq
    exact ⟨hfound, block, hblock, rfl, hd⟩
  · rintro ⟨hsource, block, hblock, rfl, hd⟩
    exact ⟨source, hsource, _, ⟨block, hblock, directive, hd, rfl⟩, rfl⟩

namespace Registry.Steps

variable {doc : Document} {options : RegistryOptions} (s : Steps doc options)

theorem selected_eq_filter : s.selected = doc.extensions.filter (ExtensionDecl.isSelected options) := by
  obtain ⟨-, -, h⟩ := Outcome.bind_eq_ok.mp s.selected_eq
  exact (Except.ok.inj h).symm

theorem mem_selected {ext : ExtensionDecl} :
    ext ∈ s.selected ↔ ext ∈ doc.extensions ∧ ext.isSelected options = true := by
  rw [selected_eq_filter, List.mem_filter]

theorem extensionNames_eq : s.registry.extensions.map (·.name) = s.selected.map (·.name) := by
  show (s.extensionSources.map (·.1)).map (·.name) = _
  have hkeep : s.extensionSources.map (fun pair => pair.1.name) =
      s.selected.zipIdx.map fun placed => placed.1.name := by
    refine Outcome.map_eq_of_mapM ?_ s.extensions_eq
    intro placed _ pair hread
    obtain ⟨blocks, -, hread⟩ := Outcome.bind_eq_ok.mp hread
    rw [Outcome.pure_eq_ok] at hread
    rw [← hread]
    rfl
  have hplaces : s.selected.zipIdx.map (fun placed => placed.1.name) =
      (s.selected.zipIdx.map Prod.fst).map (·.name) := by
    rw [List.map_map]
    rfl
  rw [List.map_map, ← List.zipIdx_map_fst 0 s.selected, ← hplaces, ← hkeep]
  rfl

/-- The blocks that are applied are those of versions and of selected extensions that hold. -/
theorem mem_blocks_iff {holder : Option Nat} {block : DirectiveBlock} :
    (∃ source ∈ s.sources, source.number = holder ∧ block ∈ source.blocks) ↔
      doc.HasBlock s.selected holder block ∧ block.Holds (doc.activeNames s.selected) := by
  unfold sources
  constructor
  · rintro ⟨source, hsource, rfl, hblock⟩
    rcases List.mem_append.mp hsource with hsource | hsource
    · obtain ⟨pair, hpair, rfl⟩ := List.mem_map.mp hsource
      obtain ⟨⟨decl, place⟩, hdecl, hread⟩ := Outcome.exists_of_mem_mapM s.features_eq hpair
      obtain ⟨hnumber, hblocks⟩ := featureSource_spec hread
      obtain ⟨hmem, hholds⟩ := (hblocks block).mp hblock
      exact ⟨Or.inl ⟨hnumber, decl, List.fst_mem_of_mem_zipIdx hdecl, hmem⟩, hholds⟩
    · obtain ⟨pair, hpair, rfl⟩ := List.mem_map.mp hsource
      obtain ⟨⟨decl, place⟩, hdecl, hread⟩ := Outcome.exists_of_mem_mapM s.extensions_eq hpair
      obtain ⟨hnumber, hblocks⟩ := extensionSource_spec hread
      obtain ⟨hmem, hholds⟩ := (hblocks block).mp hblock
      exact ⟨Or.inr ⟨decl, List.fst_mem_of_mem_zipIdx hdecl, hnumber, hmem⟩, hholds⟩
  · rintro ⟨⟨rfl, decl, hdecl, hmem⟩ | ⟨decl, hdecl, rfl, hmem⟩, hholds⟩
    · obtain ⟨place, hplace⟩ := List.mem_iff_getElem?.mp hdecl
      obtain ⟨pair, hpair, hread⟩ := Outcome.exists_mem_of_mapM s.features_eq
        (List.mk_mem_zipIdx_iff_getElem?.mpr hplace)
      obtain ⟨hnumber, hblocks⟩ := featureSource_spec hread
      exact ⟨pair.2, List.mem_append_left _ (List.mem_map_of_mem hpair), hnumber,
        (hblocks block).mpr ⟨hmem, hholds⟩⟩
    · obtain ⟨place, hplace⟩ := List.mem_iff_getElem?.mp hdecl
      obtain ⟨pair, hpair, hread⟩ := Outcome.exists_mem_of_mapM s.extensions_eq
        (List.mk_mem_zipIdx_iff_getElem?.mpr hplace)
      obtain ⟨hnumber, hblocks⟩ := extensionSource_spec hread
      exact ⟨pair.2, List.mem_append_right _ (List.mem_map_of_mem hpair), hnumber,
        (hblocks block).mpr ⟨hmem, hholds⟩⟩

/-- Each directive that is applied stands in a block that is. -/
theorem exists_block_of_application {a : Application} (ha : a ∈ applications s.sources) :
    ∃ block, doc.HasBlock s.selected a.source.number block ∧
      block.Holds (doc.activeNames s.selected) ∧ block.kind = a.kind ∧
        a.directive ∈ block.directives := by
  obtain ⟨hsource, block, hblock, hkind, hd⟩ := mem_applications.mp ha
  obtain ⟨hhas, hholds⟩ := s.mem_blocks_iff.mp ⟨a.source, hsource, rfl, hblock⟩
  exact ⟨block, hhas, hholds, hkind, hd⟩

/-- Each directive of a block that is applied is applied. -/
theorem exists_application_of_block {holder : Option Nat} {block : DirectiveBlock}
    (hhas : doc.HasBlock s.selected holder block)
    (hholds : block.Holds (doc.activeNames s.selected)) {d : Directive} (hd : d ∈ block.directives) :
    ∃ a ∈ applications s.sources, a.source.number = holder ∧ a.kind = block.kind ∧
      a.directive = d := by
  obtain ⟨source, hsource, hnumber, hblock⟩ := s.mem_blocks_iff.mpr ⟨hhas, hholds⟩
  exact ⟨⟨source, block.kind, d⟩, mem_applications.mpr ⟨hsource, block, hblock, rfl, hd⟩, hnumber,
    rfl, rfl⟩

end Registry.Steps

/-- A document has the blocks of more extensions. -/
theorem Document.HasBlock.mono {doc : Document} {extensions others : List ExtensionDecl}
    {holder : Option Nat} {block : DirectiveBlock} (h : doc.HasBlock extensions holder block)
    (hsubset : ∀ ext ∈ extensions, ext ∈ others) : doc.HasBlock others holder block := by
  rcases h with hfeature | ⟨ext, hext, hrest⟩
  · exact Or.inl hfeature
  · exact Or.inr ⟨ext, hsubset ext hext, hrest⟩

end VulkanRegistry
