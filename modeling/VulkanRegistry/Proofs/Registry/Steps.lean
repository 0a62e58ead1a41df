/-
The steps of a build that succeeded.

A build runs through its phases in a fixed order, and a registry exists only if all of them
succeeded.  `Steps` keeps what every phase made, with the evidence that it did, so what is
known of one phase can be brought to bear on the registry that they end in.

The phases start from a document, and how that was read is nothing to them.  So what is true of
a registry is said of the document first (`ofDocument`), and of a text because that is read into
a document (`build_eq_ok`).
-/
import VulkanRegistry.Proofs.Activation.Closure
import VulkanRegistry.Registry.Build

namespace VulkanRegistry

/-! ### Reading characters -/

/-- The root element of a document, given its characters. -/
def Markup.Element.ofChars (cs : List Char) : Outcome Markup.Element :=
  Markup.Element.ofScan
    (Markup.scanFrom [] 0 ((Text.afterStart? [Markup.byteOrderMark] cs).getD cs))

/-- A text is read through its characters. -/
theorem Markup.Element.parse_eq_ofChars (text : String) :
    Markup.Element.parse text = Markup.Element.ofChars text.toList := rfl

theorem Document.parse_ofList (cs : List Char) :
    Document.parse (String.ofList cs) = (Markup.Element.ofChars cs >>= Document.ofElement) := by
  rw [Document.parse, Markup.Element.parse_eq_ofChars, String.toList_ofList]

namespace Registry

/-! ### The phases -/

/-- What the phases of a build make of a filtered document. -/
structure Steps (doc : Document) (options : RegistryOptions) where
  linked : TypeTable
  coreConstants : ConstantTable
  selected : List ExtensionDecl
  featureSources : List (Feature × DirectiveSource)
  extensionSources : List (Extension × DirectiveSource)
  applied : Progress
  set : ActiveSet
  structsFilled : TypeTable
  commands : CommandTable
  types : TypeTable
  linked_eq : (TypeTable.initial.registerAll doc.types).linked doc.enums = .ok linked
  constants_eq : doc.constants = .ok coreConstants
  selected_eq : selectExtensions doc options = .ok selected
  features_eq : doc.features.zipIdx.mapM (fun (decl, place) =>
    featureSource (doc.activeNames selected) decl place) = .ok featureSources
  extensions_eq : selected.zipIdx.mapM (fun (decl, place) =>
    extensionSource (doc.activeNames selected) decl place) = .ok extensionSources
  applied_eq : applyDirectives (featureSources.map (·.2) ++ extensionSources.map (·.2)) linked
    (EntityIndex.ofDocument doc) coreConstants = .ok applied
  set_eq : closeMentions applied.set linked (EntityIndex.ofDocument doc) = .ok set
  structs_eq : linked.fillStructs applied.constants (fun id =>
    (set.typeAt id).isActive || linked.lookup? TypeTable.stringName == some id) = .ok structsFilled
  commands_eq : buildCommands structsFilled applied.constants (EntityIndex.ofDocument doc) set
    (featureSources.map (·.1)) = .ok commands
  types_eq : structsFilled.fillEnums doc set (fun id =>
    (set.typeAt id).isActive || linked.lookup? TypeTable.stringName == some id) = .ok types

namespace Steps

variable {doc : Document} {options : RegistryOptions} (s : Steps doc options)

/-- The versions and extensions whose directives are applied, in order. -/
def sources : List DirectiveSource :=
  s.featureSources.map (·.2) ++ s.extensionSources.map (·.2)

/-- Whether a type is in use; the built-in one always is. -/
def isActive (id : TypeId) : Bool :=
  (s.set.typeAt id).isActive || s.linked.lookup? TypeTable.stringName == some id

/-- The registry that the steps end in. -/
def registry : Registry where
  types := s.types
  constants := s.applied.constants
  commands := s.commands
  features := s.featureSources.map (·.1)
  extensions := s.extensionSources.map (·.1)
  active := s.types.ids.map s.isActive
  platforms := partition doc s.types s.isActive s.set (EntityIndex.ofDocument doc) s.commands
    (s.extensionSources.map (·.1)) options
  chain := ChainTable.ofTypes s.types s.isActive
  handles := HandleInfoTable.ofCommands s.types s.commands s.isActive
  version := apiVersion s.types (s.featureSources.map (·.1))

end Steps

/-- A registry exists only behind all steps. -/
theorem exists_steps {doc : Document} {options : RegistryOptions} {r : Registry}
    (h : ofDocument doc options = .ok r) : ∃ s : Steps doc options, s.registry = r := by
  obtain ⟨linked, linked_eq, h⟩ := Outcome.bind_eq_ok.mp h
  obtain ⟨coreConstants, constants_eq, h⟩ := Outcome.bind_eq_ok.mp h
  obtain ⟨selected, selected_eq, h⟩ := Outcome.bind_eq_ok.mp h
  obtain ⟨featureSources, features_eq, h⟩ := Outcome.bind_eq_ok.mp h
  obtain ⟨extensionSources, extensions_eq, h⟩ := Outcome.bind_eq_ok.mp h
  obtain ⟨applied, applied_eq, h⟩ := Outcome.bind_eq_ok.mp h
  obtain ⟨set, set_eq, h⟩ := Outcome.bind_eq_ok.mp h
  obtain ⟨structsFilled, structs_eq, h⟩ := Outcome.bind_eq_ok.mp h
  obtain ⟨commands, commands_eq, h⟩ := Outcome.bind_eq_ok.mp h
  obtain ⟨types, types_eq, h⟩ := Outcome.bind_eq_ok.mp h
  exact ⟨⟨linked, coreConstants, selected, featureSources, extensionSources, applied, set,
    structsFilled, commands, types, linked_eq, constants_eq, selected_eq, features_eq,
    extensions_eq, applied_eq, set_eq, structs_eq, commands_eq, types_eq⟩, Except.ok.inj h⟩

/-- Building a registry is reading a document and then building from what it says about the
interface. -/
theorem build_eq_ok {source : String} {options : RegistryOptions} {r : Registry} :
    build source options = .ok r ↔
      ∃ doc, Document.parse source = .ok doc ∧ ofDocument (doc.forApi options) options = .ok r :=
  Outcome.bind_eq_ok

/-- Building a registry from characters. -/
theorem build_ofList (cs : List Char) (options : RegistryOptions) :
    build (String.ofList cs) options =
      ((Markup.Element.ofChars cs >>= Document.ofElement) >>= fun doc =>
        ofDocument (doc.forApi options) options) := by
  rw [build, Document.parse_ofList]

/-- A registry that is built from characters and passes a check. -/
theorem exists_build_of_any {cs : List Char} {options : RegistryOptions} {p : Registry → Bool}
    (h : ((Markup.Element.ofChars cs >>= Document.ofElement) >>= fun doc =>
      ofDocument (doc.forApi options) options).toOption.any p = true) :
    ∃ r, build (String.ofList cs) options = .ok r ∧ p r = true := by
  rw [build_ofList]
  exact Outcome.exists_ok_of_any h

/-! ### What is known of the phases -/

namespace Steps

variable {doc : Document} {options : RegistryOptions} (s : Steps doc options)

theorem linked_spec : s.linked.Linked doc.types :=
  TypeTable.linked_spec s.linked_eq

theorem formed : Formed s.linked (EntityIndex.ofDocument doc) s.applied.set :=
  formed_of_applyDirectives s.applied_eq

theorem between : Between s.linked (EntityIndex.ofDocument doc) s.applied.set s.set :=
  (closeMentions_spec s.linked_spec s.formed s.set_eq).1

theorem closed : Closed s.linked (EntityIndex.ofDocument doc) s.set :=
  (closeMentions_spec s.linked_spec s.formed s.set_eq).2

theorem registry_isActive {id : TypeId} (h : id.index < s.types.size) :
    s.registry.isActive id = s.isActive id := by
  have hget : (s.types.ids.map s.isActive)[id.index]? = some (s.isActive id) := by
    simp [TypeTable.ids, h]
  show ((s.types.ids.map s.isActive)[id.index]?).getD false = s.isActive id
  rw [hget]
  rfl

/-- The registry has a type in use if it has the type and the steps have it in use. -/
theorem registry_isActive_iff {id : TypeId} :
    s.registry.isActive id = true ↔ id.index < s.types.size ∧ s.isActive id = true := by
  by_cases hlt : id.index < s.types.size
  · rw [s.registry_isActive hlt]
    simp [hlt]
  · have hnone : (s.types.ids.map s.isActive)[id.index]? = none := by
      simpa [TypeTable.ids] using hlt
    have hinactive : s.registry.isActive id = false := by
      show ((s.types.ids.map s.isActive)[id.index]?).getD false = false
      rw [hnone]
      rfl
    simp [hlt, hinactive]

end Steps

end Registry

end VulkanRegistry
