/-
Code without a guard mentions nothing with one.

A closure passes origins on along mentions, so whatever a core version or an extension without
a platform brings in gives that origin to everything it mentions.  One such origin is enough
for the core, wherever else an entity comes from; and the core has no guard.
-/
import VulkanRegistry.Proofs.Registry.Partition
import VulkanRegistry.Proofs.Registry.References

namespace VulkanRegistry

/-- An origin of the entity ties it to no platform: a core version, or an extension without a
platform. -/
def ActiveSet.HasCoreOrigin (set : ActiveSet) (extensions : List Extension) (e : Entity) : Prop :=
  ∃ o ∈ (set.record e).origins, o.platform? extensions = none

/-- Any origin that ties an entity to no platform makes it core. -/
theorem bucket_eq_none {origins : List Origin} {extensions : List Extension} {o : Origin}
    (ho : o ∈ origins) (hcore : o.platform? extensions = none) :
    bucket origins extensions = none := by
  have hmapM : origins.mapM (Origin.platform? extensions) = none := by
    induction origins with
    | nil => simp at ho
    | cons first rest ih =>
        rw [List.mapM_cons]
        rcases List.mem_cons.mp ho with rfl | ho
        · rw [hcore]
          rfl
        · rw [ih ho]
          cases first.platform? extensions <;> rfl
  rw [bucket, hmapM]
  rfl

theorem PlatformTable.slot_bucket {origins : List Origin} {extensions : List Extension} {o : Origin}
    (table : PlatformTable) (ho : o ∈ origins) (hcore : o.platform? extensions = none) :
    table.slot (bucket origins extensions) = 0 := by
  rw [bucket_eq_none ho hcore]
  rfl

namespace Registry

/-- The core lists the type, and it has no guard. -/
def IsCoreType (r : Registry) (id : TypeId) : Prop :=
  (∃ core, r.platforms.core? = some core ∧ id ∈ core.types) ∧
    r.platforms.guardOfType? id = some ""

/-- The core lists the command, and it has no guard. -/
def IsCoreCommand (r : Registry) (name : String) : Prop :=
  (∃ core, r.platforms.core? = some core ∧ name ∈ core.commands) ∧
    r.platforms.guardOfCommand? name = some ""

/-- What is core in a registry for a document mentions nothing else: the ids of types that are
no structs, the names that members, parameters and results are declared with, what these
became, and the commands that names stand for. -/
structure Unguarded (r : Registry) (doc : Document) (set : ActiveSet) : Prop where
  types : ∀ e id, set.HasCoreOrigin r.extensions e →
    Mentions r.types (EntityIndex.ofDocument doc) e (.type id) → r.IsCoreType id
  names : ∀ e name, set.HasCoreOrigin r.extensions e →
    Mentions r.types (EntityIndex.ofDocument doc) e (.typeNamed name) →
      ∃ id, r.resolve name = .ok id ∧ r.IsCoreType id
  members : ∀ id layout, set.HasCoreOrigin r.extensions (.type id) →
    r.types.struct? id = some layout →
      ∀ member ∈ layout.members, member.base ≠ r.stringType → r.IsCoreType member.base
  commands : ∀ name place, (EntityIndex.ofDocument doc).command? name = some place →
    set.HasCoreOrigin r.extensions (.command place) →
      ∃ command, r.command? name = some command ∧ r.IsCoreCommand command.name ∧
        r.IsCoreType command.returnType ∧
        ∀ param ∈ command.params, param.base ≠ r.stringType → r.IsCoreType param.base

namespace Steps

variable {doc : Document} {options : RegistryOptions} (s : Steps doc options)

/-! ### The core -/

theorem exists_core : ∃ core, s.registry.platforms.platforms[0]? = some core ∧ core.guard = "" := by
  refine ⟨s.contents.fillBucket s.blank 0 (Platform.empty "" "" none), ?_, rfl⟩
  rw [s.platforms_eq, PlatformTable.Contents.platforms_filled, List.getElem?_mapIdx]
  rfl

/-- The entity has an origin that ties it to no platform. -/
abbrev HasCoreOrigin (e : Entity) : Prop :=
  s.set.HasCoreOrigin s.registry.extensions e

variable {s} in
theorem isActive_of_hasCoreOrigin {e : Entity} (h : s.HasCoreOrigin e) :
    (s.set.record e).isActive = true := by
  obtain ⟨o, ho, -⟩ := h
  exact Activation.isActive_iff.mpr ⟨o, ho⟩

/-- What a closure has in use is in use in the registry. -/
theorem isActive_of_set {id : TypeId} (h : (s.set.typeAt id).isActive = true) :
    s.registry.isActive id = true := by
  have hholds := ActiveSet.holds_of_isActive (e := .type id) h
  rw [ActiveSet.Holds, s.between.sized.1, ← TypeTable.size_eq_of_outline s.outline_types] at hholds
  exact s.registry_isActive_iff.mpr ⟨hholds, s.isActive_iff.mpr (Or.inl h)⟩

theorem isCoreType {id : TypeId} (h : s.HasCoreOrigin (.type id)) : s.registry.IsCoreType id := by
  obtain ⟨o, ho, hplatform⟩ := h
  have hactive : (s.set.typeAt id).isActive = true := Activation.isActive_iff.mpr ⟨o, ho⟩
  have hlisted : id ∈ s.contents.types := s.mem_types_iff.mpr (s.isActive_of_set hactive)
  have hslot : s.blank.slot (s.contents.placeType id) = 0 := s.blank.slot_bucket ho hplatform
  obtain ⟨core, hcore, hguard⟩ := s.exists_core
  have hmem : id ∈ core.types :=
    ((s.contents.shares_types s.blank_blank).mem_iff hcore).mpr ⟨id, hlisted, hslot, rfl⟩
  refine ⟨⟨core, by rw [PlatformTable.core?, List.head?_eq_getElem?, hcore], hmem⟩, ?_⟩
  rw [← hguard]
  exact (s.partitioned.typeGuards id).1 core (List.mem_of_getElem? hcore) hmem

theorem isCoreCommand {name : String} {place : Nat}
    (hname : (EntityIndex.ofDocument doc).command? name = some place)
    (h : s.HasCoreOrigin (.command place)) : s.registry.IsCoreCommand name := by
  obtain ⟨o, ho, hplatform⟩ := h
  have hactive : (s.set.commandAt place).isActive = true := Activation.isActive_iff.mpr ⟨o, ho⟩
  obtain ⟨decl, hdecl, hsame⟩ := EntityIndex.decl?_of_command? hname
  have hlisted : (name, s.set.commandAt place) ∈ s.contents.commands := by
    show _ ∈ activeCommandNames _ _ _
    rw [s.activeCommandNames_eq]
    exact List.mem_map.mpr
      ⟨(place, decl), EntityIndex.mem_active.mpr ⟨hdecl, hactive⟩, by rw [hsame]⟩
  have hslot : s.blank.slot (s.contents.placeCommand (name, s.set.commandAt place)) = 0 :=
    s.blank.slot_bucket ho hplatform
  obtain ⟨core, hcore, hguard⟩ := s.exists_core
  have hmem : name ∈ core.commands :=
    ((s.contents.shares_commands s.blank_blank).mem_iff hcore).mpr ⟨_, hlisted, hslot, rfl⟩
  refine ⟨⟨core, by rw [PlatformTable.core?, List.head?_eq_getElem?, hcore], hmem⟩, ?_⟩
  rw [← hguard]
  exact (s.partitioned.commandGuards name).1 core (List.mem_of_getElem? hcore) hmem

/-! ### What is mentioned -/

/-- What is in use mentions in the finished table what it mentions in the linked one. -/
theorem mentions_linked {e : Entity} (hactive : (s.set.record e).isActive = true) {m : Mention}
    (h : Mentions s.types (EntityIndex.ofDocument doc) e m) :
    Mentions s.linked (EntityIndex.ofDocument doc) e m := by
  cases e with
  | command place =>
      cases h with
      | aliased hdecl halias => exact .aliased hdecl halias
      | result hdecl halias => exact .result hdecl halias
      | parameter hdecl hparam => exact .parameter hdecl hparam
  | type id =>
      cases m with
      | command name => exact absurd h (not_mentions_command id name)
      | type ref =>
          obtain ⟨entry, hentry⟩ : ∃ entry, s.types.get? id = some entry := by
            cases h <;> exact ⟨_, ‹_›⟩
          obtain ⟨hnone, href⟩ := (mentions_type_iff hentry).mp h
          obtain ⟨linked, hlinked, hnone, hrefs⟩ := s.exists_refs hentry hnone
          exact (mentions_type_iff hlinked).mpr ⟨hnone, hrefs ▸ href⟩
      | typeNamed name =>
          cases h with
          | @member _ entry decl field hentry hkind hdecl hfield =>
              obtain ⟨layout, hlayout⟩ := Option.isSome_iff_exists.mp hkind
              obtain ⟨linked, before, found, hlinked, -, hbefore, hfound, -⟩ :=
                s.exists_struct hentry (s.isActive_iff.mpr (Or.inl hactive)) hlayout
              obtain ⟨same, hsame, houtline⟩ := TypeTable.get?_of_outline s.outline_types hentry
              rw [hlinked, Option.some.injEq] at hsame
              simp only [TypeEntry.outline, Prod.mk.injEq, ← hsame, hdecl] at houtline
              exact .member hlinked (by simp [hbefore]) houtline.2.1 hfield

/-- What mentions lead to from the core has the origin that makes it core. -/
theorem hasCoreOrigin_of_reaches {e b : Entity} (h : s.HasCoreOrigin e)
    (hreaches : Reaches s.linked (EntityIndex.ofDocument doc) e b) : s.HasCoreOrigin b := by
  obtain ⟨o, ho, hplatform⟩ := h
  exact ⟨o, s.closed.mem_origins_of_reaches hreaches ho, hplatform⟩

/-- What a name that the core mentions resolves to is core. -/
theorem isCoreType_of_resolve {e : Entity} (h : s.HasCoreOrigin e) {name referrer : String}
    {id : TypeId} (hm : Mentions s.linked (EntityIndex.ofDocument doc) e (.typeNamed name))
    (hresolve : s.linked.resolve name referrer = .ok id) : s.registry.IsCoreType id := by
  obtain ⟨found, hfound, rfl⟩ := Option.map_eq_some_iff.mp (TypeTable.resolve_eq_ok.mp hresolve)
  have hstep : MentionStep s.linked (EntityIndex.ofDocument doc) e (.type found) :=
    ⟨_, hm, by simp [Mention.entity?, hfound]⟩
  exact s.isCoreType (s.hasCoreOrigin_of_reaches h
    ((s.reaches_canonical (TypeTable.lt_size_of_lookup? hfound)).head hstep))

/-- The name of text resolves to the built-in type. -/
theorem eq_stringType_of_resolve {referrer : String} {id : TypeId}
    (h : s.linked.resolve TypeTable.stringName referrer = .ok id) : id = s.registry.stringType := by
  have hstring : s.registry.stringType = ⟨0⟩ := by
    show (s.types.lookup? TypeTable.stringName).getD ⟨0⟩ = ⟨0⟩
    rw [TypeTable.lookup?_eq_of_outline s.outline_types, s.lookup?_stringName]
    rfl
  obtain ⟨found, hfound, rfl⟩ := Option.map_eq_some_iff.mp (TypeTable.resolve_eq_ok.mp h)
  rw [s.lookup?_stringName, Option.some.injEq] at hfound
  rw [hstring, ← hfound]
  exact TypeTable.Proper.canonical_eq ⟨_, s.linked_spec.string, rfl⟩

/-- What members and parameters of the core became is core, unless it is text. -/
theorem isCoreType_of_mem_ofFields {e : Entity} (h : s.HasCoreOrigin e) {ctx : FieldContext}
    {fields : List FieldDecl} {members : List Member}
    (hctx : ctx.types.outline = s.linked.outline)
    (hfields : ∀ field ∈ fields,
      Mentions s.linked (EntityIndex.ofDocument doc) e (.typeNamed field.typeName))
    (hread : Member.ofFields ctx fields = .ok members) {m : Member} (hm : m ∈ members)
    (htext : m.base ≠ s.registry.stringType) : s.registry.IsCoreType m.base := by
  obtain ⟨name, referrer, hname, hresolve⟩ := Member.base_of_mem_ofFields hread hm
  rw [TypeTable.resolve_eq_of_outline hctx] at hresolve
  rcases hname with rfl | ⟨field, hfield, rfl⟩
  · exact absurd (s.eq_stringType_of_resolve hresolve) htext
  · exact s.isCoreType_of_resolve h (hfields field hfield) hresolve

/-- A name in the core leads to a command whose declaration is in the core with the name. -/
theorem exists_command_of_hasCoreOrigin {name : String} {place : Nat}
    (hname : (EntityIndex.ofDocument doc).command? name = some place)
    (h : s.HasCoreOrigin (.command place)) :
    ∃ command dest decl, s.registry.command? name = some command ∧
      (EntityIndex.ofDocument doc).command? command.name = some dest ∧
      (EntityIndex.ofDocument doc).decl? dest = some decl ∧
      s.HasCoreOrigin (.command dest) ∧ decl.aliasOf = none ∧
      Member.ofFields ⟨decl.name, .parameter, decl.params, s.structsFilled, s.applied.constants⟩
        decl.params = .ok command.params ∧
      s.structsFilled.resolve decl.returnType decl.name = .ok command.returnType := by
  have hactive : (s.set.commandAt place).isActive = true := isActive_of_hasCoreOrigin h
  obtain ⟨named, hnamed, hsame⟩ := EntityIndex.decl?_of_command? hname
  obtain ⟨command, hmem, hcommand, hleads⟩ :=
    s.exists_command_of_mem_active (EntityIndex.mem_active.mpr ⟨hnamed, hactive⟩)
  dsimp only at hcommand hleads
  rw [hsame] at hcommand hleads
  obtain ⟨dest, decl, hdecl, hused, halias, hown, hparams, hreturn⟩ := s.readFromDecl hmem
  have hdest : (EntityIndex.ofDocument doc).command? command.name = some dest := by
    rw [hown]
    exact s.command?_of_mem_active (EntityIndex.mem_active.mpr ⟨hdecl, hused⟩)
  have hcore := s.hasCoreOrigin_of_reaches h
    (EntityIndex.reaches_of_leads s.linked hname hleads hdest)
  exact ⟨command, dest, decl, hcommand, hdest, hdecl, hcore, halias, hparams, hreturn⟩

theorem unguarded : s.registry.Unguarded doc s.set := by
  refine ⟨?types, ?names, ?members, ?commands⟩
  case types =>
    intro e id h hm
    have hlinked := s.mentions_linked (isActive_of_hasCoreOrigin h) hm
    obtain ⟨b, hb, -⟩ := s.closed e (isActive_of_hasCoreOrigin h) _ hlinked
    rw [Mention.entity?_type hb] at hb
    exact s.isCoreType (s.hasCoreOrigin_of_reaches h (.single ⟨_, hlinked, hb⟩))
  case names =>
    intro e name h hm
    have hlinked := s.mentions_linked (isActive_of_hasCoreOrigin h) hm
    obtain ⟨b, hb, -⟩ := s.closed e (isActive_of_hasCoreOrigin h) _ hlinked
    obtain ⟨found, hfound, rfl⟩ := Mention.entity?_typeNamed hb
    have hfoundCore := s.hasCoreOrigin_of_reaches h (.single ⟨_, hlinked, hb⟩)
    refine ⟨s.types.canonical found, ?_, ?_⟩
    · have htypeId : s.registry.typeId? name = some found := by
        show (s.types.lookup? name).filter s.registry.isActive = some found
        rw [TypeTable.lookup?_eq_of_outline s.outline_types, hfound, Option.filter_some,
          s.isActive_of_set (isActive_of_hasCoreOrigin hfoundCore), if_pos rfl]
      unfold resolve
      rw [htypeId]
      rfl
    · rw [TypeTable.canonical_eq_of_outline s.outline_types]
      exact s.isCoreType (s.hasCoreOrigin_of_reaches hfoundCore
        (s.reaches_canonical (TypeTable.lt_size_of_lookup? hfound)))
  case members =>
    intro id layout h hlayout member hmember htext
    obtain ⟨entry, hentry, hstruct⟩ : ∃ entry, s.types.get? id = some entry ∧
        entry.kind.structLayout? = some layout := by
      obtain ⟨kind, hkind, hstruct⟩ := Option.bind_eq_some_iff.mp hlayout
      obtain ⟨entry, hentry, rfl⟩ := Option.map_eq_some_iff.mp hkind
      exact ⟨entry, hentry, hstruct⟩
    obtain ⟨linked, before, decl, hlinked, -, hbefore, hdecl, -, -, -, hread⟩ :=
      s.exists_struct hentry (s.isActive_iff.mpr (Or.inl (isActive_of_hasCoreOrigin h))) hstruct
    refine s.isCoreType_of_mem_ofFields h rfl ?_ hread hmember htext
    intro field hfield
    exact .member hlinked (by simp [hbefore]) hdecl hfield
  case commands =>
    intro name place hname h
    obtain ⟨command, dest, decl, hcommand, hdest, hdecl, hcore, halias, hparams, hreturn⟩ :=
      s.exists_command_of_hasCoreOrigin hname h
    refine ⟨command, hcommand, s.isCoreCommand hdest hcore, ?_, ?_⟩
    · rw [TypeTable.resolve_eq_of_outline s.outline_structsFilled] at hreturn
      exact s.isCoreType_of_resolve hcore (.result hdecl halias) hreturn
    · intro param hparam htext
      exact s.isCoreType_of_mem_ofFields hcore s.outline_structsFilled
        (fun field hfield => .parameter hdecl hfield) hparams hparam htext

end Steps

/-- Code without a guard mentions nothing with one whatever document the registry is built from. -/
theorem ofDocument_unguarded {doc : Document} {options : RegistryOptions} {r : Registry}
    (h : ofDocument doc options = .ok r) :
    ∃ s : Steps doc options, s.registry = r ∧ r.Unguarded doc s.set := by
  obtain ⟨s, rfl⟩ := exists_steps h
  exact ⟨s, rfl, s.unguarded⟩

/--
**Code without a guard mentions nothing with one.**  After every build, whatever has an origin
that ties it to no platform mentions what is in the core and has no guard: the targets of
aliases, owners, parts and underlying types, what members, parameters and results are declared
with and what they became, and the commands that other names stand for.
-/
theorem build_unguarded {source : String} {options : RegistryOptions} {r : Registry}
    (h : build source options = .ok r) :
    ∃ doc, Document.parse source = .ok doc ∧ ∃ s : Steps (doc.forApi options) options,
      s.registry = r ∧ r.Unguarded (doc.forApi options) s.set := by
  obtain ⟨doc, hdoc, h⟩ := build_eq_ok.mp h
  exact ⟨doc, hdoc, ofDocument_unguarded h⟩

/-- An extension for a platform brings in a struct that a command of a core version mentions
through an alias, a struct of its own, and another name for the command. -/
def borrowedText : String :=
  "<registry><platforms>
<platform name='xlib' protect='VK_USE_PLATFORM_XLIB_KHR' comment='X'/></platforms>
<types><type name='void'/><type category='basetype'><type>void</type> <name>VkFlags</name></type>
<type category='struct' name='VkNode'>
<member><type>VkFlags</type> <name>flags</name></member></type>
<type category='struct' name='VkNodeKHR' alias='VkNode'/>
<type category='struct' name='VkNodeXlib'>
<member><type>VkNode</type> <name>node</name></member></type></types>
<enums name='API Constants'/>
<commands><command><proto><type>void</type> <name>vkTrim</name></proto>
<param><type>VkNodeKHR</type>* <name>node</name></param></command>
<command name='vkTrimXlib' alias='vkTrim'/></commands>
<feature name='VK_VERSION_1_0' number='1.0'><require><command name='vkTrim'/></require></feature>
<extensions>
<extension name='VK_KHR_xlib' number='2' author='KHR' platform='xlib' supported='vulkan'>
<require><type name='VkNode'/><type name='VkNodeXlib'/><command name='vkTrimXlib'/></require>
</extension></extensions></registry>"

set_option maxRecDepth 20000 in
/-- `borrowedText` builds, and of what its extension brings in only what is its own is behind
the guard. -/
theorem unguarded_borrowedText :
    ∃ r doc, build borrowedText .everything = .ok r ∧ Document.parse borrowedText = .ok doc ∧
      (∃ s : Steps (doc.forApi .everything) .everything,
        s.registry = r ∧ r.Unguarded (doc.forApi .everything) s.set) ∧
      (r.platforms.platforms.map fun p => (p.guard, p.types.map r.types.nameOf, p.commands)) =
        [("", ["string", "void", "VkFlags", "VkNode", "VkNodeKHR"], ["vkTrim"]),
          ("VK_USE_PLATFORM_XLIB_KHR", ["VkNodeXlib"], ["vkTrimXlib"])] := by
  obtain ⟨r, hr, hbuckets⟩ : ∃ r, build borrowedText .everything = .ok r ∧
      ((r.platforms.platforms.map fun p => (p.guard, p.types.map r.types.nameOf, p.commands)) ==
        [("", ["string", "void", "VkFlags", "VkNode", "VkNodeKHR"], ["vkTrim"]),
          ("VK_USE_PLATFORM_XLIB_KHR", ["VkNodeXlib"], ["vkTrimXlib"])]) = true :=
    exists_build_of_any (by decide +kernel)
  obtain ⟨doc, hdoc, s, hs, hunguarded⟩ := build_unguarded hr
  exact ⟨r, doc, hr, hdoc, ⟨s, hs, hunguarded⟩, beq_iff_eq.mp hbuckets⟩

end Registry

end VulkanRegistry
