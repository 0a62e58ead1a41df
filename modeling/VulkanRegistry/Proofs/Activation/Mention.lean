/-
Who mentions whom.

A command that is an alias mentions its command, and any command the types of its result and
of its parameters; types mention the targets of aliases, the owners of handles, the parts of
bitmasks, what typedefs name and the types of members.  Declarations mention by name and
linked kinds by id, so a mention is kept apart from the entity it means, which may not exist.
`Reaches` follows mentions over any number of entities.  The lists of mentions that a
closure works on say the same as `Mentions`.
-/
import Mathlib.Logic.Relation
import VulkanRegistry.Activation.Closure
import VulkanRegistry.Proofs.Activation.Application
import VulkanRegistry.Proofs.TypeTable.Link

namespace VulkanRegistry

/-- What can be mentioned. -/
inductive Mention
  | command (name : String)
  | typeNamed (name : String)
  | type (id : TypeId)
  deriving DecidableEq, Repr

/-- The entity that a mention means. -/
def Mention.entity? (table : TypeTable) (index : EntityIndex) : Mention → Option Entity
  | .command name => (index.command? name).map .command
  | .typeNamed name => (table.lookup? name).map .type
  | .type id => (table.get? id).map fun _ => .type id

/-- An entity mentions something. -/
inductive Mentions (table : TypeTable) (index : EntityIndex) : Entity → Mention → Prop
  | aliased {place decl target} (hdecl : index.decl? place = some decl)
      (halias : decl.aliasOf = some target) :
      Mentions table index (.command place) (.command target)
  | result {place decl} (hdecl : index.decl? place = some decl) (halias : decl.aliasOf = none) :
      Mentions table index (.command place) (.typeNamed decl.returnType)
  | parameter {place decl param} (hdecl : index.decl? place = some decl)
      (hparam : param ∈ decl.params) :
      Mentions table index (.command place) (.typeNamed param.typeName)
  | target {id entry target} (hentry : table.get? id = some entry)
      (hkind : entry.kind = .aliasTo target) :
      Mentions table index (.type id) (.type target)
  | parent {id entry layout parent} (hentry : table.get? id = some entry)
      (hkind : entry.kind = .handle layout) (hparent : layout.parent = some parent) :
      Mentions table index (.type id) (.type parent)
  | bits {id entry bits flags} (hentry : table.get? id = some entry)
      (hkind : entry.kind = .bitmask (some bits) flags) :
      Mentions table index (.type id) (.type bits)
  | flags {id entry bits flags} (hentry : table.get? id = some entry)
      (hkind : entry.kind = .bitmask bits (some flags)) :
      Mentions table index (.type id) (.type flags)
  | underlying {id entry underlying} (hentry : table.get? id = some entry)
      (hkind : entry.kind = .base (some underlying)) :
      Mentions table index (.type id) (.type underlying)
  | member {id entry decl field} (hentry : table.get? id = some entry)
      (hkind : entry.kind.structLayout?.isSome = true) (hdecl : entry.decl = some decl)
      (hfield : field ∈ decl.members) :
      Mentions table index (.type id) (.typeNamed field.typeName)

/-- One mention leads from the first entity to the second. -/
def MentionStep (table : TypeTable) (index : EntityIndex) (a b : Entity) : Prop :=
  ∃ m, Mentions table index a m ∧ m.entity? table index = some b

/-- Mentions lead from the first entity to the second. -/
abbrev Reaches (table : TypeTable) (index : EntityIndex) : Entity → Entity → Prop :=
  Relation.ReflTransGen (MentionStep table index)

variable {table : TypeTable} {index : EntityIndex}

theorem Mention.entity?_typeNamed {name : String} {b : Entity}
    (h : (Mention.typeNamed name).entity? table index = some b) :
    ∃ id, table.lookup? name = some id ∧ b = .type id := by
  obtain ⟨id, hid, rfl⟩ := Option.map_eq_some_iff.mp h
  exact ⟨id, hid, rfl⟩

theorem Mention.entity?_type {id : TypeId} {b : Entity}
    (h : (Mention.type id).entity? table index = some b) : b = .type id := by
  obtain ⟨entry, -, rfl⟩ := Option.map_eq_some_iff.mp h
  rfl

/-! ### Commands -/

theorem mentions_typeNamed_iff {place : Nat} {decl : CommandDecl}
    (hdecl : index.decl? place = some decl) {name : String} :
    Mentions table index (.command place) (.typeNamed name) ↔
      ∃ referrer, (name, referrer) ∈ decl.mentions := by
  unfold CommandDecl.mentions
  constructor
  · intro h
    cases h with
    | result hfound halias =>
        rw [hdecl, Option.some.injEq] at hfound
        rw [← hfound] at halias ⊢
        exact ⟨decl.name, by simp [halias]⟩
    | @parameter _ _ param hfound hparam =>
        rw [hdecl, Option.some.injEq] at hfound
        rw [← hfound] at hparam
        refine ⟨decl.name ++ "." ++ param.name, List.mem_append_right _ ?_⟩
        exact List.mem_map.mpr ⟨param, hparam, rfl⟩
  · rintro ⟨referrer, h⟩
    rcases List.mem_append.mp h with h | h
    · split at h
      · next halias =>
          simp only [List.mem_singleton, Prod.mk.injEq] at h
          rw [h.1]
          exact .result hdecl (by simpa using halias)
      · simp at h
    · obtain ⟨param, hparam, heq⟩ := List.mem_map.mp h
      simp only [Prod.mk.injEq] at heq
      rw [← heq.1]
      exact .parameter hdecl hparam

theorem not_mentions_type (place : Nat) (id : TypeId) :
    ¬ Mentions table index (.command place) (.type id) := by
  intro h
  cases h

theorem not_mentions_command (id : TypeId) (name : String) :
    ¬ Mentions table index (.type id) (.command name) := by
  intro h
  cases h

/-- Only the alias of a command mentions a command. -/
theorem MentionStep.command_right {a : Entity} {target : Nat}
    (h : MentionStep table index a (.command target)) :
    ∃ place decl name, a = .command place ∧ index.decl? place = some decl ∧
      decl.aliasOf = some name ∧ index.command? name = some target := by
  obtain ⟨m, hm, hmeans⟩ := h
  cases m with
  | command name =>
      obtain ⟨found, hfound, heq⟩ := Option.map_eq_some_iff.mp hmeans
      rw [Entity.command.injEq] at heq
      rw [heq] at hfound
      cases a with
      | command place =>
          cases hm with
          | aliased hdecl halias => exact ⟨place, _, name, rfl, hdecl, halias, hfound⟩
      | type id => exact absurd hm (not_mentions_command id name)
  | typeNamed name =>
      obtain ⟨id, -, heq⟩ := Mention.entity?_typeNamed hmeans
      simp at heq
  | type id => simpa using Mention.entity?_type hmeans

/-! ### Types -/

/-- Other types than structs mention the ids of their kind. -/
theorem mentions_type_iff {id : TypeId} {entry : TypeEntry} (hentry : table.get? id = some entry)
    {ref : TypeId} :
    Mentions table index (.type id) (.type ref) ↔
      entry.kind.structLayout? = none ∧ ref ∈ entry.kind.refs := by
  constructor
  · intro h
    cases h with
    | target hfound hkind =>
        rw [hentry, Option.some.injEq] at hfound
        simp [hfound, hkind, TypeKind.refs, TypeKind.structLayout?]
    | parent hfound hkind hparent =>
        rw [hentry, Option.some.injEq] at hfound
        simp [hfound, hkind, hparent, TypeKind.refs, TypeKind.structLayout?]
    | bits hfound hkind =>
        rw [hentry, Option.some.injEq] at hfound
        simp [hfound, hkind, TypeKind.refs, TypeKind.structLayout?]
    | flags hfound hkind =>
        rw [hentry, Option.some.injEq] at hfound
        simp [hfound, hkind, TypeKind.refs, TypeKind.structLayout?]
    | underlying hfound hkind =>
        rw [hentry, Option.some.injEq] at hfound
        simp [hfound, hkind, TypeKind.refs, TypeKind.structLayout?]
  · rintro ⟨hlayout, href⟩
    cases hkind : entry.kind with
    | base underlying =>
        rw [hkind, TypeKind.refs, Option.mem_toList] at href
        exact .underlying hentry (by rw [hkind, href])
    | aliasTo target =>
        rw [hkind, TypeKind.refs, List.mem_singleton] at href
        exact .target hentry (by rw [hkind, href])
    | handle layout =>
        rw [hkind, TypeKind.refs, Option.mem_toList] at href
        exact .parent hentry hkind href
    | bitmask bits flags =>
        rw [hkind, TypeKind.refs, List.mem_append, Option.mem_toList, Option.mem_toList] at href
        rcases href with hbits | hflags
        · exact .bits hentry (by rw [hkind, hbits])
        · exact .flags hentry (by rw [hkind, hflags])
    | struct layout => simp [hkind, TypeKind.structLayout?] at hlayout
    | union layout => simp [hkind, TypeKind.structLayout?] at hlayout
    | functionPointer => simp [hkind, TypeKind.refs] at href
    | enumeration layout => simp [hkind, TypeKind.refs] at href

/-- Structs mention the types of their members by name. -/
theorem mentions_member_iff {id : TypeId} {entry : TypeEntry} (hentry : table.get? id = some entry)
    {name : String} :
    Mentions table index (.type id) (.typeNamed name) ↔
      entry.kind.structLayout?.isSome = true ∧
        ∃ field ∈ (entry.decl.map (·.members)).getD [], field.typeName = name := by
  constructor
  · intro h
    cases h with
    | @member _ _ decl field hfound hkind hdecl hfield =>
        rw [hentry, Option.some.injEq] at hfound
        rw [hfound]
        exact ⟨hkind, field, by simpa [hdecl] using hfield, rfl⟩
  · rintro ⟨hkind, field, hfield, rfl⟩
    cases hdecl : entry.decl with
    | none => simp [hdecl] at hfield
    | some decl => exact .member hentry hkind hdecl (by simpa [hdecl] using hfield)

/-- What a list of mentions means: the mentions of one type, each with its id. -/
structure Lists (table : TypeTable) (index : EntityIndex) (id : TypeId)
    (mentions : List (TypeId × String)) : Prop where
  complete : ∀ m, Mentions table index (.type id) m →
    ∃ mention ∈ mentions, m.entity? table index = some (.type mention.1)
  sound : ∀ mention ∈ mentions, MentionStep table index (.type id) (.type mention.1)

namespace TypeTable

theorem memberMention_eq_ok {owner : String} {field : FieldDecl} {mention : TypeId × String}
    (h : table.memberMention owner field = .ok mention) :
    table.lookup? field.typeName = some mention.1 := by
  obtain ⟨id, hid, h⟩ := Outcome.bind_eq_ok.mp h
  rw [Outcome.pure_eq_ok] at h
  rw [← h]
  exact require_eq_ok.mp hid

theorem entryMentions_of_none {entry : TypeEntry} (h : entry.kind.structLayout? = none) :
    table.entryMentions entry = .ok (entry.kind.refs.map fun id => (id, entry.name)) := by
  unfold entryMentions
  cases hkind : entry.kind with
  | base underlying => cases underlying <;> rfl
  | aliasTo target => rfl
  | handle layout => cases hparent : layout.parent <;> simp [TypeKind.refs, hparent]
  | bitmask bits flags => cases bits <;> cases flags <;> rfl
  | struct layout => simp [hkind, TypeKind.structLayout?] at h
  | union layout => simp [hkind, TypeKind.structLayout?] at h
  | functionPointer => rfl
  | enumeration layout => rfl

theorem entryMentions_of_isSome {entry : TypeEntry} (h : entry.kind.structLayout?.isSome = true) :
    table.entryMentions entry =
      ((entry.decl.map (·.members)).getD []).mapM (table.memberMention entry.name) := by
  unfold entryMentions
  cases hkind : entry.kind <;> simp_all [TypeKind.structLayout?]

theorem lists_of_none {decls : List TypeDecl} (hlinked : table.Linked decls) {id : TypeId}
    {entry : TypeEntry} (hentry : table.get? id = some entry)
    (hlayout : entry.kind.structLayout? = none) :
    Lists table index id (entry.kind.refs.map fun ref => (ref, entry.name)) := by
  have hdeclared : ∀ ref ∈ entry.kind.refs,
      (Mention.type ref).entity? table index = some (.type ref) := by
    intro ref href
    obtain ⟨found, hfound, -⟩ := hlinked.refs id entry hentry ref href
    simp [Mention.entity?, hfound]
  refine ⟨?_, ?_⟩
  · intro m hm
    cases m with
    | command name => exact absurd hm (not_mentions_command id name)
    | typeNamed name => simp [mentions_member_iff hentry, hlayout] at hm
    | type ref =>
        obtain ⟨-, href⟩ := (mentions_type_iff hentry).mp hm
        exact ⟨(ref, entry.name), List.mem_map.mpr ⟨ref, href, rfl⟩, hdeclared ref href⟩
  · intro mention hmention
    obtain ⟨ref, href, rfl⟩ := List.mem_map.mp hmention
    exact ⟨.type ref, (mentions_type_iff hentry).mpr ⟨hlayout, href⟩, hdeclared ref href⟩

theorem lists_of_isSome {id : TypeId} {entry : TypeEntry} (hentry : table.get? id = some entry)
    (hsome : entry.kind.structLayout?.isSome = true) {mentions : List (TypeId × String)}
    (h : ((entry.decl.map (·.members)).getD []).mapM (table.memberMention entry.name) =
      .ok mentions) :
    Lists table index id mentions := by
  refine ⟨?_, ?_⟩
  · intro m hm
    cases m with
    | command name => exact absurd hm (not_mentions_command id name)
    | typeNamed name =>
        obtain ⟨-, field, hfield, rfl⟩ := (mentions_member_iff hentry).mp hm
        obtain ⟨mention, hmention, hok⟩ := Outcome.exists_mem_of_mapM h hfield
        exact ⟨mention, hmention, by simp [Mention.entity?, memberMention_eq_ok hok]⟩
    | type ref =>
        obtain ⟨hnone, -⟩ := (mentions_type_iff hentry).mp hm
        rw [hnone] at hsome
        simp at hsome
  · intro mention hmention
    obtain ⟨field, hfield, hok⟩ := Outcome.exists_of_mem_mapM h hmention
    have hm : Mentions table index (.type id) (.typeNamed field.typeName) :=
      (mentions_member_iff hentry).mpr ⟨hsome, field, hfield, rfl⟩
    exact ⟨.typeNamed field.typeName, hm, by simp [Mention.entity?, memberMention_eq_ok hok]⟩

/-- The mentions of a type in a linked table. -/
theorem lists_of_mentions {decls : List TypeDecl} (hlinked : table.Linked decls) {id : TypeId}
    {mentions : List (TypeId × String)} (h : table.mentions id = .ok mentions) :
    Lists table index id mentions := by
  unfold TypeTable.mentions at h
  split at h
  · next entry hentry =>
      cases hlayout : entry.kind.structLayout? with
      | none =>
          rw [entryMentions_of_none hlayout, Except.ok.injEq] at h
          rw [← h]
          exact lists_of_none hlinked hentry hlayout
      | some layout =>
          have hsome : entry.kind.structLayout?.isSome = true := by simp [hlayout]
          rw [entryMentions_of_isSome hsome] at h
          exact lists_of_isSome hentry hsome h
  · next hnone =>
      refine ⟨?_, ?_⟩
      · intro m hm
        cases hm <;> simp_all
      · rw [← Except.ok.inj h]
        simp

/-- The mentions of a type can be listed if everything it mentions is declared. -/
theorem exists_mentions (index : EntityIndex) {id : TypeId}
    (h : ∀ m, Mentions table index (.type id) m → ∃ b, m.entity? table index = some b) :
    ∃ mentions, table.mentions id = .ok mentions := by
  unfold TypeTable.mentions
  split
  · next entry hentry =>
      cases hlayout : entry.kind.structLayout? with
      | none => exact ⟨_, entryMentions_of_none hlayout⟩
      | some layout =>
          have hsome : entry.kind.structLayout?.isSome = true := by simp [hlayout]
          rw [entryMentions_of_isSome hsome]
          refine Outcome.exists_mapM_eq_ok ?_
          intro field hfield
          obtain ⟨b, hb⟩ := h (.typeNamed field.typeName)
            ((mentions_member_iff hentry).mpr ⟨hsome, field, hfield, rfl⟩)
          obtain ⟨ref, href, -⟩ := Mention.entity?_typeNamed hb
          refine ⟨(ref, entry.name ++ "." ++ field.name), ?_⟩
          rw [memberMention, require_eq_ok.mpr href]
          rfl
  · exact ⟨[], rfl⟩

end TypeTable

end VulkanRegistry
