/-
What a table of chains finds.

The table has an entry for every struct in use, in the order of the types.  So a struct is
found with what it lists, and a tag leads to the first struct in use that has it; whether that
struct may stand in a chain is asked only then.
-/
import VulkanRegistry.Chain
import VulkanRegistry.Proofs.TypeTable.Outline

namespace VulkanRegistry

/-- Searching the types in order finds the first that fits. -/
theorem TypeTable.find?_indexed_eq_some_iff {table : TypeTable} {p : TypeId × TypeEntry → Bool}
    {id : TypeId} {entry : TypeEntry} :
    table.indexed.find? p = some (id, entry) ↔
      table.get? id = some entry ∧ p (id, entry) = true ∧
        ∀ other before, table.get? other = some before → p (other, before) = true →
          id.index ≤ other.index := by
  have hat : ∀ i (found : TypeId × TypeEntry), table.indexed[i]? = some found ↔
      found.1.index = i ∧ table.get? found.1 = some found.2 := by
    intro i found
    obtain ⟨⟨j⟩, entry⟩ := found
    rw [getElem?_indexed, Option.map_eq_some_iff]
    constructor
    · intro h
      obtain ⟨entry, hentry, heq⟩ := h
      cases heq
      exact ⟨rfl, hentry⟩
    · intro h
      obtain ⟨rfl, hentry⟩ := h
      exact ⟨entry, hentry, rfl⟩
  rw [List.find?_eq_some_iff_getElem]
  constructor
  · intro h
    obtain ⟨hp, i, hi, hfound, hbefore⟩ := h
    obtain ⟨hid, hentry⟩ := (hat i _).mp (List.getElem?_eq_some_iff.mpr ⟨hi, hfound⟩)
    refine ⟨hentry, hp, fun other before hother hfits => ?_⟩
    by_cases hlt : other.index < id.index
    · obtain ⟨hj, hget⟩ := List.getElem?_eq_some_iff.mp
        ((hat other.index (other, before)).mpr ⟨rfl, hother⟩)
      have hnot := hbefore other.index (by dsimp only at hid; omega)
      rw [hget, hfits] at hnot
      simp at hnot
    · omega
  · intro h
    obtain ⟨hentry, hp, hfirst⟩ := h
    obtain ⟨hi, hget⟩ := List.getElem?_eq_some_iff.mp ((hat id.index (id, entry)).mpr ⟨rfl, hentry⟩)
    refine ⟨hp, id.index, hi, hget, fun j hj => ?_⟩
    obtain ⟨hindex, hother⟩ := (hat j table.indexed[j]).mp
      (List.getElem?_eq_some_iff.mpr ⟨by omega, rfl⟩)
    by_cases hfits : p table.indexed[j] = true
    · have hle := hfirst _ _ hother hfits
      omega
    · simp [hfits]

namespace ChainTable

variable {types : TypeTable} {isActive : TypeId → Bool}

/-- The struct is in use, with this layout. -/
def InUse (types : TypeTable) (isActive : TypeId → Bool) (id : TypeId) (layout : StructLayout) :
    Prop :=
  isActive id = true ∧ types.struct? id = some layout

/-- The first value that the tag member may have is the tag. -/
def HasTag (layout : StructLayout) (tag : String) : Prop :=
  ∃ m, layout.member? "sType" = some m ∧ m.values.head? = some tag

theorem any_tagOfLayout?_iff {layout : StructLayout} {tag : String} :
    (tagOfLayout? types layout).any (·.name == tag) = true ↔ HasTag layout tag := by
  unfold tagOfLayout? HasTag tagMember
  cases layout.member? "sType" with
  | none => simp
  | some m => cases hvalue : m.values.head? <;> simp [hvalue]

/-- The entry that a type has in the table, if it is a struct in use. -/
def entryOf? (types : TypeTable) (isActive : TypeId → Bool) (indexed : TypeId × TypeEntry) :
    Option ChainEntry :=
  if isActive indexed.1 then
    indexed.2.kind.structLayout?.map fun layout =>
      ⟨indexed.1, tagOfLayout? types layout, layout.extenders⟩
  else none

/-- What the table finds is the entry of the first type that has one of its kind. -/
theorem find?_entries (types : TypeTable) (isActive : TypeId → Bool) (p : ChainEntry → Bool) :
    (ofTypes types isActive).entries.find? p =
      (types.indexed.find? fun indexed => (entryOf? types isActive indexed).any p).bind
        (entryOf? types isActive) :=
  List.find?_filterMap ..

theorem entryOf?_of_inUse {id : TypeId} {entry : TypeEntry} {layout : StructLayout}
    (hactive : isActive id = true) (hlayout : entry.kind.structLayout? = some layout) :
    entryOf? types isActive (id, entry) =
      some ⟨id, tagOfLayout? types layout, layout.extenders⟩ := by
  simp [entryOf?, hactive, hlayout]

theorem entryOf?_any_iff {id : TypeId} {entry : TypeEntry} {p : ChainEntry → Bool} :
    (entryOf? types isActive (id, entry)).any p = true ↔
      isActive id = true ∧ ∃ layout, entry.kind.structLayout? = some layout ∧
        p ⟨id, tagOfLayout? types layout, layout.extenders⟩ = true := by
  unfold entryOf?
  cases isActive id with
  | false => simp
  | true => cases entry.kind.structLayout? <;> simp

/-- A struct in use is found with what it lists. -/
theorem extenders_ofTypes {id : TypeId} {layout : StructLayout}
    (h : InUse types isActive id layout) :
    (ofTypes types isActive).extenders id = layout.extenders := by
  obtain ⟨hactive, hstruct⟩ := h
  obtain ⟨entry, hentry, hlayout⟩ := TypeTable.struct?_eq_some_iff.mp hstruct
  have hfirst : types.indexed.find? (fun indexed =>
      (entryOf? types isActive indexed).any (·.type == id)) = some (id, entry) := by
    refine TypeTable.find?_indexed_eq_some_iff.mpr ⟨hentry, ?_, ?_⟩
    · exact entryOf?_any_iff.mpr ⟨hactive, layout, hlayout, beq_self_eq_true id⟩
    · intro other before _ hfits
      obtain ⟨-, _, -, hsame⟩ := entryOf?_any_iff.mp hfits
      have heq : other = id := by simpa using hsame
      exact Nat.le_of_eq (congrArg TypeId.index heq.symm)
  rw [extenders, get?, find?_entries, hfirst, Option.bind_some,
    entryOf?_of_inUse hactive hlayout]
  rfl

/-- A tag leads to the first struct in use that has it. -/
theorem structFor?_ofTypes_eq_some_iff {tag : String} {id : TypeId} :
    (ofTypes types isActive).structFor? tag = some id ↔
      (∃ layout, InUse types isActive id layout ∧ HasTag layout tag) ∧
        ∀ other layout, InUse types isActive other layout → HasTag layout tag →
          id.index ≤ other.index := by
  -- Of the entries, those of structs in use with the tag fit.
  have hfits : ∀ id entry, types.get? id = some entry →
      ((entryOf? types isActive (id, entry)).any (fun found => found.tag.any (·.name == tag)) =
          true ↔
        ∃ layout, InUse types isActive id layout ∧ HasTag layout tag) := by
    intro id entry hentry
    simp only [entryOf?_any_iff, any_tagOfLayout?_iff, InUse, TypeTable.struct?_eq_some_iff, hentry,
      Option.some.injEq, exists_eq_left', and_assoc, exists_and_left]
  rw [structFor?, find?_entries]
  constructor
  · intro h
    obtain ⟨found, hfound, hid⟩ := Option.map_eq_some_iff.mp h
    obtain ⟨⟨first, entry⟩, hfirst, hentryOf⟩ := Option.bind_eq_some_iff.mp hfound
    obtain ⟨hentry, hfit, hleast⟩ := TypeTable.find?_indexed_eq_some_iff.mp hfirst
    obtain ⟨layout, huse, htag⟩ := (hfits first entry hentry).mp hfit
    have hsame : first = id := by
      obtain ⟨before, hbefore, hlayout⟩ := TypeTable.struct?_eq_some_iff.mp huse.2
      rw [hentry, Option.some.injEq] at hbefore
      rw [← hbefore] at hlayout
      rw [entryOf?_of_inUse huse.1 hlayout, Option.some.injEq] at hentryOf
      rw [← hid, ← hentryOf]
    rw [hsame] at huse hleast
    refine ⟨⟨layout, huse, htag⟩, fun other otherLayout hother hotherTag => ?_⟩
    obtain ⟨before, hbefore, -⟩ := TypeTable.struct?_eq_some_iff.mp hother.2
    exact hleast other before hbefore ((hfits other before hbefore).mpr ⟨_, hother, hotherTag⟩)
  · intro h
    obtain ⟨⟨layout, huse, htag⟩, hleast⟩ := h
    obtain ⟨entry, hentry, hlayout⟩ := TypeTable.struct?_eq_some_iff.mp huse.2
    have hfirst : types.indexed.find? (fun indexed => (entryOf? types isActive indexed).any
        fun found => found.tag.any (·.name == tag)) = some (id, entry) := by
      refine TypeTable.find?_indexed_eq_some_iff.mpr
        ⟨hentry, (hfits id entry hentry).mpr ⟨layout, huse, htag⟩, ?_⟩
      intro other before hbefore hfit
      obtain ⟨otherLayout, hother, hotherTag⟩ := (hfits other before hbefore).mp hfit
      exact hleast other otherLayout hother hotherTag
    rw [hfirst, Option.bind_some, entryOf?_of_inUse huse.1 hlayout]
    rfl

end ChainTable

end VulkanRegistry
