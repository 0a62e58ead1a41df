/-
Directives that only require.

Where nothing is removed, no directive undoes another one: an entity is active exactly if some
directive names it, an enumeration has exactly the values that some directive gives it, and no
value is marked as removed.  The order of the directives no longer matters.
-/
import VulkanRegistry.Proofs.Activation.Values

namespace VulkanRegistry

/-- No directive of the run takes anything out. -/
def RequiresOnly (run : List Application) : Prop :=
  ∀ a ∈ run, a.kind = .require

variable {types : TypeTable} {index : EntityIndex} {sources : List DirectiveSource}
  {constants : ConstantTable} {applied : Progress}

theorem requiredSinceRemoval_of_requires {events : List (BlockKind × Origin)}
    (h : ∀ event ∈ events, event.1 = .require) :
    requiredSinceRemoval events = events.map (·.2) := by
  have hall : events.rtakeWhile (fun event => event.1 = .require) = events :=
    List.rtakeWhile_eq_self_iff.mpr fun event hevent => by simpa using h event hevent
  rw [requiredSinceRemoval, hall]

theorem RequiresOnly.not_removes {run : List Application} (h : RequiresOnly run)
    {a : Application} (ha : a ∈ run) (name : String) : ¬ a.Removes name := by
  rintro ⟨hremove, -⟩
  rw [h a ha] at hremove
  simp at hremove

namespace RequiresOnly

variable (hrequires : RequiresOnly (applications sources))
  (happlied : applyDirectives sources types index constants = .ok applied)

include hrequires happlied

/-- Whatever some directive names is active, and nothing else. -/
theorem isActive_iff (e : Entity) :
    (applied.set.record e).isActive = true ↔
      ∃ a ∈ applications sources, a.directive.target? types index = some e := by
  have hevents : ∀ event ∈ history types index e (applications sources), event.1 = .require := by
    intro event hevent
    obtain ⟨a, ha, rfl⟩ := List.mem_map.mp hevent
    exact hrequires a (List.mem_filter.mp ha).1
  rw [applyDirectives_record happlied, Activation.isActive_iff]
  simp only [Activation.mem_origins_foldl_after, requiredSinceRemoval_of_requires hevents]
  constructor
  · rintro ⟨o, ho⟩
    obtain ⟨event, hevent, -⟩ := List.mem_map.mp ho
    obtain ⟨a, ha, -⟩ := List.mem_map.mp hevent
    obtain ⟨hmem, htarget⟩ := List.mem_filter.mp ha
    exact ⟨a, hmem, by simpa using htarget⟩
  · rintro ⟨a, hmem, htarget⟩
    refine ⟨a.source.origin, List.mem_map.mpr ⟨(a.kind, a.source.origin), ?_, rfl⟩⟩
    exact List.mem_map.mpr ⟨a, List.mem_filter.mpr ⟨hmem, by simpa using htarget⟩, rfl⟩

/-- An enumeration has the values that some directive gives it, and no other. -/
theorem hasValue_iff {enumeration : TypeId} {name : String} :
    applied.set.HasValue enumeration name ↔
      ∃ a ∈ applications sources, a.Defines types enumeration name := by
  rw [applyDirectives_hasValue_iff happlied, DefinedSinceRemoval,
    sinceRemoval_eq_self fun a ha => hrequires.not_removes ha name]

/-- No value is marked as removed. -/
theorem removedValues_eq : applied.set.removedValues = [] := by
  rw [List.eq_nil_iff_forall_not_mem]
  intro name hmem
  have hmark : applied.set.isValueRemoved name = true := List.contains_iff_mem.mpr hmem
  obtain ⟨a, ha, hremoves⟩ := exists_removes_of_isValueRemoved happlied hmark
  exact hrequires.not_removes ha name hremoves

end RequiresOnly

end VulkanRegistry
