/-
The names of merged values.

Merging keeps every name that is contributed, so an enumeration has a value of a name if and
only if its block has one that was not removed or a directive added one.
-/
import VulkanRegistry.Enumeration.Fill
import VulkanRegistry.Proofs.Activation.Values

namespace VulkanRegistry

namespace Contribution

theorem mem_names_firstOfEach {cs : List Contribution} {name : String} :
    name ∈ (firstOfEach cs).map (·.name) ↔ name ∈ cs.map (·.name) := by
  induction cs with
  | nil => rfl
  | cons c cs ih =>
      rw [firstOfEach, List.map_cons, List.map_cons, List.mem_cons, List.mem_cons, ← ih]
      refine or_congr_right' ?_
      intro hne
      simp only [List.mem_map, List.mem_filter]
      constructor
      · rintro ⟨other, ⟨hmem, -⟩, rfl⟩
        exact ⟨other, hmem, rfl⟩
      · rintro ⟨other, hmem, rfl⟩
        exact ⟨other, ⟨hmem, by simpa using hne⟩, rfl⟩

theorem mem_names_merge {core extension : List Contribution} {name : String} :
    name ∈ (merge core extension).map (·.name) ↔
      name ∈ core.map (·.name) ∨ name ∈ extension.map (·.name) := by
  unfold merge
  rw [List.map_map]
  show name ∈ (firstOfEach (core ++ extension)).map (·.name) ↔ _
  rw [mem_names_firstOfEach, List.map_append, List.mem_append]

end Contribution

theorem name_of_blockContribution {value : ValueDecl} {decls : EnumDeclarations} {c : Contribution}
    (h : value.contribution decls = .ok c) : c.name = value.name := by
  obtain ⟨number, -, h⟩ := Outcome.bind_eq_ok.mp h
  rw [Outcome.pure_eq_ok] at h
  rw [← h]

theorem name_of_addedContribution {value : AddedValue} {decls : EnumDeclarations} {c : Contribution}
    (h : value.contribution decls = .ok c) : c.name = value.name := by
  unfold AddedValue.contribution at h
  split at h
  · rw [← Except.ok.inj h]
  · obtain ⟨number, -, h⟩ := Outcome.bind_eq_ok.mp h
    rw [Outcome.pure_eq_ok] at h
    rw [← h]

/-- A block keeps the names that it declares, except for those that are marked as removed. -/
theorem mem_names_blockValues {set : ActiveSet} {block? : Option EnumBlock} {name : String} :
    name ∈ (set.blockValues block?).map (·.name) ↔
      (∃ block, block? = some block ∧ name ∈ block.values.map (·.name)) ∧
        set.isValueRemoved name = false := by
  cases block? with
  | none => simp [ActiveSet.blockValues]
  | some block =>
      simp only [ActiveSet.blockValues, Option.map_some, Option.getD_some, List.mem_map,
        List.mem_filter, Option.some.injEq, exists_eq_left', Bool.not_eq_true']
      constructor
      · rintro ⟨value, ⟨hvalue, hkept⟩, rfl⟩
        exact ⟨⟨value, hvalue, rfl⟩, hkept⟩
      · rintro ⟨⟨value, hvalue, rfl⟩, hkept⟩
        exact ⟨value, ⟨hvalue, hkept⟩, rfl⟩

section Merged

variable {doc : Document} {set : ActiveSet} {decls : EnumDeclarations} {enumeration : String}
  {id : TypeId} {values : List EnumValue}

theorem mergedValues_eq_ok :
    mergedValues doc set decls enumeration id = .ok values ↔
      ∃ core extension, contributionsTo doc set decls enumeration id = .ok (core, extension) ∧
        Contribution.merge core extension = values := by
  unfold mergedValues
  simp only [Outcome.bind_eq_ok, Outcome.pure_eq_ok, Prod.exists]

/-- An enumeration has the names of its block that were not removed and those that were added. -/
theorem mem_names_mergedValues (h : mergedValues doc set decls enumeration id = .ok values)
    {name : String} :
    name ∈ values.map (·.name) ↔
      name ∈ (set.blockValues (enumBlock? doc.enums enumeration)).map (·.name) ∨
        set.HasValue id name := by
  obtain ⟨core, extension, hparts, rfl⟩ := mergedValues_eq_ok.mp h
  obtain ⟨own, hown, hparts⟩ := Outcome.bind_eq_ok.mp hparts
  obtain ⟨added, hadded, hparts⟩ := Outcome.bind_eq_ok.mp hparts
  rw [Outcome.pure_eq_ok, Prod.mk.injEq] at hparts
  obtain ⟨rfl, rfl⟩ := hparts
  have hownNames := Outcome.map_eq_of_mapM (fun _ _ _ hread => name_of_blockContribution hread) hown
  have haddedNames : added.map (·.2.name) =
      (set.values.filter (·.enumeration == id)).map (·.name) := by
    refine Outcome.map_eq_of_mapM ?_ hadded
    intro value _ pair hread
    obtain ⟨c, hc, hread⟩ := Outcome.bind_eq_ok.mp hread
    rw [Outcome.pure_eq_ok] at hread
    rw [← hread]
    exact name_of_addedContribution hc
  have hvalue : set.HasValue id name ↔ name ∈ added.map (·.2.name) := by
    rw [haddedNames]
    simp [ActiveSet.HasValue, and_assoc]
  rw [Contribution.mem_names_merge, hvalue, List.map_append, List.mem_append, hownNames,
    or_assoc]
  refine or_congr_right ?_
  -- The additions of core versions and of extensions are all additions.
  simp only [List.map_map, List.mem_map, List.mem_filter, Function.comp_apply]
  constructor
  · rintro (⟨pair, ⟨hpair, -⟩, rfl⟩ | ⟨pair, ⟨hpair, -⟩, rfl⟩)
    · exact ⟨pair, hpair, rfl⟩
    · exact ⟨pair, hpair, rfl⟩
  · rintro ⟨pair, hpair, rfl⟩
    cases hcore : pair.1 with
    | true => exact Or.inl ⟨pair, ⟨hpair, hcore⟩, rfl⟩
    | false => exact Or.inr ⟨pair, ⟨hpair, by simp [hcore]⟩, rfl⟩

end Merged

end VulkanRegistry
