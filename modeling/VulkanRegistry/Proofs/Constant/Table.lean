/-
What a table of constants finds.

A table is told by what it finds under each name.  A definition is found under its name
unless the name is taken, and changes nothing else.  Another name finds a copy of what its
target finds; the copy names the constant that has the literal, however many names lie in
between.
-/
import VulkanRegistry.Constant.Table

namespace VulkanRegistry

/-- What is found under a name of a constant: the constant itself, or its copy under another
name. -/
def Constant.named (constant : Constant) (name : String) : Constant :=
  if name = constant.name then constant
  else { constant with name, aliasOf := some constant.name }

@[simp] theorem Constant.named_self (constant : Constant) :
    constant.named constant.name = constant :=
  if_pos rfl

/-- A copy of a copy is a copy of the constant. -/
theorem Constant.renamed_named {constant : Constant} (h : constant.aliasOf = none)
    {name : String} (hname : name ≠ constant.name) (target : String) :
    (constant.named target).renamed name = constant.named name := by
  unfold Constant.renamed Constant.named
  rw [if_neg hname]
  split
  · simp [h]
  · simp

namespace ConstantTable

variable {table : ConstantTable} {name target : String}

@[simp] theorem get?_empty : empty.get? name = none := rfl

theorem name_of_get? {constant : Constant} (h : table.get? name = some constant) :
    constant.name = name := by
  simpa using List.find?_some h

theorem get?_insertNew (table : ConstantTable) (constant : Constant) (name : String) :
    (table.insertNew constant).get? name =
      (table.get? name).or (if constant.name = name then some constant else none) := by
  unfold insertNew
  split
  · next htaken =>
      split
      · next hsame =>
          rw [contains, hsame] at htaken
          rw [Option.or_of_isSome htaken]
      · rw [Option.or_none]
  · rw [get?, List.find?_append, get?]
    congr 1
    by_cases hname : constant.name = name <;> simp [hname]

theorem defineAlias_of_contains (h : table.contains name = true) :
    table.defineAlias name target = .ok table :=
  if_pos h

theorem defineAlias_of_unknown (hfree : table.contains name = false)
    (h : table.get? target = none) :
    table.defineAlias name target = .error (.unknownConstant target name) := by
  simp [defineAlias, hfree, h]

theorem defineAlias_of_named (hfree : table.contains name = false) {constant : Constant}
    (hplain : constant.aliasOf = none) (hname : name ≠ constant.name)
    (h : table.get? target = some (constant.named target)) :
    table.defineAlias name target = .ok (table.insertNew (constant.named name)) := by
  rw [← Constant.renamed_named hplain hname target]
  simp [defineAlias, hfree, h]

end ConstantTable

end VulkanRegistry
