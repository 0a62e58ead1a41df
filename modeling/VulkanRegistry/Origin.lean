/-
Origins: the versions and extensions that bring an entity in.

An entity keeps its origins in ascending order without duplicates, core versions before
extensions and each in document order, so that the first extension among them is a
matter of the document alone.
-/
namespace VulkanRegistry

/-- A core version or a selected extension, by its place in its list. -/
inductive Origin
  | feature (index : Nat)
  | extension (index : Nat)
  deriving DecidableEq, Repr, Inhabited

namespace Origin

/-- Whether an origin comes before another. -/
def lt : Origin → Origin → Bool
  | feature a, feature b => a < b
  | feature _, extension _ => true
  | extension _, feature _ => false
  | extension a, extension b => a < b

/-- Puts an origin into an ascending list. -/
def insert (origin : Origin) : List Origin → List Origin
  | [] => [origin]
  | other :: origins =>
      if origin.lt other then origin :: other :: origins
      else if origin = other then other :: origins
      else other :: insert origin origins

/-- Puts origins into an ascending list. -/
def insertAll (origins : List Origin) (list : List Origin) : List Origin :=
  origins.foldl (fun list origin => insert origin list) list

theorem mem_insert {origin x : Origin} {list : List Origin} :
    x ∈ insert origin list ↔ x = origin ∨ x ∈ list := by
  induction list with
  | nil => simp [insert]
  | cons other origins ih =>
      rw [insert]
      split
      · simp
      · split
        · next h => simp [h]
        · simp only [List.mem_cons, ih]
          exact ⟨fun h => by rcases h with h | h | h <;> simp [h],
            fun h => by rcases h with h | h | h <;> simp [h]⟩

theorem mem_insertAll {origins list : List Origin} {x : Origin} :
    x ∈ insertAll origins list ↔ x ∈ origins ∨ x ∈ list := by
  induction origins generalizing list with
  | nil => simp [insertAll]
  | cons origin origins ih =>
      have h := @ih (insert origin list)
      simp only [insertAll, List.foldl_cons] at h ⊢
      rw [h, mem_insert, List.mem_cons]
      exact ⟨fun h => by rcases h with h | h | h <;> simp [h],
        fun h => by rcases h with (h | h) | h <;> simp [h]⟩

end Origin

end VulkanRegistry
