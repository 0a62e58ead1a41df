/-
Trails: following single links through a finite world.

Aliases of types, commands and enumeration values and the parents of handles are all of
one shape: every node links to at most one other, and the question is where following
the links from a node leads.  `Trail.follow` walks until a node has no link, until the
next node has been met already, or until a link leads out of the world, and keeps the
nodes it met.  Each use reads its own outcome or its own failure off the trail.

A walk ends because every step takes a node of the world that was not met before.
-/
namespace VulkanRegistry

/-- How a trail ends. -/
inductive Trail.Ending (α : Type)
  /-- The last node has no link. -/
  | stops
  /-- The last node links to a node that is on the trail. -/
  | cycles (target : α)
  /-- The last node links to something outside the world. -/
  | leaves (target : α)
  deriving DecidableEq, Repr, Inhabited

/-- The nodes met, in order, and how it ended. -/
structure Trail (α : Type) where
  first : α
  later : List α
  ending : Trail.Ending α
  deriving DecidableEq, Repr, Inhabited

namespace Trail

variable {α : Type}

/-- All nodes of a trail. -/
def path (trail : Trail α) : List α :=
  trail.first :: trail.later

/-- The last node of a trail. -/
def last (trail : Trail α) : α :=
  trail.later.getLast?.getD trail.first

/-- Puts a node in front. -/
def cons (x : α) (trail : Trail α) : Trail α :=
  ⟨x, trail.path, trail.ending⟩

variable [DecidableEq α]

/-- The nodes of a world that have not been met. -/
def unseen (world seen : List α) : List α :=
  world.filter (· ∉ seen)

/-- Meeting a new node of the world leaves fewer to be met. -/
theorem length_unseen_lt {world seen : List α} {y : α} (hworld : y ∈ world) (hseen : y ∉ seen) :
    (unseen world (y :: seen)).length < (unseen world seen).length := by
  have hsplit : unseen world (y :: seen) = (unseen world seen).filter (· ≠ y) := by
    simp only [unseen, List.filter_filter]
    refine List.filter_congr fun z _ => ?_
    by_cases hz : z = y <;> simp [hz]
  rw [hsplit]
  refine Nat.lt_of_le_of_ne (List.length_filter_le _ _) fun heq => ?_
  have hall := List.length_filter_eq_length_iff.mp heq y (by simp [unseen, hworld, hseen])
  simp at hall

/-- Walks on from `x`; the nodes `seen` were met before. -/
def followFrom (world : List α) (next : α → Option α) (seen : List α) (x : α) : Trail α :=
  match next x with
  | none => ⟨x, [], .stops⟩
  | some y =>
      if _hseen : y ∈ x :: seen then ⟨x, [], .cycles y⟩
      else if _hworld : y ∈ world then (followFrom world next (x :: seen) y).cons x
      else ⟨x, [], .leaves y⟩
  termination_by (unseen world (x :: seen)).length
  decreasing_by exact length_unseen_lt ‹_› ‹_›

/-- Follows the links from a node. -/
def follow (world : List α) (next : α → Option α) (x : α) : Trail α :=
  followFrom world next [] x

end Trail

end VulkanRegistry
