/-
Origins in ascending order.

The list of an entity's origins is kept strictly ascending, core versions before
extensions and each by its place.  Such a list is known by its members alone, so it is
enough to say which origins it has.
-/
import VulkanRegistry.Origin

namespace VulkanRegistry.Origin

/-- One origin stands before another: versions before extensions, and each kind in the order of
the document. -/
inductive Before : Origin → Origin → Prop
  | features {a b : Nat} (h : a < b) : Before (feature a) (feature b)
  | kinds (a b : Nat) : Before (feature a) (extension b)
  | extensions {a b : Nat} (h : a < b) : Before (extension a) (extension b)

theorem lt_iff {a b : Origin} : a.lt b = true ↔ Before a b := by
  constructor
  · intro h
    cases a <;> cases b
    case feature.feature => exact .features (of_decide_eq_true h)
    case feature.extension => exact .kinds _ _
    case extension.feature => cases h
    case extension.extension => exact .extensions (of_decide_eq_true h)
  · rintro (h | ⟨⟩ | h)
    · exact decide_eq_true h
    · rfl
    · exact decide_eq_true h

theorem Before.trans {a b c : Origin} (hab : Before a b) (hbc : Before b c) : Before a c := by
  cases hab with
  | features hab =>
      cases hbc with
      | features hbc => exact .features (Nat.lt_trans hab hbc)
      | kinds => exact .kinds _ _
  | kinds =>
      cases hbc
      exact .kinds _ _
  | extensions hab =>
      cases hbc with
      | extensions hbc => exact .extensions (Nat.lt_trans hab hbc)

/-- Of two origins one stands before the other. -/
theorem before_or_before {a b : Origin} (hne : a ≠ b) : Before a b ∨ Before b a := by
  cases a with
  | feature a =>
      cases b with
      | feature b =>
          have hindex : a ≠ b := fun h => hne (congrArg feature h)
          exact (Nat.lt_or_gt_of_ne hindex).imp .features .features
      | extension b => exact .inl (.kinds a b)
  | extension a =>
      cases b with
      | feature b => exact .inr (.kinds b a)
      | extension b =>
          have hindex : a ≠ b := fun h => hne (congrArg extension h)
          exact (Nat.lt_or_gt_of_ne hindex).imp .extensions .extensions

/-- The origins stand in strictly ascending order, and so each of them once. -/
def Ascending (list : List Origin) : Prop :=
  list.Pairwise Before

theorem ascending_nil : Ascending [] :=
  List.Pairwise.nil

theorem ascending_insert {origin : Origin} {list : List Origin} (h : Ascending list) :
    Ascending (insert origin list) := by
  induction list with
  | nil => exact List.pairwise_singleton _ origin
  | cons other origins ih =>
      obtain ⟨hfirst, hrest⟩ := List.pairwise_cons.mp h
      unfold insert
      split
      · next hlt =>
          refine List.pairwise_cons.mpr ⟨?_, h⟩
          intro x hx
          rcases List.mem_cons.mp hx with rfl | hx
          · exact lt_iff.mp hlt
          · exact (lt_iff.mp hlt).trans (hfirst x hx)
      · next hlt =>
          split
          · exact h
          · next hne =>
              refine List.pairwise_cons.mpr ⟨?_, ih hrest⟩
              intro x hx
              rcases mem_insert.mp hx with rfl | hx
              · exact (before_or_before hne).resolve_left fun hbefore => hlt (lt_iff.mpr hbefore)
              · exact hfirst x hx

theorem ascending_insertAll {origins list : List Origin} (h : Ascending list) :
    Ascending (insertAll origins list) := by
  induction origins generalizing list with
  | nil => exact h
  | cons origin origins ih => exact ih (ascending_insert h)

end VulkanRegistry.Origin
