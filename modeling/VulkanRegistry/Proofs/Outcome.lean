/-
Taking apart what succeeded.

Every step of a build can fail, and the first failure ends it.  So what is known of a
build that succeeded is known of its parts: a sequence succeeds if and only if both halves
do, a run over a list exactly when every one of its steps does, and a list that is read
item by item is read into a list of the same length.  What every step of a run preserves,
the run preserves (`foldlM_induction`), and a run whose steps cannot fail while that holds
does not fail (`exists_foldlM_eq_ok`).
-/
import Mathlib.Data.List.Forall2
import VulkanRegistry.Diagnostic

namespace VulkanRegistry.Outcome

variable {ε α β σ : Type}

theorem bind_eq_ok {x : Except ε α} {f : α → Except ε β} {b : β} :
    (x >>= f) = .ok b ↔ ∃ a, x = .ok a ∧ f a = .ok b := by
  cases x with
  | error e => simp [bind, Except.bind]
  | ok a => simp [bind, Except.bind]

theorem map_eq_ok {x : Except ε α} {f : α → β} {b : β} :
    x.map f = .ok b ↔ ∃ a, x = .ok a ∧ f a = b := by
  cases x <;> simp [Except.map]

theorem pure_eq_ok {a b : α} : (pure a : Except ε α) = .ok b ↔ a = b := by
  simp [pure, Except.pure]

theorem toOption_eq_some_iff {x : Except ε α} {a : α} : x.toOption = some a ↔ x = .ok a := by
  cases x <;> simp [Except.toOption]

theorem exists_eq_ok {x : Except ε α} (h : x.toOption.isSome = true) : ∃ a, x = .ok a := by
  cases x with
  | error e => simp [Except.toOption] at h
  | ok a => exact ⟨a, rfl⟩

theorem exists_ok_of_any {x : Except ε α} {p : α → Bool} (h : x.toOption.any p = true) :
    ∃ a, x = .ok a ∧ p a = true := by
  cases x with
  | error e => simp [Except.toOption] at h
  | ok a => exact ⟨a, rfl, by simpa [Except.toOption] using h⟩

/-! ### Runs over a list -/

theorem foldlM_cons_eq_ok {f : σ → α → Except ε σ} {x : α} {xs : List α} {s t : σ} :
    (x :: xs).foldlM f s = .ok t ↔ ∃ m, f s x = .ok m ∧ xs.foldlM f m = .ok t := by
  rw [List.foldlM_cons, bind_eq_ok]

theorem foldlM_nil_eq_ok {f : σ → α → Except ε σ} {s t : σ} :
    ([] : List α).foldlM f s = .ok t ↔ s = t := by
  rw [List.foldlM_nil, pure_eq_ok]

theorem foldlM_append_eq_ok {f : σ → α → Except ε σ} {xs ys : List α} {s t : σ} :
    (xs ++ ys).foldlM f s = .ok t ↔ ∃ m, xs.foldlM f s = .ok m ∧ ys.foldlM f m = .ok t := by
  rw [List.foldlM_append, bind_eq_ok]

/-- What every step preserves, a run preserves. -/
theorem foldlM_induction {f : σ → α → Except ε σ} (P : σ → Prop) {xs : List α} {s t : σ}
    (hstep : ∀ x ∈ xs, ∀ s t, P s → f s x = .ok t → P t) (hs : P s)
    (h : xs.foldlM f s = .ok t) : P t := by
  induction xs generalizing s with
  | nil =>
      rw [foldlM_nil_eq_ok] at h
      rwa [← h]
  | cons x xs ih =>
      obtain ⟨m, hm, h⟩ := foldlM_cons_eq_ok.mp h
      exact ih (fun y hy => hstep y (by simp [hy])) (hstep x (by simp) s m hs hm) h

/-- A run whose steps preserve what keeps them from failing does not fail. -/
theorem exists_foldlM_eq_ok {f : σ → α → Except ε σ} (P : σ → Prop) {xs : List α} {s : σ}
    (hstep : ∀ x ∈ xs, ∀ s, P s → ∃ t, f s x = .ok t ∧ P t) (hs : P s) :
    ∃ t, xs.foldlM f s = .ok t := by
  induction xs generalizing s with
  | nil => exact ⟨s, rfl⟩
  | cons x xs ih =>
      obtain ⟨m, hm, hP⟩ := hstep x (by simp) s hs
      obtain ⟨t, ht⟩ := ih (fun y hy => hstep y (by simp [hy])) hP
      exact ⟨t, foldlM_cons_eq_ok.mpr ⟨m, hm, ht⟩⟩

/-- What a step achieves for its item and no step undoes holds for every item in the end. -/
theorem foldlM_achieves {f : σ → α → Except ε σ} (P : σ → Prop) (Q : α → σ → Prop) {xs : List α}
    {s t : σ}
    (hstep : ∀ x ∈ xs, ∀ s t, P s → f s x = .ok t → P t ∧ Q x t ∧ ∀ y, Q y s → Q y t)
    (hs : P s) (h : xs.foldlM f s = .ok t) : P t ∧ (∀ x ∈ xs, Q x t) ∧ ∀ y, Q y s → Q y t := by
  induction xs generalizing s with
  | nil =>
      rw [foldlM_nil_eq_ok] at h
      rw [← h]
      exact ⟨hs, by simp, fun _ hy => hy⟩
  | cons x xs ih =>
      obtain ⟨m, hm, h⟩ := foldlM_cons_eq_ok.mp h
      obtain ⟨hP, hx, hkeep⟩ := hstep x (by simp) s m hs hm
      obtain ⟨ht, hall, hlater⟩ := ih (fun y hy => hstep y (by simp [hy])) hP h
      refine ⟨ht, ?_, fun y hy => hlater y (hkeep y hy)⟩
      intro y hy
      rcases List.mem_cons.mp hy with rfl | hy
      · exact hlater y hx
      · exact hall y hy

/-! ### Lists read item by item -/

theorem mapM_eq_ok_iff_forall₂ {f : α → Except ε β} {xs : List α} {ys : List β} :
    xs.mapM f = .ok ys ↔ List.Forall₂ (fun x y => f x = .ok y) xs ys := by
  induction xs generalizing ys with
  | nil =>
      rw [List.mapM_nil, pure_eq_ok, List.forall₂_nil_left_iff]
      exact eq_comm
  | cons x xs ih =>
      rw [List.mapM_cons, bind_eq_ok, List.forall₂_cons_left_iff]
      refine exists_congr fun y => ?_
      rw [bind_eq_ok, exists_and_left]
      refine and_congr_right fun _ => exists_congr fun zs => and_congr ih ?_
      rw [pure_eq_ok]
      exact eq_comm

/-- Where every item keeps a feature, the list keeps the features. -/
theorem map_eq_of_mapM {γ : Type} {f : α → Except ε β} {xs : List α} {ys : List β} {g : β → γ}
    {k : α → γ} (hkeep : ∀ x ∈ xs, ∀ y, f x = .ok y → g y = k x) (h : xs.mapM f = .ok ys) :
    ys.map g = xs.map k := by
  rw [mapM_eq_ok_iff_forall₂] at h
  induction h with
  | nil => rfl
  | cons hxy _ ih =>
      rw [List.map_cons, List.map_cons, hkeep _ (by simp) _ hxy,
        ih fun x hx => hkeep x (by simp [hx])]

theorem exists_of_mem_mapM {f : α → Except ε β} {xs : List α} {ys : List β}
    (h : xs.mapM f = .ok ys) {y : β} (hy : y ∈ ys) : ∃ x ∈ xs, f x = .ok y := by
  rw [mapM_eq_ok_iff_forall₂] at h
  induction h with
  | nil => simp at hy
  | cons hxy _ ih =>
      rcases List.mem_cons.mp hy with rfl | hy
      · exact ⟨_, by simp, hxy⟩
      · obtain ⟨x, hx, hf⟩ := ih hy
        exact ⟨x, by simp [hx], hf⟩

theorem exists_mem_of_mapM {f : α → Except ε β} {xs : List α} {ys : List β}
    (h : xs.mapM f = .ok ys) {x : α} (hx : x ∈ xs) : ∃ y ∈ ys, f x = .ok y := by
  rw [mapM_eq_ok_iff_forall₂] at h
  induction h with
  | nil => simp at hx
  | cons hxy _ ih =>
      rcases List.mem_cons.mp hx with rfl | hx
      · exact ⟨_, by simp, hxy⟩
      · obtain ⟨y, hy, hf⟩ := ih hx
        exact ⟨y, by simp [hy], hf⟩

/-- Items are read place by place. -/
theorem getElem?_of_mapM {f : α → Except ε β} {xs : List α} {ys : List β}
    (h : xs.mapM f = .ok ys) {i : Nat} {y : β} (hy : ys[i]? = some y) :
    ∃ x, xs[i]? = some x ∧ f x = .ok y := by
  rw [mapM_eq_ok_iff_forall₂] at h
  induction h generalizing i with
  | nil => simp at hy
  | cons hxy _ ih =>
      cases i with
      | zero =>
          rw [List.getElem?_cons_zero, Option.some.injEq] at hy
          exact ⟨_, rfl, by rw [hxy, hy]⟩
      | succ i => exact ih (by simpa using hy)

theorem exists_getElem?_of_mapM {f : α → Except ε β} {xs : List α} {ys : List β}
    (h : xs.mapM f = .ok ys) {i : Nat} {x : α} (hx : xs[i]? = some x) :
    ∃ y, ys[i]? = some y ∧ f x = .ok y := by
  rw [mapM_eq_ok_iff_forall₂] at h
  induction h generalizing i with
  | nil => simp at hx
  | cons hxy _ ih =>
      cases i with
      | zero =>
          rw [List.getElem?_cons_zero, Option.some.injEq] at hx
          exact ⟨_, rfl, by rw [← hx, hxy]⟩
      | succ i => exact ih (by simpa using hx)

theorem mem_filterAuxM {p : α → Except ε Bool} {xs acc ys : List α}
    (h : xs.filterAuxM p acc = .ok ys) {x : α} :
    x ∈ ys ↔ x ∈ acc ∨ x ∈ xs ∧ p x = .ok true := by
  induction xs generalizing acc with
  | nil =>
      rw [List.filterAuxM, pure_eq_ok] at h
      simp [h]
  | cons z xs ih =>
      rw [List.filterAuxM] at h
      obtain ⟨kept, hkept, h⟩ := bind_eq_ok.mp h
      rw [ih h, List.mem_cons]
      cases kept with
      | true =>
          rw [cond_true, List.mem_cons]
          constructor
          · rintro ((rfl | hacc) | ⟨hxs, hp⟩)
            · exact Or.inr ⟨Or.inl rfl, hkept⟩
            · exact Or.inl hacc
            · exact Or.inr ⟨Or.inr hxs, hp⟩
          · rintro (hacc | ⟨rfl | hxs, hp⟩)
            · exact Or.inl (Or.inr hacc)
            · exact Or.inl (Or.inl rfl)
            · exact Or.inr ⟨hxs, hp⟩
      | false =>
          rw [cond_false]
          refine or_congr_right ?_
          constructor
          · rintro ⟨hxs, hp⟩
            exact ⟨Or.inr hxs, hp⟩
          · rintro ⟨rfl | hxs, hp⟩
            · simp [hkept] at hp
            · exact ⟨hxs, hp⟩

/-- Of a list that is filtered, the items stay that pass. -/
theorem mem_filterM {p : α → Except ε Bool} {xs ys : List α} (h : xs.filterM p = .ok ys) {x : α} :
    x ∈ ys ↔ x ∈ xs ∧ p x = .ok true := by
  obtain ⟨kept, hkept, h⟩ := bind_eq_ok.mp h
  rw [pure_eq_ok] at h
  rw [← h, List.mem_reverse, mem_filterAuxM hkept]
  simp

/-- A list all of whose items can be read can be read. -/
theorem exists_mapM_eq_ok {f : α → Except ε β} {xs : List α} (h : ∀ x ∈ xs, ∃ y, f x = .ok y) :
    ∃ ys, xs.mapM f = .ok ys := by
  induction xs with
  | nil => exact ⟨[], rfl⟩
  | cons x xs ih =>
      obtain ⟨y, hy⟩ := h x (by simp)
      obtain ⟨ys, hys⟩ := ih fun z hz => h z (by simp [hz])
      rw [mapM_eq_ok_iff_forall₂] at hys
      exact ⟨y :: ys, mapM_eq_ok_iff_forall₂.mpr (hys.cons hy)⟩

end VulkanRegistry.Outcome
