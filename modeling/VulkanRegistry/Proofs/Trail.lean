/-
What a trail says about its links.

The nodes on the trail from `x` are nodes that links lead to from `x`, each of them once.
A trail that stops has met all of them: from none of its nodes does a link lead off the
trail, and its last node has no link.  So no node of it can be met again, while a trail
that ends in a cycle shows a node that leads back to itself.  Since links are single, of two
walks from a node one goes on where the other stops (`prefix_or_prefix`).

If only nodes of the world have links, how a trail ends is decided by what the links lead to
(`exists_cycles_of_loops`, `exists_leaves_of_strays`, `stops_of_not`), whatever way the walk
is done.
-/
import Mathlib.Data.List.Chain
import Mathlib.Logic.Relation
import VulkanRegistry.Trail

namespace VulkanRegistry.Trail

variable {α : Type}

/-- One link leads from the first node to the second. -/
def Links (next : α → Option α) (a b : α) : Prop :=
  next a = some b

/-- Links lead from the first node to the second. -/
abbrev Leads (next : α → Option α) : α → α → Prop :=
  Relation.ReflTransGen (Links next)

@[simp] theorem path_cons (x : α) (trail : Trail α) : (trail.cons x).path = x :: trail.path := rfl

@[simp] theorem ending_cons (x : α) (trail : Trail α) :
    (trail.cons x).ending = trail.ending := rfl

@[simp] theorem later_cons (x : α) (trail : Trail α) : (trail.cons x).later = trail.path := rfl

@[simp] theorem last_cons (x : α) (trail : Trail α) : (trail.cons x).last = trail.last := by
  cases trail with
  | mk first later ending =>
      cases later <;> simp [cons, last, path, List.getLast?_cons]

theorem getLast?_path (trail : Trail α) : trail.path.getLast? = some trail.last := by
  rw [path, List.getLast?_cons, last]

theorem last_mem_path (trail : Trail α) : trail.last ∈ trail.path := by
  cases trail with
  | mk first later ending =>
      cases hlast : later.getLast? with
      | none => simp [last, path, hlast]
      | some y => simp [last, path, hlast, List.mem_of_getLast? hlast]

/-- Each node behind the first has one in front of it. -/
theorem exists_mem_zip {trail : Trail α} {y : α} (h : y ∈ trail.later) :
    ∃ x, (x, y) ∈ trail.path.zip trail.later := by
  obtain ⟨i, hi, rfl⟩ := List.getElem_of_mem h
  have hlt : i < trail.path.length := by
    rw [path, List.length_cons]
    omega
  refine ⟨trail.path[i], List.mem_iff_getElem.mpr ⟨i, by rw [List.length_zip]; omega, ?_⟩⟩
  exact List.getElem_zip

/-- A node from which links lead to a node without one never leads back to itself. -/
theorem not_transGen_self {next : α → Option α} {x y : α} (hy : next y = none)
    (h : Leads next x y) :
    ¬ Relation.TransGen (Links next) x x := by
  induction h using Relation.ReflTransGen.head_induction_on with
  | refl =>
      intro hcycle
      obtain ⟨w, hlink, -⟩ := Relation.TransGen.head'_iff.mp hcycle
      simp [Links, hy] at hlink
  | head hlink _ ih =>
      intro hcycle
      obtain ⟨w, hlink', hlead⟩ := Relation.TransGen.head'_iff.mp hcycle
      have hw := Option.some.inj (hlink.symm.trans hlink')
      rw [← hw] at hlead
      exact ih (Relation.TransGen.tail' hlead hlink)

/-- What has no link is where links lead to from every node on the way. -/
theorem leads_of_leads {next : α → Option α} {x y z : α} (hz : next z = none)
    (hxz : Leads next x z) (hxy : Leads next x y) : Leads next y z := by
  induction hxy with
  | refl => exact hxz
  | tail _ hlink ih =>
      rcases Relation.ReflTransGen.cases_head ih with heq | ⟨w, hlink', hlead⟩
      · rw [heq] at hlink
        simp [Links, hz] at hlink
      · rw [Option.some.inj (hlink.symm.trans hlink')]
        exact hlead

/-- Links lead to at most one node without a link. -/
theorem eq_of_leads {next : α → Option α} {x a b : α} (ha : Leads next x a)
    (hb : Leads next x b) (hnexta : next a = none) (hnextb : next b = none) : a = b := by
  rcases Relation.ReflTransGen.cases_head (leads_of_leads hnextb hb ha) with heq | ⟨y, hlink, -⟩
  · exact heq
  · simp [Links, hnexta] at hlink

/-- Links lead from the node to one that leads back to itself. -/
def Loops (next : α → Option α) (x : α) : Prop :=
  ∃ y, Leads next x y ∧ Relation.TransGen (Links next) y y

/-- Links lead from the node out of the world. -/
def Strays (world : List α) (next : α → Option α) (x : α) : Prop :=
  ∃ y, Leads next x y ∧ y ∉ world

theorem not_loops_of_leads {next : α → Option α} {x y : α} (hy : next y = none)
    (h : Leads next x y) : ¬ Loops next x := by
  intro ⟨z, hz, hcycle⟩
  exact not_transGen_self hy (leads_of_leads hy h hz) hcycle

/-- If only nodes of the world have links, nothing outside it has one. -/
theorem next_eq_none_of_not_mem {world : List α} {next : α → Option α}
    (hclosed : ∀ a b, next a = some b → a ∈ world) {y : α} (hy : y ∉ world) : next y = none := by
  cases hnext : next y with
  | none => rfl
  | some z => exact absurd (hclosed y z hnext) hy

/-- What leads out of the world does not come back. -/
theorem not_loops_of_strays {world : List α} {next : α → Option α}
    (hclosed : ∀ a b, next a = some b → a ∈ world) {x : α} (h : Strays world next x) :
    ¬ Loops next x := by
  obtain ⟨y, hleads, hout⟩ := h
  exact not_loops_of_leads (next_eq_none_of_not_mem hclosed hout) hleads

/-! ### Walks

A walk is a list in which every node is what the node in front of it links to.
-/

/-- Of two walks from one node, one goes on where the other stops. -/
theorem prefix_or_prefix {next : α → Option α} {xs ys : List α} (hxs : xs.IsChain (Links next))
    (hys : ys.IsChain (Links next)) (hhead : xs.head? = ys.head?) : xs <+: ys ∨ ys <+: xs := by
  induction xs generalizing ys with
  | nil => exact Or.inl List.nil_prefix
  | cons x xs ih =>
      cases ys with
      | nil => exact Or.inr List.nil_prefix
      | cons y ys =>
          have hxy : x = y := by simpa using hhead
          subst hxy
          rw [List.prefix_cons_inj, List.prefix_cons_inj]
          cases xs with
          | nil => exact Or.inl List.nil_prefix
          | cons a xs =>
              cases ys with
              | nil => exact Or.inr List.nil_prefix
              | cons b ys =>
                  obtain ⟨hlinkA, hchainA⟩ := List.isChain_cons_cons.mp hxs
                  obtain ⟨hlinkB, hchainB⟩ := List.isChain_cons_cons.mp hys
                  have hab : some a = some b := hlinkA.symm.trans hlinkB
                  exact ih hchainA hchainB hab

/-- On a walk, every node but the last links to a node of the walk. -/
theorem exists_next_of_isChain {next : α → Option α} {xs : List α} {last : α}
    (hchain : (xs ++ [last]).IsChain (Links next)) {x : α} (hx : x ∈ xs) :
    ∃ y ∈ xs ++ [last], next x = some y := by
  obtain ⟨front, back, rfl⟩ := List.append_of_mem hx
  have hsplit : front ++ x :: back ++ [last] = front ++ (x :: (back ++ [last])) := by simp
  rw [hsplit] at hchain ⊢
  have hbehind := hchain.right_of_append
  cases hback : back ++ [last] with
  | nil => simp at hback
  | cons y rest =>
      rw [hback] at hbehind
      exact ⟨y, by simp, (List.isChain_cons_cons.mp hbehind).1⟩

theorem leads_of_isChain {next : α → Option α} {x : α} {xs : List α}
    (hchain : xs.IsChain (Links next)) (hhead : xs.head? = some x) {y : α} (hy : y ∈ xs) :
    Leads next x y := by
  induction xs generalizing x with
  | nil => simp at hy
  | cons z xs ih =>
      have hzx : z = x := by simpa using hhead
      subst hzx
      rcases List.mem_cons.mp hy with rfl | hy
      · exact Relation.ReflTransGen.refl
      · cases xs with
        | nil => simp at hy
        | cons w xs =>
            obtain ⟨hlink, hrest⟩ := List.isChain_cons_cons.mp hchain
            exact Relation.ReflTransGen.head hlink (ih hrest rfl hy)

/-- What is closed under links holds whatever they lead to. -/
theorem mem_of_leads {next : α → Option α} {xs : List α}
    (hclosed : ∀ a ∈ xs, ∀ b, next a = some b → b ∈ xs) {x y : α} (hx : x ∈ xs)
    (h : Leads next x y) : y ∈ xs := by
  induction h with
  | refl => exact hx
  | tail _ hlink ih => exact hclosed _ ih _ hlink

/-! ### Closed loops -/

/-- The nodes are met one after the other along links, and the last one, and no other, is one
that was met before. -/
structure ClosesLoop (next : α → Option α) (x : α) (nodes : List α) : Prop where
  head : nodes.head? = some x
  links : nodes.IsChain (Links next)
  closes : ∃ front again, nodes = front ++ [again] ∧ again ∈ front ∧ front.Nodup

/-- The node that closes a loop leads back to itself. -/
theorem ClosesLoop.loops {next : α → Option α} {x : α} {nodes : List α}
    (h : ClosesLoop next x nodes) : Loops next x := by
  obtain ⟨front, again, rfl, hmem, -⟩ := h.closes
  obtain ⟨before, behind, rfl⟩ := List.append_of_mem hmem
  refine ⟨again, leads_of_isChain h.links h.head (by simp), ?_⟩
  have hround : (again :: (behind ++ [again])).IsChain (Links next) := by
    have hlinks := h.links
    rw [List.append_assoc] at hlinks
    exact hlinks.right_of_append
  cases hbehind : behind ++ [again] with
  | nil => simp at hbehind
  | cons y rest =>
      rw [hbehind] at hround
      obtain ⟨hlink, hrest⟩ := List.isChain_cons_cons.mp hround
      have hagain : again ∈ y :: rest := hbehind ▸ List.mem_concat_self
      exact Relation.TransGen.head' hlink (leads_of_isChain hrest rfl hagain)

/-- A walk that closes a loop does not go on: what goes on from it has met a node twice. -/
theorem ClosesLoop.eq_of_prefix {next : α → Option α} {x : α} {nodes others : List α}
    (h : ClosesLoop next x nodes) (hothers : ClosesLoop next x others) (hle : nodes <+: others) :
    nodes = others := by
  obtain ⟨front, again, rfl, hmem, -⟩ := h.closes
  obtain ⟨frontB, againB, rfl, -, hnodup⟩ := hothers.closes
  rcases List.prefix_concat_iff.mp hle with heq | hshort
  · exact heq
  · have htwice : (front ++ [again]).Nodup := hnodup.sublist hshort.sublist
    exact absurd rfl ((List.nodup_append.mp htwice).2.2 again hmem again (by simp))

/-- A node is where one loop at most is closed from. -/
theorem ClosesLoop.unique {next : α → Option α} {x : α} {nodes others : List α}
    (h : ClosesLoop next x nodes) (hothers : ClosesLoop next x others) : nodes = others := by
  rcases prefix_or_prefix h.links hothers.links (h.head.trans hothers.head.symm) with hle | hle
  · exact h.eq_of_prefix hothers hle
  · exact (hothers.eq_of_prefix h hle).symm

variable [DecidableEq α] {world : List α} {next : α → Option α} {seen : List α} {x : α}

@[simp] theorem first_followFrom (world : List α) (next : α → Option α) (seen : List α) (x : α) :
    (followFrom world next seen x).first = x := by
  unfold followFrom
  split
  · rfl
  · split
    · rfl
    · split <;> rfl

theorem leads_of_mem_path {y : α} (h : y ∈ (followFrom world next seen x).path) :
    Leads next x y := by
  fun_induction followFrom world next seen x with
  | case1 seen x hnext =>
      rw [List.mem_singleton.mp h]
  | case2 seen x z hnext hseen =>
      rw [List.mem_singleton.mp h]
  | case3 seen x z hnext hseen hworld ih =>
      rcases List.mem_cons.mp h with rfl | h
      · exact Relation.ReflTransGen.refl
      · exact Relation.ReflTransGen.head hnext (ih h)
  | case4 seen x z hnext hseen hworld =>
      rw [List.mem_singleton.mp h]

/-- The last node is where links lead to from every node of the trail. -/
theorem leads_last_of_mem_path {y : α} (h : y ∈ (followFrom world next seen x).path) :
    Leads next y (followFrom world next seen x).last := by
  fun_induction followFrom world next seen x with
  | case1 seen x hnext =>
      rw [List.mem_singleton.mp h]
      exact Relation.ReflTransGen.refl
  | case2 seen x z hnext hseen =>
      rw [List.mem_singleton.mp h]
      exact Relation.ReflTransGen.refl
  | case3 seen x z hnext hseen hworld ih =>
      rw [last_cons]
      rcases List.mem_cons.mp h with rfl | h
      · exact Relation.ReflTransGen.head hnext (leads_of_mem_path (last_mem_path _))
      · exact ih h
  | case4 seen x z hnext hseen hworld =>
      rw [List.mem_singleton.mp h]
      exact Relation.ReflTransGen.refl

/-- Each node behind the first is the one that the node in front of it links to. -/
theorem links_of_mem_zip {pair : α × α}
    (h : pair ∈ (followFrom world next seen x).path.zip (followFrom world next seen x).later) :
    next pair.1 = some pair.2 := by
  fun_induction followFrom world next seen x with
  | case1 seen x hnext => simp at h
  | case2 seen x z hnext hseen => simp at h
  | case3 seen x z hnext hseen hworld ih =>
      have hpath : (followFrom world next (x :: seen) z).path =
          z :: (followFrom world next (x :: seen) z).later := by
        rw [path, first_followFrom]
      rw [path_cons, later_cons, hpath, List.zip_cons_cons] at h
      rcases List.mem_cons.mp h with rfl | h
      · exact hnext
      · refine ih ?_
        rw [hpath]
        exact h
  | case4 seen x z hnext hseen hworld => simp at h

theorem path_followFrom :
    (followFrom world next seen x).path = x :: (followFrom world next seen x).later := by
  rw [path, first_followFrom]

/-- A trail walks along links. -/
theorem isChain_path : (followFrom world next seen x).path.IsChain (Links next) := by
  fun_induction followFrom world next seen x with
  | case1 seen x hnext => exact List.isChain_singleton x
  | case2 seen x z hnext hseen => exact List.isChain_singleton x
  | case3 seen x z hnext hseen hworld ih =>
      rw [path_cons, path_followFrom]
      rw [path_followFrom] at ih
      exact List.isChain_cons_cons.mpr ⟨hnext, ih⟩
  | case4 seen x z hnext hseen hworld => exact List.isChain_singleton x

/-- A trail meets no node twice, and none of those met before. -/
theorem nodup_path (hx : x ∉ seen) :
    (followFrom world next seen x).path.Nodup ∧
      ∀ y ∈ (followFrom world next seen x).path, y ∉ seen := by
  fun_induction followFrom world next seen x with
  | case1 seen x hnext => simp [path, hx]
  | case2 seen x z hnext hseen => simp [path, hx]
  | case3 seen x z hnext hseen hworld ih =>
      obtain ⟨hnodup, hnew⟩ := ih hseen
      rw [path_cons]
      refine ⟨List.nodup_cons.mpr ⟨?_, hnodup⟩, ?_⟩
      · intro hagain
        exact hnew x hagain (List.mem_cons_self ..)
      · intro y hy
        rcases List.mem_cons.mp hy with rfl | hy
        · exact hx
        · intro hmem
          exact hnew y hy (List.mem_cons_of_mem x hmem)
  | case4 seen x z hnext hseen hworld => simp [path, hx]

/-- Behind its first node, a trail stays in the world. -/
theorem mem_world_of_mem_later {y : α} (h : y ∈ (followFrom world next seen x).later) :
    y ∈ world := by
  fun_induction followFrom world next seen x with
  | case1 seen x hnext => simp at h
  | case2 seen x z hnext hseen => simp at h
  | case3 seen x z hnext hseen hworld ih =>
      rw [later_cons, path_followFrom] at h
      rcases List.mem_cons.mp h with rfl | h
      · exact hworld
      · exact ih h
  | case4 seen x z hnext hseen hworld => simp at h

theorem mem_world_of_mem_path (hx : x ∈ world) {y : α}
    (h : y ∈ (followFrom world next seen x).path) : y ∈ world := by
  rw [path_followFrom] at h
  rcases List.mem_cons.mp h with rfl | h
  · exact hx
  · exact mem_world_of_mem_later h

/-! ### How a trail ends -/

theorem next_last_of_stops (h : (followFrom world next seen x).ending = .stops) :
    next (followFrom world next seen x).last = none := by
  fun_induction followFrom world next seen x with
  | case1 seen x hnext => exact hnext
  | case2 seen x z hnext hseen => simp at h
  | case3 seen x z hnext hseen hworld ih =>
      rw [last_cons]
      exact ih h
  | case4 seen x z hnext hseen hworld => simp at h

theorem next_last_of_leaves {y : α} (h : (followFrom world next seen x).ending = .leaves y) :
    next (followFrom world next seen x).last = some y ∧ y ∉ world := by
  fun_induction followFrom world next seen x with
  | case1 seen x hnext => simp at h
  | case2 seen x z hnext hseen => simp at h
  | case3 seen x z hnext hseen hworld ih =>
      rw [last_cons]
      exact ih h
  | case4 seen x z hnext hseen hworld =>
      simp only [Ending.leaves.injEq] at h
      rw [← h]
      exact ⟨hnext, hworld⟩

theorem next_last_of_cycles {y : α} (h : (followFrom world next seen x).ending = .cycles y) :
    next (followFrom world next seen x).last = some y ∧
      y ∈ (followFrom world next seen x).path ++ seen := by
  fun_induction followFrom world next seen x with
  | case1 seen x hnext => simp at h
  | case2 seen x z hnext hseen =>
      simp only [Ending.cycles.injEq] at h
      rw [← h]
      exact ⟨hnext, hseen⟩
  | case3 seen x z hnext hseen hworld ih =>
      obtain ⟨hlast, hmem⟩ := ih h
      rw [last_cons]
      refine ⟨hlast, ?_⟩
      simp only [path_cons, List.mem_append, List.mem_cons] at hmem ⊢
      rcases hmem with hpath | rfl | hmem
      · exact Or.inl (Or.inr hpath)
      · exact Or.inl (Or.inl rfl)
      · exact Or.inr hmem
  | case4 seen x z hnext hseen hworld => simp at h

/-- A trail that stops has met whatever links lead to. -/
theorem mem_path_of_leads {y : α} (hstops : (followFrom world next seen x).ending = .stops)
    (h : Leads next x y) : y ∈ (followFrom world next seen x).path := by
  fun_induction followFrom world next seen x with
  | case1 seen x hnext =>
      rcases Relation.ReflTransGen.cases_head h with rfl | ⟨z, hlink, -⟩
      · simp [path]
      · simp [Links, hnext] at hlink
  | case2 seen x z hnext hseen => simp at hstops
  | case3 seen x z hnext hseen hworld ih =>
      rcases Relation.ReflTransGen.cases_head h with rfl | ⟨w, hlink, hlead⟩
      · simp
      · have hw : z = w := Option.some.inj (hnext.symm.trans hlink)
        rw [← hw] at hlead
        exact List.mem_cons_of_mem x (ih hstops hlead)
  | case4 seen x z hnext hseen hworld => simp at hstops

/-- Behind the first node, too. -/
theorem mem_later_of_transGen {y : α} (hstops : (followFrom world next seen x).ending = .stops)
    (h : Relation.TransGen (Links next) x y) : y ∈ (followFrom world next seen x).later := by
  obtain ⟨w, hlink, hlead⟩ := Relation.TransGen.head'_iff.mp h
  unfold followFrom at hstops ⊢
  split at hstops
  · next hnext => simp [Links, hnext] at hlink
  · next z hnext =>
      have hw : z = w := Option.some.inj (hnext.symm.trans hlink)
      rw [← hw] at hlead
      split at hstops
      · simp at hstops
      · split at hstops
        · next hseen hworld =>
            simp only [hseen, hworld, dite_true, dite_false, later_cons]
            exact mem_path_of_leads hstops hlead
        · simp at hstops

/-! ### Which ending a trail has

If only nodes of the world have links, the three endings are three different things to say
about what links lead to.
-/

/-- Where a trail comes back to a node, that node leads back to itself. -/
theorem loops_of_cycles {y : α} (h : (follow world next x).ending = .cycles y) :
    y ∈ (follow world next x).path ∧ Loops next x := by
  obtain ⟨hlink, hmem⟩ := next_last_of_cycles h
  rw [List.append_nil] at hmem
  exact ⟨hmem, y, leads_of_mem_path hmem,
    Relation.TransGen.tail' (leads_last_of_mem_path hmem) hlink⟩

/-- A trail that comes back to a node closes a loop with it. -/
theorem closesLoop_of_cycles {y : α} (h : (follow world next x).ending = .cycles y) :
    ClosesLoop next x ((follow world next x).path ++ [y]) := by
  refine ⟨?_, ?_, _, y, rfl, (loops_of_cycles h).1, (nodup_path (List.not_mem_nil)).1⟩
  · rw [follow, path_followFrom]
    rfl
  · refine isChain_path.append (List.isChain_singleton y) ?_
    intro z hz w hw
    rw [getLast?_path, Option.mem_some_iff] at hz
    rw [List.head?_cons, Option.mem_some_iff] at hw
    rw [← hz, ← hw]
    exact (next_last_of_cycles h).1

theorem strays_of_leaves {y : α} (h : (follow world next x).ending = .leaves y) :
    Strays world next x := by
  obtain ⟨hlink, hout⟩ := next_last_of_leaves h
  exact ⟨y, (leads_of_mem_path (last_mem_path _)).tail hlink, hout⟩

theorem stops_of_not (hloops : ¬ Loops next x) (hstrays : ¬ Strays world next x) :
    (follow world next x).ending = .stops := by
  cases hending : (follow world next x).ending with
  | stops => rfl
  | cycles y => exact absurd (loops_of_cycles hending).2 hloops
  | leaves y => exact absurd (strays_of_leaves hending) hstrays

theorem not_loops_of_stops (h : (follow world next x).ending = .stops) : ¬ Loops next x :=
  not_loops_of_leads (next_last_of_stops h) (leads_of_mem_path (last_mem_path _))

section Closed

variable (hclosed : ∀ a b, next a = some b → a ∈ world)

include hclosed

theorem exists_cycles_of_loops (h : Loops next x) :
    ∃ y, (follow world next x).ending = .cycles y := by
  cases hending : (follow world next x).ending with
  | stops => exact absurd h (not_loops_of_stops hending)
  | cycles y => exact ⟨y, rfl⟩
  | leaves y => exact absurd h (not_loops_of_strays hclosed (strays_of_leaves hending))

theorem not_strays_of_stops (hx : x ∈ world) (h : (follow world next x).ending = .stops) :
    ¬ Strays world next x := by
  intro ⟨y, hleads, hout⟩
  have hlast := last_mem_path (follow world next x)
  have hsame := eq_of_leads hleads (leads_of_mem_path hlast)
    (next_eq_none_of_not_mem hclosed hout) (next_last_of_stops h)
  rw [hsame] at hout
  exact hout (mem_world_of_mem_path hx hlast)

theorem exists_leaves_of_strays (hx : x ∈ world) (h : Strays world next x) :
    ∃ y, (follow world next x).ending = .leaves y := by
  cases hending : (follow world next x).ending with
  | stops => exact absurd h (not_strays_of_stops hclosed hx hending)
  | cycles y => exact absurd (loops_of_cycles hending).2 (not_loops_of_strays hclosed h)
  | leaves y => exact ⟨y, rfl⟩

end Closed

end VulkanRegistry.Trail
