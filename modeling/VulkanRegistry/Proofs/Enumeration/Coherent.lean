/-
Merging contributions that agree.

The first contribution of a name counts.  If that one is an alias of a name that is contributed
too, the two are coherent when they have one number and following such aliases never comes back.
Then the last name on every chain has the number of its first one and is no alias of a
contributed name, so every number has a name that stands for it (`exists_standsAlone`), and
merging makes of the contributions exactly what `MergedFrom` says.
-/
import Mathlib.Data.List.Nodup
import VulkanRegistry.Proofs.Enumeration.Canonical

namespace VulkanRegistry.Contribution

/-- The contribution of a name that counts. -/
def first? (cs : List Contribution) (name : String) : Option Contribution :=
  cs.find? (·.name == name)

/-- The contributed name that a name is an alias of. -/
def contributedTarget? (cs : List Contribution) (name : String) : Option String :=
  ((first? cs name).bind (·.aliasOf)).filter (· ∈ cs.map (·.name))

/-- Aliases of contributed names have their numbers, and do not go round in circles. -/
structure Coherent (cs : List Contribution) : Prop where
  agree : ∀ name target, contributedTarget? cs name = some target →
    (first? cs name).map (·.value) = (first? cs target).map (·.value)
  acyclic : ∀ name, ¬ Relation.TransGen (Trail.Links (contributedTarget? cs)) name name

/-- The values are what merging is to make of contributions: one for each name, in the order in
which the names first come, with number and comment of the contribution that counts; and for
each number the first name that is no alias of a contributed one stands for it, while all other
names of the number are aliases of that. -/
structure MergedFrom (cs : List Contribution) (values : List EnumValue) : Prop where
  names : values.map (·.name) = (cs.map (·.name)).eraseDups
  firsts : ∀ v ∈ values, ∃ c, first? cs v.name = some c ∧ v.value = c.value ∧ v.comment = c.comment
  canonical : ∀ number ∈ values.map (·.value), ∃ before v after, values = before ++ v :: after ∧
    v.value = number ∧ contributedTarget? cs v.name = none ∧ v.aliasOf = none ∧
    (∀ w ∈ before, w.value = number → contributedTarget? cs w.name ≠ none) ∧
    ∀ w ∈ before ++ after, w.value = number → w.aliasOf = some v.name

variable {cs : List Contribution}

/-! ### The contributions that count -/

theorem first?_eq_some {name : String} {c : Contribution} (h : first? cs name = some c) :
    c ∈ cs ∧ c.name = name :=
  ⟨List.mem_of_find?_eq_some h, by simpa using List.find?_some h⟩

theorem exists_first? {name : String} (h : name ∈ cs.map (·.name)) :
    ∃ c, first? cs name = some c := by
  rw [← Option.isSome_iff_exists, first?, List.find?_isSome]
  obtain ⟨c, hc, hname⟩ := List.mem_map.mp h
  exact ⟨c, hc, by simpa using hname⟩

theorem mem_firstOfEach_iff {c : Contribution} :
    c ∈ firstOfEach cs ↔ first? cs c.name = some c := by
  induction cs with
  | nil => simp [firstOfEach, first?]
  | cons d cs ih =>
      rw [firstOfEach, List.mem_cons, List.mem_filter, ih, first?, first?, List.find?_cons]
      by_cases hname : d.name = c.name
      · simp [hname, eq_comm]
      · have hne : c ≠ d := fun heq => hname (by rw [heq])
        rw [beq_eq_false_iff_ne.mpr hname]
        simp [hne, Ne.symm hname]

/-- A further contribution counts if its name is new. -/
theorem firstOfEach_concat (c : Contribution) :
    firstOfEach (cs ++ [c]) =
      firstOfEach cs ++ (if c.name ∈ cs.map (·.name) then [] else [c]) := by
  induction cs with
  | nil => simp [firstOfEach]
  | cons d cs ih =>
      rw [List.cons_append, firstOfEach, ih, firstOfEach, List.filter_append, List.map_cons]
      by_cases hold : c.name ∈ cs.map (·.name)
      · rw [if_pos hold, if_pos (List.mem_cons_of_mem _ hold)]
        rfl
      · by_cases hsame : c.name = d.name
        · simp [hsame]
        · simp [hold, hsame]

theorem names_firstOfEach : (firstOfEach cs).map (·.name) = (cs.map (·.name)).eraseDups := by
  induction cs using List.reverseRecOn with
  | nil => rfl
  | append_singleton cs c ih =>
      rw [firstOfEach_concat, List.map_append, List.map_append, ih, List.eraseDups_append,
        List.map_singleton, List.removeAll, List.filter_singleton]
      by_cases hold : c.name ∈ cs.map (·.name)
      · rw [if_pos hold, List.elem_eq_true_of_mem hold]
        rfl
      · have hnew : List.elem c.name (cs.map (·.name)) = false := by simpa using hold
        rw [if_neg hold, hnew]
        rfl

/-! ### Chains of aliases -/

theorem contributedTarget?_eq_some {name target : String}
    (h : contributedTarget? cs name = some target) :
    ∃ c, first? cs name = some c ∧ c.aliasOf = some target ∧ target ∈ cs.map (·.name) := by
  obtain ⟨halias, hmem⟩ := Option.filter_eq_some_iff.mp h
  obtain ⟨c, hc, halias⟩ := Option.bind_eq_some_iff.mp halias
  exact ⟨c, hc, halias, by simpa using hmem⟩

/-- What counts stands alone if its name is no alias of a contributed one. -/
theorem standsAlone_iff {c : Contribution} (hc : c ∈ firstOfEach cs) :
    standsAlone (firstOfEach cs) c = true ↔ contributedTarget? cs c.name = none := by
  rw [contributedTarget?, mem_firstOfEach_iff.mp hc, Option.bind_some, standsAlone]
  cases c.aliasOf with
  | none => simp
  | some target =>
      have hnames : target ∉ (firstOfEach cs).map (·.name) ↔ target ∉ cs.map (·.name) :=
        not_congr mem_names_firstOfEach
      simp only [List.mem_map, not_exists, not_and] at hnames
      simpa [Option.filter_eq_none_iff] using hnames

/-- Along a chain of aliases the number stays. -/
theorem Coherent.value_eq (h : Coherent cs) {name dest : String}
    (hleads : Trail.Leads (contributedTarget? cs) name dest) :
    (first? cs name).map (·.value) = (first? cs dest).map (·.value) := by
  induction hleads with
  | refl => rfl
  | tail _ hlink ih => exact ih.trans (h.agree _ _ hlink)

/-- Every chain stops, for it neither comes back nor leaves the contributed names. -/
theorem Coherent.stops (h : Coherent cs) {name : String} (hname : name ∈ cs.map (·.name)) :
    (Trail.follow (cs.map (·.name)) (contributedTarget? cs) name).ending = .stops := by
  refine Trail.stops_of_not ?_ ?_
  · rintro ⟨again, -, hcycle⟩
    exact h.acyclic again hcycle
  · intro ⟨missing, hleads, hout⟩
    rcases Relation.ReflTransGen.cases_tail hleads with heq | ⟨via, -, hlink⟩
    · rw [heq] at hout
      exact hout hname
    · obtain ⟨-, -, -, hmem⟩ := contributedTarget?_eq_some hlink
      exact hout hmem

theorem Coherent.exists_standsAlone (h : Coherent cs) {c : Contribution}
    (hc : c ∈ firstOfEach cs) :
    ∃ e ∈ firstOfEach cs, e.value = c.value ∧ standsAlone (firstOfEach cs) e = true := by
  have hfirst := mem_firstOfEach_iff.mp hc
  have hname : c.name ∈ cs.map (·.name) := List.mem_map_of_mem (first?_eq_some hfirst).1
  have hlast := Trail.last_mem_path
    (Trail.follow (cs.map (·.name)) (contributedTarget? cs) c.name)
  have hnone := Trail.next_last_of_stops (h.stops hname)
  obtain ⟨e, he⟩ := exists_first? (Trail.mem_world_of_mem_path hname hlast)
  obtain ⟨-, hsame⟩ := first?_eq_some he
  have hvalue := h.value_eq (Trail.leads_of_mem_path hlast)
  rw [hfirst, show first? cs _ = some e from he, Option.map_some, Option.map_some,
    Option.some.injEq] at hvalue
  have hmem : e ∈ firstOfEach cs := by
    rw [mem_firstOfEach_iff, hsame]
    exact he
  refine ⟨e, hmem, hvalue.symm, (standsAlone_iff hmem).mpr ?_⟩
  rw [hsame]
  exact hnone

/-! ### The merged values -/

/-- A number that some contribution stands alone with is split at the first such one. -/
theorem exists_split_of_standsAlone {entries : List Contribution} {e : Contribution}
    (he : e ∈ entries) (halone : standsAlone entries e = true) :
    ∃ before first after, entries = before ++ first :: after ∧ first.value = e.value ∧
      standsAlone entries first = true ∧ canonicalName? entries e.value = some first.name ∧
      ∀ c ∈ before, c.value = e.value → standsAlone entries c = false := by
  obtain ⟨name, hname⟩ := Option.ne_none_iff_exists'.mp (canonicalName?_ne_none he halone)
  obtain ⟨first, hfirst, rfl⟩ := Option.map_eq_some_iff.mp hname
  obtain ⟨hfound, before, after, hsplit, hbefore⟩ := List.find?_eq_some_iff_append.mp hfirst
  rw [Bool.and_eq_true, beq_iff_eq] at hfound
  refine ⟨before, first, after, hsplit, hfound.2, hfound.1, hname, ?_⟩
  intro c hc hvalue
  simpa [hvalue] using hbefore c hc

/-- A name that stands for its number is no alias, and every other name of the number is one
of it. -/
theorem aliasOf_toValue_of_split {entries before after : List Contribution} {first : Contribution}
    (hnodup : (entries.map (·.name)).Nodup) (hsplit : entries = before ++ first :: after)
    (hname : canonicalName? entries first.value = some first.name) :
    (toValue entries first).aliasOf = none ∧ ∀ c ∈ before ++ after, c.value = first.value →
      (toValue entries c).aliasOf = some first.name := by
  refine ⟨?_, ?_⟩
  · rw [aliasOf_toValue_eq_none_iff, hname]
    exact fun name heq => (Option.some.inj heq).symm
  · intro c hc hvalue
    have hne : first.name ≠ c.name := by
      rw [hsplit, List.map_append, List.map_cons, List.nodup_middle, ← List.map_append,
        List.nodup_cons] at hnodup
      exact fun heq => hnodup.1 (heq ▸ List.mem_map_of_mem hc)
    show (canonicalName? entries c.value).filter _ = _
    rw [hvalue, hname]
    simpa using hne

/--
**Coherent contributions merge as they should.**  Of contributions of the core and of
extensions that are coherent, merging keeps the first of each name, in order, and gives every
number one name: the first that is no alias of a contributed name.
-/
theorem merge_of_coherent {core extension : List Contribution}
    (h : Coherent (core ++ extension)) :
    MergedFrom (core ++ extension) (merge core extension) := by
  generalize hentries : firstOfEach (core ++ extension) = entries
  have hmerge : merge core extension = entries.map (toValue entries) := by
    rw [merge, hentries]
  have hcounts : ∀ c ∈ entries, c ∈ firstOfEach (core ++ extension) := by
    rw [hentries]
    exact fun c hc => hc
  have hnodup : (entries.map (·.name)).Nodup := by
    rw [← hentries]
    exact nodup_names_firstOfEach _
  have halone : ∀ c ∈ entries, (standsAlone entries c = true ↔
      contributedTarget? (core ++ extension) c.name = none) := by
    intro c hc
    rw [← standsAlone_iff (hcounts c hc), hentries]
  rw [hmerge]
  refine ⟨?names, ?firsts, ?canonical⟩
  case names =>
    rw [List.map_map, ← names_firstOfEach, hentries]
    rfl
  case firsts =>
    intro v hv
    obtain ⟨c, hc, rfl⟩ := List.mem_map.mp hv
    exact ⟨c, mem_firstOfEach_iff.mp (hcounts c hc), rfl, rfl⟩
  case canonical =>
    intro number hnumber
    obtain ⟨v, hv, rfl⟩ := List.mem_map.mp hnumber
    obtain ⟨c, hc, rfl⟩ := List.mem_map.mp hv
    obtain ⟨e, he, hvalue, hstands⟩ := h.exists_standsAlone (hcounts c hc)
    rw [hentries] at he hstands
    obtain ⟨before, first, after, hsplit, hfirst, hfirstStands, hname, hbefore⟩ :=
      exists_split_of_standsAlone he hstands
    have hmem : ∀ x, x ∈ before ∨ x = first ∨ x ∈ after → x ∈ entries := by
      intro x hx
      rw [hsplit, List.mem_append, List.mem_cons]
      exact hx
    have hnumber : (toValue entries c).value = first.value := by
      rw [hfirst, hvalue]
      rfl
    rw [← hfirst] at hname hbefore
    obtain ⟨hnone, halias⟩ := aliasOf_toValue_of_split hnodup hsplit hname
    rw [hnumber]
    refine ⟨before.map (toValue entries), toValue entries first, after.map (toValue entries),
      ?_, rfl, (halone first (hmem _ (Or.inr (Or.inl rfl)))).mp hfirstStands, hnone, ?_, ?_⟩
    · rw [← List.map_cons, ← List.map_append, ← hsplit]
    · intro w hw hsame
      obtain ⟨d, hd, rfl⟩ := List.mem_map.mp hw
      intro hfree
      have hstandsToo := (halone d (hmem d (Or.inl hd))).mpr hfree
      rw [hbefore d hd hsame] at hstandsToo
      exact absurd hstandsToo (by decide)
    · intro w hw hsame
      rw [← List.map_append] at hw
      obtain ⟨d, hd, rfl⟩ := List.mem_map.mp hw
      exact halias d hd hsame

/-- What a core contributes: a chain of aliases that leads to what an extension contributes, and
an alias of a name that nothing contributes. -/
def chainedCore : List Contribution :=
  [⟨"VK_OLDEST", 5, some "VK_OLD", none⟩, ⟨"VK_OLD", 5, some "VK_NEW", none⟩,
    ⟨"VK_LOST", 7, some "VK_GONE", some "lost"⟩]

/-- What an extension contributes to it; one name comes again with another number. -/
def chainedExtension : List Contribution :=
  [⟨"VK_NEW", 5, none, none⟩, ⟨"VK_OLD", 9, none, none⟩, ⟨"VK_LAST", 7, none, none⟩]

theorem coherent_chained : Coherent (chainedCore ++ chainedExtension) := by
  have hstops : ∀ name ∈ (chainedCore ++ chainedExtension).map (·.name),
      (Trail.follow ((chainedCore ++ chainedExtension).map (·.name))
        (contributedTarget? (chainedCore ++ chainedExtension)) name).ending = .stops := by
    decide +kernel
  have hagree : ∀ name ∈ (chainedCore ++ chainedExtension).map (·.name),
      ∀ target ∈ contributedTarget? (chainedCore ++ chainedExtension) name,
        (first? (chainedCore ++ chainedExtension) name).map (·.value) =
          (first? (chainedCore ++ chainedExtension) target).map (·.value) := by
    decide +kernel
  have hmem : ∀ name target,
      contributedTarget? (chainedCore ++ chainedExtension) name = some target →
        name ∈ (chainedCore ++ chainedExtension).map (·.name) := by
    intro name target h
    obtain ⟨c, hc, -⟩ := contributedTarget?_eq_some h
    obtain ⟨hc, hname⟩ := first?_eq_some hc
    exact List.mem_map.mpr ⟨c, hc, hname⟩
  refine ⟨fun name target h => hagree name (hmem name target h) target h, ?_⟩
  intro name hcycle
  obtain ⟨next, hlink, -⟩ := Relation.TransGen.head'_iff.mp hcycle
  exact Trail.not_loops_of_stops (hstops name (hmem name next hlink))
    ⟨name, Relation.ReflTransGen.refl, hcycle⟩

/-- The chain ends at the extension's name, which stands for the number; an alias of a name that
is not there stands for its own. -/
theorem merge_of_coherent_chained :
    Coherent (chainedCore ++ chainedExtension) ∧
      MergedFrom (chainedCore ++ chainedExtension) (merge chainedCore chainedExtension) ∧
      merge chainedCore chainedExtension =
        [⟨"VK_OLDEST", 5, some "VK_NEW", none⟩, ⟨"VK_OLD", 5, some "VK_NEW", none⟩,
          ⟨"VK_LOST", 7, none, some "lost"⟩, ⟨"VK_NEW", 5, none, none⟩,
          ⟨"VK_LAST", 7, some "VK_LOST", none⟩] :=
  ⟨coherent_chained, merge_of_coherent coherent_chained, by decide +kernel⟩

end VulkanRegistry.Contribution
