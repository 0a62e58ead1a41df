/-
Which names the table of commands has.

A command in use is inserted under its name, or given as another name to the command at the
end of its chain of aliases; both add that name and no other (`contains_buildCommands`).  Only
the first declaration of a name is ever in use, so the names of the declarations in use are
distinct, in the order of the document, and nothing is dropped when they are listed.
-/
import VulkanRegistry.Proofs.Registry.Fill

namespace VulkanRegistry

/-! ### Adding names -/

namespace CommandTable

variable {table next : CommandTable}

theorem contains_iff {name : String} :
    table.contains name = true ↔ ∃ c ∈ table.commands, c.hasName name = true := by
  simp [contains, get?]

theorem not_contains_empty (name : String) : empty.contains name = false := rfl

theorem contains_insert {command : Command} (hnone : command.aliases = []) (name : String) :
    (table.insert command).contains name = true ↔
      table.contains name = true ∨ command.name = name := by
  have hown : command.hasName name = true ↔ command.name = name := by
    simp [Command.hasName, hnone]
  unfold insert
  by_cases htaken : table.contains command.name = true
  · rw [if_pos htaken]
    constructor
    · intro h
      exact Or.inl h
    · rintro (h | rfl)
      · exact h
      · exact htaken
  · rw [if_neg htaken, contains_iff, contains_iff]
    simp [or_and_right, exists_or, hown]

theorem hasName_append {c : Command} {other name : String} :
    ({ c with aliases := c.aliases ++ [other] } : Command).hasName name = true ↔
      c.hasName name = true ∨ other = name := by
  simp only [Command.hasName, Bool.or_eq_true, beq_iff_eq, List.contains_iff_mem, List.mem_append,
    List.mem_singleton, or_assoc, eq_comm (a := name)]

theorem exists_mem_modify {α : Type} {f : α → α} {list : List α} {i j : Nat} {a : α}
    {p : α → Prop} (hj : list[j]? = some a) (h : p (if i = j then f a else a)) :
    ∃ x ∈ list.modify i f, p x :=
  ⟨_, List.mem_of_getElem? (by rw [List.getElem?_modify, hj]; rfl), h⟩

/-- Another name for a command is the one name that is added. -/
theorem contains_insertAlias {other target : String} (h : table.insertAlias other target = .ok next)
    (name : String) :
    next.contains name = true ↔ table.contains name = true ∨ other = name := by
  unfold insertAlias at h
  split at h
  · simp at h
  · next htarget =>
      split at h
      · next htaken =>
          rw [← Except.ok.inj h]
          constructor
          · intro hname
            exact Or.inl hname
          · rintro (hname | rfl)
            · exact hname
            · exact htaken
      · rw [← Except.ok.inj h]
        have hfind : ∃ place, table.commands.findIdx? (·.hasName target) = some place := by
          rw [← Option.isSome_iff_exists, List.findIdx?_isSome, List.any_eq_true]
          exact contains_iff.mp (by simpa using htarget)
        obtain ⟨place, hplace⟩ := hfind
        obtain ⟨hlt, -, -⟩ := List.findIdx?_eq_some_iff_getElem.mp hplace
        rw [modify, hplace, contains_iff, contains_iff]
        constructor
        · rintro ⟨c, hc, hname⟩
          rcases ActiveSet.mem_modify hc with hc | ⟨old, hold, rfl⟩
          · exact Or.inl ⟨c, hc, hname⟩
          · rcases hasName_append.mp hname with hname | heq
            · exact Or.inl ⟨old, hold, hname⟩
            · exact Or.inr heq
        · -- The command that is changed keeps its names, and every other one stays.
          rintro (⟨c, hc, hname⟩ | heq)
          · obtain ⟨i, hi⟩ := List.mem_iff_getElem?.mp hc
            refine exists_mem_modify hi ?_
            by_cases hchanged : place = i
            · rw [if_pos hchanged, hasName_append]
              exact Or.inl hname
            · rwa [if_neg hchanged]
          · refine exists_mem_modify (List.getElem?_eq_getElem hlt) ?_
            rw [if_pos rfl, hasName_append]
            exact Or.inr heq

end CommandTable

/-! ### The names of the commands in use -/

/-- Adding a command inserts it under the name of its declaration, with no other names. -/
theorem exists_insert_of_addCommand {types : TypeTable} {constants : ConstantTable}
    {set : ActiveSet} {features : List Feature} {table next : CommandTable}
    {placed : Nat × CommandDecl}
    (h : addCommand types constants set features table placed = .ok next) :
    ∃ command : Command, command.name = placed.2.name ∧ command.aliases = [] ∧
      next = table.insert command := by
  obtain ⟨command, hcommand, h⟩ := Outcome.bind_eq_ok.mp h
  obtain ⟨params, -, hcommand⟩ := Outcome.bind_eq_ok.mp hcommand
  obtain ⟨dispatch, -, hcommand⟩ := Outcome.bind_eq_ok.mp hcommand
  obtain ⟨returnType, -, hcommand⟩ := Outcome.bind_eq_ok.mp hcommand
  rw [Outcome.pure_eq_ok] at h hcommand
  exact ⟨_, by rw [← hcommand], by rw [← hcommand], h.symm⟩

theorem contains_addCommand {types : TypeTable} {constants : ConstantTable} {set : ActiveSet}
    {features : List Feature} {table next : CommandTable} {placed : Nat × CommandDecl}
    (h : addCommand types constants set features table placed = .ok next) (name : String) :
    next.contains name = true ↔ table.contains name = true ∨ placed.2.name = name := by
  obtain ⟨command, hname, hplain, rfl⟩ := exists_insert_of_addCommand h
  rw [← hname]
  exact CommandTable.contains_insert hplain name

/-- A run in which every step adds one name adds the names of all its steps. -/
theorem contains_foldlM {f : CommandTable → Nat × CommandDecl → Outcome CommandTable}
    (hstep : ∀ table next placed, f table placed = .ok next → ∀ name,
      (next.contains name = true ↔ table.contains name = true ∨ placed.2.name = name))
    {run : List (Nat × CommandDecl)} {table next : CommandTable}
    (h : run.foldlM f table = .ok next) (name : String) :
    next.contains name = true ↔
      table.contains name = true ∨ ∃ placed ∈ run, placed.2.name = name := by
  induction run generalizing table with
  | nil =>
      rw [Outcome.foldlM_nil_eq_ok] at h
      simp [h]
  | cons placed run ih =>
      obtain ⟨middle, hmiddle, h⟩ := Outcome.foldlM_cons_eq_ok.mp h
      rw [ih h, hstep _ _ _ hmiddle name]
      simp [or_assoc]

/-- The names of the table are those of the declarations in use. -/
theorem contains_buildCommands {types : TypeTable} {constants : ConstantTable}
    {index : EntityIndex} {set : ActiveSet} {features : List Feature} {table : CommandTable}
    (h : buildCommands types constants index set features = .ok table) (name : String) :
    table.contains name = true ↔ ∃ placed ∈ index.active set, placed.2.name = name := by
  obtain ⟨named, hnamed, h⟩ := Outcome.bind_eq_ok.mp h
  rw [contains_foldlM (fun _ _ _ hadd => CommandTable.contains_insertAlias hadd) h,
    contains_foldlM (fun _ _ _ hadd => contains_addCommand hadd) hnamed]
  simp only [CommandTable.not_contains_empty, Bool.false_eq_true, false_or, List.mem_filter]
  constructor
  · rintro (⟨placed, ⟨hmem, -⟩, hname⟩ | ⟨placed, ⟨hmem, -⟩, hname⟩)
    · exact ⟨placed, hmem, hname⟩
    · exact ⟨placed, hmem, hname⟩
  · rintro ⟨placed, hmem, hname⟩
    cases halias : placed.2.aliasOf with
    | none => exact Or.inl ⟨placed, ⟨hmem, by simp [halias]⟩, hname⟩
    | some target => exact Or.inr ⟨placed, ⟨hmem, by simp [halias]⟩, hname⟩

/-! ### Whose names they are -/

namespace CommandTable

/-- Every name of a command leads to the command's own name. -/
def NamedAlong (next : String → Option String) (table : CommandTable) : Prop :=
  ∀ c ∈ table.commands, ∀ name, c.hasName name = true → Trail.Leads next name c.name

variable {next : String → Option String} {table other : CommandTable}

theorem namedAlong_insert {command : Command} (hnone : command.aliases = [])
    (h : table.NamedAlong next) : (table.insert command).NamedAlong next := by
  intro c hc name hname
  rcases mem_insert hc with hc | rfl
  · exact h c hc name hname
  · have hown : c.name = name := by simpa [Command.hasName, hnone] using hname
    exact hown ▸ Relation.ReflTransGen.refl

/-- What leads to a name of a command leads on to the command's own name. -/
theorem namedAlong_insertAlias {name target : String} (hleads : Trail.Leads next name target)
    (h : table.NamedAlong next) (hinsert : table.insertAlias name target = .ok other) :
    other.NamedAlong next := by
  unfold insertAlias at hinsert
  split at hinsert
  · simp at hinsert
  · split at hinsert
    · rw [← Except.ok.inj hinsert]
      exact h
    · rw [← Except.ok.inj hinsert, modify]
      split
      · next place hplace =>
          obtain ⟨hlt, htarget, -⟩ := List.findIdx?_eq_some_iff_getElem.mp hplace
          intro c hc found hfound
          obtain ⟨i, hi⟩ := List.mem_iff_getElem?.mp hc
          rw [List.getElem?_modify] at hi
          obtain ⟨old, hold, rfl⟩ := Option.map_eq_some_iff.mp hi
          by_cases hchanged : place = i
          · rw [if_pos hchanged] at hfound ⊢
            rw [← hchanged, List.getElem?_eq_getElem hlt, Option.some.injEq] at hold
            rw [← hold] at hfound ⊢
            rcases hasName_append.mp hfound with hfound | rfl
            · exact h _ (List.getElem_mem hlt) found hfound
            · exact hleads.trans (h _ (List.getElem_mem hlt) target htarget)
          · rw [if_neg hchanged] at hfound ⊢
            exact h old (List.mem_of_getElem? hold) found hfound
      · exact h

end CommandTable

/-- Every name of a command leads to the command along the aliases of the document. -/
theorem namedAlong_buildCommands {types : TypeTable} {constants : ConstantTable}
    {index : EntityIndex} {set : ActiveSet} {features : List Feature} {table : CommandTable}
    (h : buildCommands types constants index set features = .ok table) :
    table.NamedAlong index.aliasLink := by
  obtain ⟨named, hnamed, h⟩ := Outcome.bind_eq_ok.mp h
  have hcommands : named.NamedAlong index.aliasLink := by
    refine Outcome.foldlM_induction (CommandTable.NamedAlong index.aliasLink) ?_
      (by simp [CommandTable.NamedAlong, CommandTable.empty]) hnamed
    intro placed _ table next htable hadd
    obtain ⟨command, -, hplain, rfl⟩ := exists_insert_of_addCommand hadd
    exact CommandTable.namedAlong_insert hplain htable
  refine Outcome.foldlM_induction (CommandTable.NamedAlong index.aliasLink) ?_ hcommands h
  intro placed _ table next htable hadd
  exact CommandTable.namedAlong_insertAlias
    (Trail.leads_of_mem_path (Trail.last_mem_path (index.aliasTrail placed.2.name))) htable hadd

/-! ### Their order -/

/-- The first declaration of a name stands in front of that of another one. -/
def EntityIndex.Precedes (index : EntityIndex) (a b : String) : Prop :=
  ∃ i j, index.command? a = some i ∧ index.command? b = some j ∧ i < j

theorem EntityIndex.Precedes.ne {index : EntityIndex} {a b : String} (h : index.Precedes a b) :
    a ≠ b := by
  obtain ⟨i, j, hi, hj, hlt⟩ := h
  rintro rfl
  rw [hi, Option.some.injEq] at hj
  omega

theorem EntityIndex.pairwise_placed (index : EntityIndex) :
    index.placed.Pairwise fun a b => a.1 < b.1 := by
  have hplaces : index.placed.map (·.1) = List.range' 0 index.commands.length := by
    rw [placed, List.map_map, ← List.zipIdx_map_snd]
    rfl
  rw [← List.pairwise_map (f := Prod.fst) (R := (· < ·)), hplaces]
  exact List.pairwise_lt_range'

/-- Removing repetitions from a list without any changes nothing. -/
theorem eraseDupsBy_eq_self {α : Type} {same : α → α → Bool} {xs : List α}
    (h : xs.Pairwise fun x y => same y x = false) : xs.eraseDupsBy same = xs := by
  induction xs with
  | nil => rfl
  | cons x xs ih =>
      obtain ⟨hfirst, hrest⟩ := List.pairwise_cons.mp h
      have hkept : xs.filter (fun y => same y x = false) = xs := by
        rw [List.filter_eq_self]
        intro y hy
        simpa using hfirst y hy
      rw [List.eraseDupsBy_cons, hkept, ih hrest]

namespace Registry.Steps

variable {doc : Document} {options : RegistryOptions} (s : Steps doc options)

/-- Only the first declaration of a name is in use. -/
theorem command?_of_mem_active {placed : Nat × CommandDecl}
    (h : placed ∈ (EntityIndex.ofDocument doc).active s.set) :
    (EntityIndex.ofDocument doc).command? placed.2.name = some placed.1 := by
  obtain ⟨hdecl, hactive⟩ := EntityIndex.mem_active.mp h
  obtain ⟨name, hname⟩ := s.between.named s.formed hactive
  rw [EntityIndex.command?_eq_of_decl? hname hdecl]
  exact hname

theorem pairwise_active :
    ((EntityIndex.ofDocument doc).active s.set).Pairwise fun a b =>
      (EntityIndex.ofDocument doc).Precedes a.2.name b.2.name := by
  have hplaces := (EntityIndex.pairwise_placed (EntityIndex.ofDocument doc)).filter
    fun placed => (s.set.commandAt placed.1).isActive
  refine List.Pairwise.imp_of_mem ?_ hplaces
  intro a b ha hb hlt
  exact ⟨a.1, b.1, s.command?_of_mem_active ha, s.command?_of_mem_active hb, hlt⟩

theorem contains_commands_iff {name : String} :
    s.commands.contains name = true ↔
      ∃ placed ∈ (EntityIndex.ofDocument doc).active s.set, placed.2.name = name :=
  contains_buildCommands s.commands_eq name

/-- The name of a declaration in use leads to a command, and along aliases to its own name. -/
theorem exists_command_of_mem_active {placed : Nat × CommandDecl}
    (h : placed ∈ (EntityIndex.ofDocument doc).active s.set) :
    ∃ command ∈ s.commands.commands, s.commands.get? placed.2.name = some command ∧
      Trail.Leads (EntityIndex.ofDocument doc).aliasLink placed.2.name command.name := by
  have hcontains : s.commands.contains placed.2.name = true :=
    s.contains_commands_iff.mpr ⟨placed, h, rfl⟩
  obtain ⟨command, hcommand⟩ := Option.isSome_iff_exists.mp hcontains
  have hfind : s.commands.commands.find? (·.hasName placed.2.name) = some command := hcommand
  have hmem := List.mem_of_find?_eq_some hfind
  have hknown := List.find?_some hfind
  exact ⟨command, hmem, hcommand, namedAlong_buildCommands s.commands_eq command hmem _ hknown⟩

/-- The names that are listed are those of all declarations in use. -/
theorem activeCommandNames_eq :
    activeCommandNames (EntityIndex.ofDocument doc) s.set s.commands =
      ((EntityIndex.ofDocument doc).active s.set).map fun placed =>
        (placed.2.name, s.set.commandAt placed.1) := by
  have hall : ∀ named ∈ ((EntityIndex.ofDocument doc).active s.set).map fun placed =>
      (placed.2.name, s.set.commandAt placed.1), s.commands.contains named.1 = true := by
    intro named hnamed
    obtain ⟨placed, hplaced, rfl⟩ := List.mem_map.mp hnamed
    exact s.contains_commands_iff.mpr ⟨placed, hplaced, rfl⟩
  unfold activeCommandNames
  dsimp only
  rw [List.filter_eq_self.mpr hall]
  refine eraseDupsBy_eq_self (List.pairwise_map.mpr ?_)
  refine s.pairwise_active.imp ?_
  intro a b hprecedes
  simpa using hprecedes.ne.symm

end Registry.Steps

end VulkanRegistry
