/-
Other names of commands.

The chain of aliases of a command in use is followed to its end, and the command there gets
the name.  Nothing on the way is looked at twice for that: a closure has been taken before, so
the chain is known to stop, at a declaration in use that is no alias (`exists_end`), and that
is one of the commands inserted first.  Hence no name is refused.

What comes out can be written down (`foldlM_addCommandAlias`).  The commands are those
inserted first, in their order, each with the names whose chains end at it, in theirs.
-/
import VulkanRegistry.Proofs.Registry.Partition

namespace VulkanRegistry

/-! ### Following aliases -/

namespace EntityIndex

variable {index : EntityIndex}

/-- The declaration that the alias at a place names, if that is declared. -/
def aliasPlace? (index : EntityIndex) (place : Nat) : Option Nat := do
  let decl ← index.decl? place
  let target ← decl.aliasOf
  index.command? target

/-- Following aliases from a place comes to an end, and the end is here. -/
def EndsAt (index : EntityIndex) (place dest : Nat) : Prop :=
  Trail.Leads index.aliasPlace? place dest ∧ index.aliasPlace? dest = none

/-- Links between names are links between the places of their declarations. -/
theorem leads_of_links {name target : String} {place dest : Nat}
    (hname : index.command? name = some place) (h : Trail.Leads index.aliasLink name target)
    (hdest : index.command? target = some dest) : Trail.Leads index.aliasPlace? place dest := by
  induction h generalizing dest with
  | refl =>
      rw [hname, Option.some.injEq] at hdest
      rw [hdest]
  | tail _ hlink ih =>
      obtain ⟨middle, decl, hmiddle, hdecl, halias⟩ := aliasLink_eq_some.mp hlink
      have hstep : index.aliasPlace? middle = some dest := by
        simp [aliasPlace?, hdecl, halias, hdest]
      exact (ih hmiddle).tail hstep

end EntityIndex

/-! ### Inserting commands -/

namespace CommandTable

/-- Inserting commands under distinct names keeps them all, and none has another name. -/
theorem insert_eq {commands : List Command} {command : Command}
    (hplain : ∀ c ∈ commands, c.aliases = [])
    (hfresh : command.name ∉ commands.map (·.name)) :
    (⟨commands⟩ : CommandTable).insert command = ⟨commands ++ [command]⟩ := by
  have hfree : (⟨commands⟩ : CommandTable).contains command.name = false := by
    rw [← Bool.not_eq_true, contains_iff]
    rintro ⟨c, hc, hname⟩
    have hown : c.name = command.name := by simpa [Command.hasName, hplain c hc] using hname
    exact hfresh (List.mem_map.mpr ⟨c, hc, hown⟩)
  simp [insert, hfree]

/-- Changing the one command of a name. -/
theorem modify_eq_map {commands : List Command} (hnodup : (commands.map (·.name)).Nodup)
    {place : Nat} (hlt : place < commands.length) (f : Command → Command) :
    commands.modify place f =
      commands.map fun c => if c.name = commands[place].name then f c else c := by
  refine List.ext_getElem? fun i => ?_
  rw [List.getElem?_modify, List.getElem?_map]
  cases hi : commands[i]? with
  | none => rfl
  | some c =>
      by_cases hsame : place = i
      · have hc : commands[place] = c := by
          rw [← Option.some.injEq, ← List.getElem?_eq_getElem hlt, hsame, hi]
        simp [hsame, ← hc]
      · have hne : c.name ≠ commands[place].name := by
          intro hname
          refine hsame ((List.getElem?_inj (by simpa using hlt) hnodup).mp ?_)
          rw [List.getElem?_map, List.getElem?_map, hi, List.getElem?_eq_getElem hlt,
            Option.map_some, Option.map_some, hname]
        simp [hsame, hne]

/-- Another name goes to the one command whose own name is `target`. -/
theorem insertAlias_eq {commands : List Command} {name target : String}
    (hnodup : (commands.map (·.name)).Nodup) (htarget : target ∈ commands.map (·.name))
    (hown : ∀ c ∈ commands, target ∉ c.aliases)
    (hfresh : ∀ c ∈ commands, c.hasName name = false) :
    (⟨commands⟩ : CommandTable).insertAlias name target =
      .ok ⟨commands.map fun c =>
        if c.name = target then { c with aliases := c.aliases ++ [name] } else c⟩ := by
  obtain ⟨command, hcommand, hname⟩ := List.mem_map.mp htarget
  have hknown : (⟨commands⟩ : CommandTable).contains target = true :=
    contains_iff.mpr ⟨command, hcommand, by simp [Command.hasName, hname]⟩
  have hfree : (⟨commands⟩ : CommandTable).contains name = false := by
    rw [← Bool.not_eq_true, contains_iff]
    rintro ⟨c, hc, htaken⟩
    rw [hfresh c hc] at htaken
    exact absurd htaken (by decide)
  obtain ⟨place, hplace⟩ : ∃ place, commands.findIdx? (·.hasName target) = some place := by
    rw [← Option.isSome_iff_exists, List.findIdx?_isSome, List.any_eq_true]
    exact ⟨command, hcommand, by simp [Command.hasName, hname]⟩
  obtain ⟨hlt, hhas, -⟩ := List.findIdx?_eq_some_iff_getElem.mp hplace
  have hat : commands[place].name = target := by
    simpa [Command.hasName, hown _ (List.getElem_mem hlt)] using hhas
  simp only [insertAlias, hknown, hfree, Bool.not_true, Bool.false_eq_true, if_false, modify,
    hplace]
  rw [modify_eq_map hnodup hlt, hat]

end CommandTable

/-! ### The table -/

/-- The command, with the names of those aliases whose chains end at it. -/
def Command.withAliases (index : EntityIndex) (aliases : List (Nat × CommandDecl))
    (c : Command) : Command :=
  { c with aliases := (aliases.filter fun placed =>
      (index.aliasTrail placed.2.name).last == c.name).map (·.2.name) }

theorem map_name_withAliases (index : EntityIndex) (aliases : List (Nat × CommandDecl))
    (commands : List Command) :
    (commands.map (Command.withAliases index aliases)).map (·.name) = commands.map (·.name) := by
  rw [List.map_map]
  rfl

theorem exists_of_mem_withAliases {index : EntityIndex} {aliases : List (Nat × CommandDecl)}
    {commands : List Command} {c : Command} {name : String}
    (hc : c ∈ commands.map (Command.withAliases index aliases)) (hname : name ∈ c.aliases) :
    name ∈ aliases.map (·.2.name) := by
  obtain ⟨old, -, rfl⟩ := List.mem_map.mp hc
  obtain ⟨placed, hplaced, rfl⟩ := List.mem_map.mp hname
  exact List.mem_map.mpr ⟨placed, (List.mem_filter.mp hplaced).1, rfl⟩

/-- A new name whose chain ends at a command is given to that command. -/
theorem addCommandAlias_eq {index : EntityIndex} {commands : List Command}
    (hnodup : (commands.map (·.name)).Nodup) {given : List (Nat × CommandDecl)}
    {placed : Nat × CommandDecl}
    (hend : (index.aliasTrail placed.2.name).last ∈ commands.map (·.name))
    (hproper : (index.aliasTrail placed.2.name).last ∉ given.map (·.2.name))
    (hfresh : placed.2.name ∉ commands.map (·.name))
    (hnew : placed.2.name ∉ given.map (·.2.name)) :
    addCommandAlias index ⟨commands.map (Command.withAliases index given)⟩ placed =
      .ok ⟨commands.map (Command.withAliases index (given ++ [placed]))⟩ := by
  have hfree : ∀ c ∈ commands.map (Command.withAliases index given),
      c.hasName placed.2.name = false := by
    intro c hc
    rw [← Bool.not_eq_true, Command.hasName, Bool.or_eq_true, beq_iff_eq, List.contains_iff_mem,
      not_or]
    refine ⟨?_, fun hname => hnew (exists_of_mem_withAliases hc hname)⟩
    intro hname
    have hmem := List.mem_map_of_mem (f := (·.name)) hc
    rw [map_name_withAliases, hname] at hmem
    exact hfresh hmem
  rw [addCommandAlias, CommandTable.insertAlias_eq (by rwa [map_name_withAliases])
    (by rwa [map_name_withAliases]) (fun c hc hname => hproper (exists_of_mem_withAliases hc hname))
    hfree, List.map_map]
  congr 2
  refine List.map_congr_left fun c _ => ?_
  by_cases hc : c.name = (index.aliasTrail placed.2.name).last
  · simp [Command.withAliases, hc]
  · simp [Command.withAliases, hc, Ne.symm hc]

/-- Giving other names adds each to the command at the end of its chain, where the names are
new and distinct and the chains end at commands. -/
theorem foldlM_addCommandAlias {index : EntityIndex} {commands : List Command}
    (hplain : ∀ c ∈ commands, c.aliases = []) (hnodup : (commands.map (·.name)).Nodup)
    {aliases : List (Nat × CommandDecl)}
    (hends : ∀ placed ∈ aliases,
      (index.aliasTrail placed.2.name).last ∈ commands.map (·.name))
    (hfresh : ∀ placed ∈ aliases, placed.2.name ∉ commands.map (·.name))
    (hdistinct : (aliases.map (·.2.name)).Nodup) :
    aliases.foldlM (addCommandAlias index) ⟨commands⟩ =
      .ok ⟨commands.map (Command.withAliases index aliases)⟩ := by
  -- From the end: what was given before is what the commands have.
  induction aliases using List.reverseRecOn with
  | nil =>
      have hsame : commands.map (Command.withAliases index []) = commands := by
        refine (List.map_congr_left fun c hc => ?_).trans (List.map_id commands)
        simp [Command.withAliases, ← hplain c hc]
      rw [hsame]
      rfl
  | append_singleton given placed ih =>
      simp only [List.forall_mem_append, List.forall_mem_singleton] at hends hfresh
      rw [List.map_append, List.nodup_append] at hdistinct
      obtain ⟨hdistinct, -, hapart⟩ := hdistinct
      have hproper : (index.aliasTrail placed.2.name).last ∉ given.map (·.2.name) := by
        intro hmem
        obtain ⟨other, hother, hname⟩ := List.mem_map.mp hmem
        exact hfresh.1 other hother (hname ▸ hends.2)
      have hnew : placed.2.name ∉ given.map (·.2.name) :=
        fun hmem => hapart _ hmem _ (by simp) rfl
      exact Outcome.foldlM_append_eq_ok.mpr ⟨_, ih hends.1 hfresh.1 hdistinct,
        Outcome.foldlM_cons_eq_ok.mpr ⟨_, addCommandAlias_eq hnodup hends.2 hproper hfresh.2 hnew,
          Outcome.foldlM_nil_eq_ok.mpr rfl⟩⟩

/-- The commands that are no aliases are inserted in order, under their names alone. -/
theorem names_of_foldlM_addCommand {types : TypeTable} {constants : ConstantTable}
    {set : ActiveSet} {features : List Feature} {run : List (Nat × CommandDecl)}
    (hdistinct : (run.map (·.2.name)).Nodup) {table : CommandTable}
    (h : run.foldlM (addCommand types constants set features) .empty = .ok table) :
    table.commands.map (·.name) = run.map (·.2.name) ∧ ∀ c ∈ table.commands, c.aliases = [] := by
  induction run using List.reverseRecOn generalizing table with
  | nil =>
      rw [← Outcome.foldlM_nil_eq_ok.mp h]
      simp [CommandTable.empty]
  | append_singleton before placed ih =>
      rw [List.map_append, List.nodup_append] at hdistinct
      obtain ⟨hdistinct, -, hapart⟩ := hdistinct
      obtain ⟨middle, hmiddle, h⟩ := Outcome.foldlM_append_eq_ok.mp h
      obtain ⟨next, hadd, hnext⟩ := Outcome.foldlM_cons_eq_ok.mp h
      obtain rfl := Outcome.foldlM_nil_eq_ok.mp hnext
      obtain ⟨command, hname, hplain, rfl⟩ := exists_insert_of_addCommand hadd
      obtain ⟨hnames, hplains⟩ := ih hdistinct hmiddle
      have hfresh : command.name ∉ middle.commands.map (·.name) := by
        rw [hname, hnames]
        exact fun hmem => hapart _ hmem _ (by simp) rfl
      rw [CommandTable.insert_eq hplains hfresh]
      refine ⟨by simp [hnames, hname], ?_⟩
      simp only [List.forall_mem_append, List.forall_mem_singleton]
      exact ⟨hplains, hplain⟩

/-! ### Resolved names -/

namespace Registry

/-- The names of the commands of a registry, where these declarations are in use, lead to the
commands at the ends of their chains. -/
structure CommandsResolved (r : Registry) (index : EntityIndex) (set : ActiveSet) : Prop where
  /-- Once the commands that are no aliases are inserted, no other name is refused. -/
  inserts : ∀ types constants features canonical,
    ((index.active set).filter (·.2.aliasOf.isNone)).foldlM
      (addCommand types constants set features) .empty = .ok canonical →
    ∃ table, ((index.active set).filter (·.2.aliasOf.isSome)).foldlM
      (addCommandAlias index) canonical = .ok table
  names : ∀ name, r.commands.contains name = true ↔ name ∈ (index.active set).map (·.2.name)
  ends : ∀ placed ∈ index.active set, ∃ dest ∈ index.active set, ∃ command,
    index.EndsAt placed.1 dest.1 ∧ dest.2.aliasOf = none ∧
      (index.aliasTrail placed.2.name).last = dest.2.name ∧
      r.command? placed.2.name = some command ∧ command.name = dest.2.name
  order : r.commands.commands.map (·.name) =
    ((index.active set).filter (·.2.aliasOf.isNone)).map (·.2.name)
  commandOrder : (r.commands.commands.map (·.name)).Pairwise index.Precedes
  aliases : ListsOnce (r.commands.commands.flatMap (·.aliases)) fun name =>
    ∃ placed ∈ index.active set, placed.2.aliasOf.isSome = true ∧ placed.2.name = name
  aliasOrder : ∀ command ∈ r.commands.commands, command.aliases.Pairwise index.Precedes

namespace Steps

variable {doc : Document} {options : RegistryOptions} (s : Steps doc options)

/-- What the document declares. -/
abbrev index (_ : Steps doc options) : EntityIndex :=
  EntityIndex.ofDocument doc

theorem nodup_activeNames : ((s.index.active s.set).map (·.2.name)).Nodup :=
  List.pairwise_map.mpr (s.pairwise_active.imp fun h => h.ne)

/-- A declaration in use is not that of another name. -/
theorem eq_of_mem_active {a b : Nat × CommandDecl} (ha : a ∈ s.index.active s.set)
    (hb : b ∈ s.index.active s.set) (hname : a.2.name = b.2.name) : a = b :=
  List.inj_on_of_nodup_map s.nodup_activeNames ha hb hname

theorem aliasLink_of_mem_active {placed : Nat × CommandDecl} (h : placed ∈ s.index.active s.set) :
    s.index.aliasLink placed.2.name = placed.2.aliasOf := by
  have hdecl := (EntityIndex.mem_active.mp h).1
  simp [EntityIndex.aliasLink, s.command?_of_mem_active h, hdecl]

/-- The chain of aliases of a declaration in use stops at a declaration in use that is none. -/
theorem exists_end {placed : Nat × CommandDecl} (h : placed ∈ s.index.active s.set) :
    ∃ dest ∈ s.index.active s.set, (s.index.aliasTrail placed.2.name).last = dest.2.name ∧
      dest.2.aliasOf = none ∧ s.index.EndsAt placed.1 dest.1 := by
  obtain ⟨-, hactive⟩ := EntityIndex.mem_active.mp h
  have hname := s.command?_of_mem_active h
  obtain ⟨a, ha, hreaches⟩ := s.between.exists_active (e := .command placed.1) hactive
  have hclosable := closable_of_closeMentions s.linked_spec s.formed s.set_eq
  have hstops := Trail.next_last_of_stops
    (EntityIndex.stops_of_closable hclosable ha hreaches hname)
  have hleads := Trail.leads_of_mem_path (Trail.last_mem_path (s.index.aliasTrail placed.2.name))
  obtain ⟨dest, hdest⟩ :
      ∃ dest, s.index.command? (s.index.aliasTrail placed.2.name).last = some dest := by
    rcases Relation.ReflTransGen.cases_tail hleads with heq | ⟨via, hvia, hlink⟩
    · exact ⟨placed.1, by rw [heq, hname]⟩
    · obtain ⟨dest, hdest, -⟩ :=
        EntityIndex.declared_of_leads hclosable ha hreaches hname hvia hlink
      exact ⟨dest, hdest⟩
  obtain ⟨decl, hdecl, hsame⟩ := EntityIndex.decl?_of_command? hdest
  have halias : decl.aliasOf = none := by
    rw [Option.eq_none_iff_forall_not_mem]
    intro target htarget
    have hlink := EntityIndex.aliasLink_eq_some.mpr ⟨dest, decl, hdest, hdecl, htarget⟩
    exact absurd (hlink.symm.trans hstops) (by simp)
  have hused : (s.set.commandAt dest).isActive = true := by
    obtain ⟨o, ho⟩ := Activation.isActive_iff.mp hactive
    exact Activation.isActive_iff.mpr ⟨o, s.closed.mem_origins_of_reaches
      (EntityIndex.reaches_of_leads s.linked hname hleads hdest) ho⟩
  exact ⟨(dest, decl), EntityIndex.mem_active.mpr ⟨hdecl, hused⟩, hsame.symm, halias,
    EntityIndex.leads_of_links hname hleads hdest, by simp [EntityIndex.aliasPlace?, hdecl, halias]⟩

/-- The declarations in use that are no aliases. -/
def ownDecls : List (Nat × CommandDecl) :=
  (s.index.active s.set).filter (·.2.aliasOf.isNone)

/-- The declarations in use that are aliases. -/
def aliasDecls : List (Nat × CommandDecl) :=
  (s.index.active s.set).filter (·.2.aliasOf.isSome)

theorem nodup_ownNames : (s.ownDecls.map (·.2.name)).Nodup :=
  s.nodup_activeNames.sublist (List.filter_sublist.map _)

theorem nodup_aliasNames : (s.aliasDecls.map (·.2.name)).Nodup :=
  s.nodup_activeNames.sublist (List.filter_sublist.map _)

theorem last_mem_ownNames {placed : Nat × CommandDecl} (h : placed ∈ s.aliasDecls) :
    (s.index.aliasTrail placed.2.name).last ∈ s.ownDecls.map (·.2.name) := by
  obtain ⟨dest, hdest, hlast, hnone, -⟩ := s.exists_end (List.mem_filter.mp h).1
  rw [hlast]
  exact List.mem_map.mpr ⟨dest, List.mem_filter.mpr ⟨hdest, by simp [hnone]⟩, rfl⟩

theorem aliasName_not_mem_ownNames {placed : Nat × CommandDecl} (h : placed ∈ s.aliasDecls) :
    placed.2.name ∉ s.ownDecls.map (·.2.name) := by
  intro hmem
  obtain ⟨own, hown, hname⟩ := List.mem_map.mp hmem
  obtain ⟨hownUsed, hnone⟩ := List.mem_filter.mp hown
  obtain ⟨hused, hsome⟩ := List.mem_filter.mp h
  rw [s.eq_of_mem_active hownUsed hused hname] at hnone
  rw [Option.isNone_iff_eq_none] at hnone
  simp [hnone] at hsome

/-- Once the commands that are no aliases are inserted, all other names are given. -/
theorem foldlM_aliasDecls {types : TypeTable} {constants : ConstantTable} {features : List Feature}
    {canonical : CommandTable}
    (h : s.ownDecls.foldlM (addCommand types constants s.set features) .empty = .ok canonical) :
    s.aliasDecls.foldlM (addCommandAlias s.index) canonical =
      .ok ⟨canonical.commands.map (Command.withAliases s.index s.aliasDecls)⟩ := by
  obtain ⟨hnames, hplain⟩ := names_of_foldlM_addCommand s.nodup_ownNames h
  refine foldlM_addCommandAlias hplain ?_ ?_ ?_ s.nodup_aliasNames
  · rw [hnames]
    exact s.nodup_ownNames
  · intro placed hplaced
    rw [hnames]
    exact s.last_mem_ownNames hplaced
  · intro placed hplaced
    rw [hnames]
    exact s.aliasName_not_mem_ownNames hplaced

/-- The commands are those of the declarations that are no aliases, with the other names that
lead to them. -/
theorem exists_canonical : ∃ canonical : List Command,
    canonical.map (·.name) = s.ownDecls.map (·.2.name) ∧
      s.commands.commands = canonical.map (Command.withAliases s.index s.aliasDecls) := by
  obtain ⟨canonical, hcanonical, hall⟩ := Outcome.bind_eq_ok.mp s.commands_eq
  refine ⟨canonical.commands, (names_of_foldlM_addCommand s.nodup_ownNames hcanonical).1, ?_⟩
  have hsame := (s.foldlM_aliasDecls hcanonical).symm.trans hall
  rw [← Except.ok.inj hsame]

theorem names_commands : s.commands.commands.map (·.name) = s.ownDecls.map (·.2.name) := by
  obtain ⟨canonical, hnames, hcommands⟩ := s.exists_canonical
  rw [hcommands, map_name_withAliases, hnames]

theorem nodup_names_commands : (s.commands.commands.map (·.name)).Nodup := by
  rw [s.names_commands]
  exact s.nodup_ownNames

/-- The other names of a command are those whose chains end at it. -/
theorem aliases_eq {command : Command} (h : command ∈ s.commands.commands) :
    command.aliases = (s.aliasDecls.filter fun placed =>
      (s.index.aliasTrail placed.2.name).last == command.name).map (·.2.name) := by
  obtain ⟨canonical, -, hcommands⟩ := s.exists_canonical
  rw [hcommands] at h
  obtain ⟨c, -, rfl⟩ := List.mem_map.mp h
  rfl

theorem listsOnce_aliases :
    ListsOnce (s.commands.commands.flatMap (·.aliases)) fun name =>
      name ∈ s.aliasDecls.map (·.2.name) := by
  have hmem : ∀ {command : Command} {name : String}, command ∈ s.commands.commands →
      (name ∈ command.aliases ↔ ∃ placed ∈ s.aliasDecls,
        (s.index.aliasTrail placed.2.name).last = command.name ∧ placed.2.name = name) := by
    intro command name hcommand
    rw [s.aliases_eq hcommand]
    simp [and_assoc]
  refine ⟨?nodup, ?mem⟩
  case nodup =>
    rw [List.nodup_flatMap]
    refine ⟨?_, ?_⟩
    · intro command hcommand
      rw [s.aliases_eq hcommand]
      exact s.nodup_aliasNames.sublist (List.filter_sublist.map _)
    · refine (List.pairwise_map.mp s.nodup_names_commands).imp_of_mem ?_
      intro a b ha hb hne name hnameA hnameB
      -- A name in two lists is that of one declaration, whose chain has one end.
      obtain ⟨x, hx, hlastA, rfl⟩ := (hmem ha).mp hnameA
      obtain ⟨y, hy, hlastB, hsame⟩ := (hmem hb).mp hnameB
      rw [hsame] at hlastB
      exact hne (hlastA.symm.trans hlastB)
  case mem =>
    intro name
    rw [List.mem_flatMap]
    constructor
    · rintro ⟨command, hcommand, hname⟩
      obtain ⟨placed, hplaced, -, rfl⟩ := (hmem hcommand).mp hname
      exact List.mem_map_of_mem hplaced
    · intro hname
      obtain ⟨placed, hplaced, rfl⟩ := List.mem_map.mp hname
      have hlast := s.last_mem_ownNames hplaced
      rw [← s.names_commands] at hlast
      obtain ⟨command, hcommand, hown⟩ := List.mem_map.mp hlast
      exact ⟨command, hcommand, (hmem hcommand).mpr ⟨placed, hplaced, hown.symm, rfl⟩⟩

/-- A name in use leads to the command at the end of its chain. -/
theorem exists_command {placed : Nat × CommandDecl} (h : placed ∈ s.index.active s.set) :
    ∃ dest ∈ s.index.active s.set, ∃ command, s.index.EndsAt placed.1 dest.1 ∧
      dest.2.aliasOf = none ∧ (s.index.aliasTrail placed.2.name).last = dest.2.name ∧
        s.commands.get? placed.2.name = some command ∧ command.name = dest.2.name := by
  obtain ⟨dest, hdest, hlast, hnone, hends⟩ := s.exists_end h
  obtain ⟨command, hmem, hcommand, hleads⟩ := s.exists_command_of_mem_active h
  refine ⟨dest, hdest, command, hends, hnone, hlast, hcommand, ?_⟩
  -- The command's own name is that of a declaration without an alias, so the chain ends there.
  have hown := List.mem_map_of_mem (f := (·.name)) hmem
  rw [s.names_commands] at hown
  obtain ⟨own, hownMem, hname⟩ := List.mem_map.mp hown
  obtain ⟨hused, hownNone⟩ := List.mem_filter.mp hownMem
  have hend := Trail.leads_of_mem_path (Trail.last_mem_path (s.index.aliasTrail placed.2.name))
  rw [hlast] at hend
  refine Trail.eq_of_leads hleads hend ?_ ?_
  · rw [← hname, s.aliasLink_of_mem_active hused]
    exact Option.isNone_iff_eq_none.mp hownNone
  · rw [s.aliasLink_of_mem_active hdest, hnone]

theorem commandsResolved : s.registry.CommandsResolved s.index s.set := by
  refine ⟨?inserts, ?names, ?ends, s.names_commands, ?commandOrder, ?aliases, ?aliasOrder⟩
  case inserts =>
    intro types constants features canonical h
    exact ⟨_, s.foldlM_aliasDecls h⟩
  case names =>
    intro name
    rw [List.mem_map]
    exact s.contains_commands_iff
  case ends =>
    intro placed hplaced
    exact s.exists_command hplaced
  case commandOrder =>
    show (s.commands.commands.map (·.name)).Pairwise _
    rw [s.names_commands]
    exact List.pairwise_map.mpr (s.pairwise_active.filter _)
  case aliases =>
    obtain ⟨hnodup, hmem⟩ := s.listsOnce_aliases
    refine ⟨hnodup, fun name => (hmem name).trans ?_⟩
    simp only [aliasDecls, List.mem_map, List.mem_filter, and_assoc]
  case aliasOrder =>
    intro command hcommand
    rw [s.aliases_eq hcommand]
    exact List.pairwise_map.mpr ((s.pairwise_active.filter _).filter _)

end Steps

/-- The aliases of commands are resolved whatever document the registry is built from. -/
theorem ofDocument_commandsResolved {doc : Document} {options : RegistryOptions} {r : Registry}
    (h : ofDocument doc options = .ok r) :
    ∃ s : Steps doc options, s.registry = r ∧ r.CommandsResolved s.index s.set := by
  obtain ⟨s, rfl⟩ := exists_steps h
  exact ⟨s, rfl, s.commandsResolved⟩

/--
**Aliases of commands are resolved.**  After every build, following the aliases of a command
in use ends at a command in use that is none, and that is what its name leads to; each other
name stands with one command, once; and everything is in the order of its declaration.
-/
theorem build_commandsResolved {source : String} {options : RegistryOptions} {r : Registry}
    (h : build source options = .ok r) :
    ∃ doc, Document.parse source = .ok doc ∧ ∃ s : Steps (doc.forApi options) options,
      s.registry = r ∧ r.CommandsResolved s.index s.set := by
  obtain ⟨doc, hdoc, h⟩ := build_eq_ok.mp h
  exact ⟨doc, hdoc, ofDocument_commandsResolved h⟩

/-- A core version brings in an alias of an alias; it is declared in front of its target, and
once more behind it as an alias of something that is not in use. -/
def chainText : String :=
  "<registry><platforms/><types><type name='void'/></types><enums name='API Constants'/>
<commands><command name='vkTrimEXT' alias='vkTrimKHR'/>
<command><proto><type>void</type> <name>vkTrim</name></proto></command>
<command><proto><type>void</type> <name>vkShow</name></proto></command>
<command name='vkTrimKHR' alias='vkTrim'/><command name='vkTrimEXT' alias='vkShow'/></commands>
<feature name='VK_VERSION_1_0' number='1.0'><require><command name='vkTrimEXT'/></require></feature>
</registry>"

set_option maxRecDepth 20000 in
/-- `chainText` builds, and its one command has both other names. -/
theorem commandsResolved_chainText :
    ∃ r doc, build chainText .standard = .ok r ∧ Document.parse chainText = .ok doc ∧
      (∃ s : Steps (doc.forApi .standard) .standard,
        s.registry = r ∧ r.CommandsResolved s.index s.set) ∧
      (r.commands.commands.map fun c => (c.name, c.aliases)) =
        [("vkTrim", ["vkTrimEXT", "vkTrimKHR"])] := by
  obtain ⟨r, hr, hcommands⟩ : ∃ r, build chainText .standard = .ok r ∧
      ((r.commands.commands.map fun c => (c.name, c.aliases)) ==
        [("vkTrim", ["vkTrimEXT", "vkTrimKHR"])]) = true :=
    exists_build_of_any (by decide +kernel)
  obtain ⟨doc, hdoc, s, hs, hresolved⟩ := build_commandsResolved hr
  exact ⟨r, doc, hr, hdoc, ⟨s, hs, hresolved⟩, beq_iff_eq.mp hcommands⟩

end Registry

end VulkanRegistry
