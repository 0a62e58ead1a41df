/-
Where aliases of types lead.

What a name is an alias of is told by the first declaration of the name, and by nothing else: a
block of values declares no alias, and the built-in type is never declared.  So whether the
chain of a name ends, comes back to a name it had, or leads to a name that no type has can be
said of the declarations alone.  Linking a table does what the chains say.  Either all of them
end, and each alias stands for what is at the end of its chain, or linking fails at the first
declaration whose chain does not, with that chain as the reason (`aliasesFollowed`).
-/
import VulkanRegistry.Proofs.TypeTable.Link

namespace VulkanRegistry

/-- The name that a name is declared as an alias of. -/
def declaredTarget? (decls : List TypeDecl) (name : String) : Option String :=
  if name = TypeTable.stringName then none
  else (decls.find? (·.name == name)).bind (·.aliasOf)

/-- The names that have a type. -/
def typeNames (decls : List TypeDecl) (blocks : List EnumBlock) : List String :=
  TypeTable.stringName ::
    (decls.map (·.name) ++ (blocks.filter EnumBlock.hasType).map (·.name))

/-- The chain of aliases from a name does not end at a type: it comes back to one of its names
or leads to a name that no type has. -/
def Endless (decls : List TypeDecl) (blocks : List EnumBlock) (name : String) : Prop :=
  Trail.Loops (declaredTarget? decls) name ∨
    Trail.Strays (typeNames decls blocks) (declaredTarget? decls) name

/-- What linking the types of declarations and blocks makes of aliases. -/
structure AliasesFollowed (decls : List TypeDecl) (blocks : List EnumBlock) : Prop where
  /-- A chain is followed over distinct names of types, so this ends. -/
  bounded : ∀ name ∈ typeNames decls blocks,
    let path := (((TypeTable.initial.registerAll decls).registerBlocks blocks).aliasTrail name).path
    path.Nodup ∧ ∀ other ∈ path, other ∈ typeNames decls blocks
  targets : ∀ table, (TypeTable.initial.registerAll decls).linked blocks = .ok table →
    ∀ name, (declaredTarget? decls name).isSome = true →
      ∃ id last dest, table.lookup? name = some id ∧ table.kind? id = some (.aliasTo last) ∧
        Trail.Leads (declaredTarget? decls) name dest ∧ declaredTarget? decls dest = none ∧
        table.lookup? dest = some last
  aliases : ∀ table, (TypeTable.initial.registerAll decls).linked blocks = .ok table →
    ∀ id entry, table.get? id = some entry →
      (entry.kind.isAlias = true ↔ (declaredTarget? decls entry.name).isSome = true)
  canonical : ∀ table, (TypeTable.initial.registerAll decls).linked blocks = .ok table →
    ∀ id, id.index < table.size →
      table.Proper (table.canonical id) ∧
        table.canonical (table.canonical id) = table.canonical id
  fails : (∃ decl ∈ decls, Endless decls blocks decl.name) →
    ∃ before decl after, decls = before ++ decl :: after ∧
      (∀ d ∈ before, ¬ Endless decls blocks d.name) ∧
      (Trail.Loops (declaredTarget? decls) decl.name ∧
          (∃ path, (TypeTable.initial.registerAll decls).linked blocks =
              .error (.cyclicAlias path) ∧
            Trail.ClosesLoop (declaredTarget? decls) decl.name path) ∨
        Trail.Strays (typeNames decls blocks) (declaredTarget? decls) decl.name ∧
          ∃ missing last, (TypeTable.initial.registerAll decls).linked blocks =
              .error (.unknownType missing last) ∧
            Trail.Leads (declaredTarget? decls) decl.name last ∧
            declaredTarget? decls last = some missing ∧ missing ∉ typeNames decls blocks)

namespace TypeTable

/-! ### Chains of a table -/

section Chains

variable {table : TypeTable} {name : String}

theorem mem_names_of_aliasLink {target : String} (h : table.aliasLink name = some target) :
    name ∈ table.names := by
  by_contra hnew
  rw [aliasLink, lookup?_eq_none_iff.mpr hnew] at h
  simp at h

/-- Where names are distinct, the links are those of the entries. -/
theorem aliasLink_of_mem (hnodup : table.names.Nodup) {entry : TypeEntry}
    (h : entry ∈ table.entries) : table.aliasLink entry.name = entry.declaredAlias? := by
  obtain ⟨i, hi⟩ := List.mem_iff_getElem?.mp h
  have hget : table.get? ⟨i⟩ = some entry := hi
  rw [aliasLink, lookup?_eq_of_nodup hnodup hget, Option.bind_some, hget, Option.bind_some]

theorem exists_lookup? (h : name ∈ table.names) : ∃ id, table.lookup? name = some id := by
  cases hfound : table.lookup? name with
  | none => exact absurd h (lookup?_eq_none_iff.mp hfound)
  | some id => exact ⟨id, rfl⟩

/-- A chain that is followed to its end ends at a name without a link. -/
theorem leads_of_aliasEnd {id : TypeId} (h : table.aliasEnd name = .ok id) :
    ∃ dest, Trail.Leads table.aliasLink name dest ∧ table.aliasLink dest = none ∧
      table.lookup? dest = some id := by
  unfold aliasEnd at h
  dsimp only at h
  split at h
  · next hstops =>
      exact ⟨_, Trail.leads_of_mem_path (Trail.last_mem_path _), Trail.next_last_of_stops hstops,
        require_eq_ok.mp h⟩
  · simp at h
  · simp at h

theorem exists_aliasEnd (hname : name ∈ table.names) (hloops : ¬ Trail.Loops table.aliasLink name)
    (hstrays : ¬ Trail.Strays table.names table.aliasLink name) :
    ∃ id, table.aliasEnd name = .ok id := by
  have hstops : (table.aliasTrail name).ending = .stops := Trail.stops_of_not hloops hstrays
  have hlast : (table.aliasTrail name).last ∈ table.names :=
    Trail.mem_world_of_mem_path hname (Trail.last_mem_path _)
  obtain ⟨id, hid⟩ := exists_lookup? hlast
  refine ⟨id, ?_⟩
  simp only [aliasEnd, hstops]
  exact require_eq_ok.mpr hid

theorem aliasEnd_of_loops (h : Trail.Loops table.aliasLink name) :
    ∃ path, table.aliasEnd name = .error (.cyclicAlias path) ∧
      Trail.ClosesLoop table.aliasLink name path := by
  have hclosed : ∀ a b, table.aliasLink a = some b → a ∈ table.names :=
    fun _ _ => mem_names_of_aliasLink
  obtain ⟨target, hcycles⟩ := Trail.exists_cycles_of_loops hclosed h
  have hending : (table.aliasTrail name).ending = .cycles target := hcycles
  refine ⟨_, ?_, Trail.closesLoop_of_cycles hcycles⟩
  simp only [aliasEnd, hending]
  rfl

theorem aliasEnd_of_strays (hname : name ∈ table.names)
    (h : Trail.Strays table.names table.aliasLink name) :
    ∃ missing last, table.aliasEnd name = .error (.unknownType missing last) ∧
      Trail.Leads table.aliasLink name last ∧ table.aliasLink last = some missing ∧
      missing ∉ table.names := by
  obtain ⟨missing, hleaves⟩ :=
    Trail.exists_leaves_of_strays (fun _ _ => mem_names_of_aliasLink) hname h
  have hending : (table.aliasTrail name).ending = .leaves missing := hleaves
  obtain ⟨hlink, hout⟩ := Trail.next_last_of_leaves hleaves
  refine ⟨missing, _, ?_, Trail.leads_of_mem_path (Trail.last_mem_path _), hlink, hout⟩
  simp only [aliasEnd, hending]
  rfl

end Chains

/-! ### Chains of declarations -/

section Declared

variable (decls : List TypeDecl) (blocks : List EnumBlock)

theorem registerBlocks_registerAll :
    (initial.registerAll decls).registerBlocks blocks =
      initial.registerAll (decls ++ (blocks.filter EnumBlock.hasType).map declOfBlock) :=
  List.foldl_append.symm

theorem mem_names_registerBlocks {name : String} :
    name ∈ ((initial.registerAll decls).registerBlocks blocks).names ↔
      name ∈ typeNames decls blocks := by
  have hinitial : initial.names = [stringName] := rfl
  have hblocks : ((blocks.filter EnumBlock.hasType).map declOfBlock).map (·.name) =
      (blocks.filter EnumBlock.hasType).map (·.name) := List.map_map
  rw [registerBlocks_registerAll, names_registerAll, hinitial, List.map_append, hblocks, typeNames,
    List.singleton_append, List.mem_cons, List.mem_cons, List.mem_eraseDups, List.removeAll]
  by_cases hstring : name = stringName <;> simp [hstring]

/-- The links of a table that is not linked yet are those of the declarations. -/
theorem aliasLink_registerBlocks :
    ((initial.registerAll decls).registerBlocks blocks).aliasLink = declaredTarget? decls := by
  funext name
  cases hfound : ((initial.registerAll decls).registerBlocks blocks).lookup? name with
  | none =>
      have hnew := lookup?_eq_none_iff.mp hfound
      rw [mem_names_registerBlocks, typeNames, List.mem_cons, List.mem_append, not_or,
        not_or] at hnew
      have hnone : decls.find? (·.name == name) = none := by
        rw [List.find?_eq_none]
        intro decl hdecl hname
        exact hnew.2.1 (List.mem_map.mpr ⟨decl, hdecl, beq_iff_eq.mp hname⟩)
      rw [aliasLink, hfound, declaredTarget?, if_neg hnew.1, hnone]
      rfl
  | some id =>
      obtain ⟨entry, hentry, hname⟩ := get?_of_lookup? hfound
      rw [aliasLink, hfound, Option.bind_some, hentry, Option.bind_some, ← hname]
      have hmem := List.mem_of_getElem? hentry
      rw [registerBlocks_registerAll] at hmem
      rcases mem_registerAll hmem with hinitial | ⟨hnew, decl, hdecl, hfind⟩
      · rw [List.mem_singleton.mp hinitial]
        rfl
      · have hne : entry.name ≠ stringName := by
          intro hstring
          exact hnew (by simp [initial, names, hstring])
        rw [TypeEntry.declaredAlias?, hdecl, declaredTarget?, if_neg hne]
        rw [List.find?_append] at hfind
        cases hown : decls.find? (·.name == entry.name) with
        | some own =>
            rw [hown, Option.some_or] at hfind
            rw [hfind]
        | none =>
            -- The entry stands for a block of values.
            rw [hown, Option.none_or] at hfind
            obtain ⟨block, -, rfl⟩ := List.mem_map.mp (List.mem_of_find?_eq_some hfind)
            rfl

/-- Whether a chain ends can be read off the table as well. -/
theorem endless_iff {name : String} :
    Endless decls blocks name ↔
      Trail.Loops ((initial.registerAll decls).registerBlocks blocks).aliasLink name ∨
        Trail.Strays ((initial.registerAll decls).registerBlocks blocks).names
          ((initial.registerAll decls).registerBlocks blocks).aliasLink name := by
  rw [aliasLink_registerBlocks, Endless]
  refine or_congr_right (exists_congr fun other => and_congr_right fun _ => ?_)
  rw [mem_names_registerBlocks]

theorem not_endless_of_eq_none {name : String} (hname : name ∈ typeNames decls blocks)
    (hnone : declaredTarget? decls name = none) : ¬ Endless decls blocks name := by
  rintro (hloops | ⟨missing, hleads, hout⟩)
  · exact Trail.not_loops_of_leads hnone Relation.ReflTransGen.refl hloops
  · rcases Relation.ReflTransGen.cases_head hleads with rfl | ⟨next, hlink, -⟩
    · exact hout hname
    · simp [Trail.Links, hnone] at hlink

end Declared

/-! ### Linking that succeeds -/

section Linked

variable {decls : List TypeDecl} {blocks : List EnumBlock} {table : TypeTable}
  (h : (initial.registerAll decls).linked blocks = .ok table)

include h

theorem lookup?_of_linked (name : String) :
    table.lookup? name = ((initial.registerAll decls).registerBlocks blocks).lookup? name := by
  obtain ⟨aliases, kinds, haliases, hkinds, rfl⟩ := linked_eq_ok h
  have haliased := aliased_of_mapM (registered_registerBlocks decls blocks) haliases
  rw [lookup?_eq_names, lookup?_eq_names, names_eq_of_outline (outline_linkExtenders _),
    names_eq_of_outline (outline_of_linkKinds haliased hkinds), haliased.names]

/-- An entry is an alias if its name is declared as one, and then of what is at the end of the
chain of its name. -/
theorem alias_of_linked {id : TypeId} {entry : TypeEntry} (hentry : table.get? id = some entry) :
    (declaredTarget? decls entry.name = none ∧ entry.kind.isAlias = false) ∨
      (declaredTarget? decls entry.name).isSome = true ∧ ∃ last, entry.kind = .aliasTo last ∧
        ((initial.registerAll decls).registerBlocks blocks).aliasEnd entry.name = .ok last := by
  obtain ⟨aliases, kinds, haliases, hkinds, rfl⟩ := linked_eq_ok h
  have hregistered := registered_registerBlocks decls blocks
  have houtline : (linkExtenders ⟨kinds⟩).outline = (⟨aliases⟩ : TypeTable).outline := by
    rw [outline_linkExtenders, outline_of_linkKinds (aliased_of_mapM hregistered haliases) hkinds]
  obtain ⟨aliased, haliased, hsame⟩ := get?_of_outline houtline hentry
  simp only [TypeEntry.outline, Prod.mk.injEq] at hsame
  obtain ⟨hname, -, htarget⟩ := hsame
  obtain ⟨plain, hplain, hlink⟩ := Outcome.getElem?_of_mapM haliases (get?_eq_some.mp haliased)
  have hmem := List.mem_of_getElem? hplain
  obtain ⟨hkeep, -, hcases⟩ := linkAlias_eq_ok hlink
  have hdeclared : declaredTarget? decls entry.name = plain.declaredAlias? := by
    rw [← aliasLink_registerBlocks decls blocks, ← hname, hkeep,
      aliasLink_of_mem hregistered.nodup hmem]
  rw [hdeclared]
  rcases hcases with ⟨hnone, hkind⟩ | ⟨hsome, last, hkind, hend⟩
  · refine Or.inl ⟨hnone, ?_⟩
    rw [TypeKind.isAlias_eq_isSome, ← htarget, hkind, hregistered.plain plain hmem]
    rfl
  · refine Or.inr ⟨hsome, last, ?_, ?_⟩
    · rw [← TypeKind.aliasTarget?_eq_some, ← htarget, hkind]
      rfl
    · rw [← hname, hkeep]
      exact hend

/-- A name that is declared as an alias stands for what is at the end of its chain. -/
theorem target_of_linked {name : String} (hname : (declaredTarget? decls name).isSome = true) :
    ∃ id last dest, table.lookup? name = some id ∧ table.kind? id = some (.aliasTo last) ∧
      Trail.Leads (declaredTarget? decls) name dest ∧ declaredTarget? decls dest = none ∧
      table.lookup? dest = some last := by
  obtain ⟨target, htarget⟩ := Option.isSome_iff_exists.mp hname
  have hmem : name ∈ ((initial.registerAll decls).registerBlocks blocks).names := by
    rw [← aliasLink_registerBlocks decls blocks] at htarget
    exact mem_names_of_aliasLink htarget
  obtain ⟨id, hid⟩ := exists_lookup? hmem
  rw [← lookup?_of_linked h] at hid
  obtain ⟨entry, hentry, rfl⟩ := get?_of_lookup? hid
  rcases alias_of_linked h hentry with ⟨hnone, -⟩ | ⟨-, last, hkind, hend⟩
  · rw [hnone] at hname
    simp at hname
  · obtain ⟨dest, hleads, hdest, hlast⟩ := leads_of_aliasEnd hend
    rw [aliasLink_registerBlocks] at hleads hdest
    rw [← lookup?_of_linked h] at hlast
    exact ⟨id, last, dest, hid, kind?_eq_some.mpr ⟨entry, hentry, hkind⟩, hleads, hdest, hlast⟩

end Linked

/-! ### Linking that fails -/

/-- Replacing stops at the first item for which it fails. -/
theorem replaceUntilFault_of_first {α ε : Type} {f : α → Except ε α} {front back : List α} {x : α}
    {fault : ε} (hfront : ∀ y ∈ front, ∃ z, f y = .ok z) (hx : f x = .error fault) :
    (replaceUntilFault f (front ++ x :: back)).2 = some fault := by
  induction front with
  | nil => simp [replaceUntilFault, hx]
  | cons y front ih =>
      obtain ⟨z, hz⟩ := hfront y (List.mem_cons_self ..)
      rw [List.cons_append, replaceUntilFault, hz]
      exact ih fun w hw => hfront w (List.mem_cons_of_mem y hw)

/-- The first alias that cannot be followed is why linking fails. -/
theorem linked_eq_error {table : TypeTable} {blocks : List EnumBlock} {front back : List TypeEntry}
    {entry : TypeEntry} {fault : RegistryError}
    (hentries : (table.registerBlocks blocks).entries = front ++ entry :: back)
    (hfront : ∀ e ∈ front, ∃ linked, (table.registerBlocks blocks).linkAlias e = .ok linked)
    (hentry : (table.registerBlocks blocks).linkAlias entry = .error fault) :
    table.linked blocks = .error fault := by
  have hfault : (replaceUntilFault (table.registerBlocks blocks).linkAlias
      (table.registerBlocks blocks).entries).2 = some fault := by
    rw [hentries]
    exact replaceUntilFault_of_first hfront hentry
  unfold TypeTable.linked link
  dsimp only
  generalize replaceUntilFault (table.registerBlocks blocks).linkAlias
    (table.registerBlocks blocks).entries = aliases at hfault
  obtain ⟨entries, found⟩ := aliases
  obtain rfl : found = some fault := hfault
  rfl

theorem exists_entries_registerAll (table : TypeTable) (decls : List TypeDecl) :
    ∃ more, (table.registerAll decls).entries = table.entries ++ more := by
  induction decls generalizing table with
  | nil => exact ⟨[], (List.append_nil _).symm⟩
  | cons decl decls ih =>
      obtain ⟨more, hmore⟩ := ih (table.register decl)
      have hregister : ∃ own, (table.register decl).entries = table.entries ++ own := by
        unfold register
        split
        · exact ⟨[], (List.append_nil _).symm⟩
        · exact ⟨_, rfl⟩
      obtain ⟨own, hown⟩ := hregister
      exact ⟨own ++ more, hmore.trans (by rw [hown, List.append_assoc])⟩

/-- An alias whose chain ends can be followed. -/
theorem exists_linkAlias {decls : List TypeDecl} {blocks : List EnumBlock} {entry : TypeEntry}
    (hname : entry.name ∈ typeNames decls blocks) (h : ¬ Endless decls blocks entry.name) :
    ∃ linked, ((initial.registerAll decls).registerBlocks blocks).linkAlias entry = .ok linked := by
  rw [endless_iff, not_or] at h
  rw [← mem_names_registerBlocks] at hname
  obtain ⟨id, hid⟩ := exists_aliasEnd hname h.1 h.2
  unfold linkAlias
  split
  · exact ⟨entry, rfl⟩
  · rw [hid]
    exact ⟨_, rfl⟩

/-- An alias that cannot be followed is not linked. -/
theorem linkAlias_eq_error {table : TypeTable} {entry : TypeEntry} {fault : RegistryError}
    (halias : entry.declaredAlias? ≠ none) (h : table.aliasEnd entry.name = .error fault) :
    table.linkAlias entry = .error fault := by
  unfold linkAlias
  split
  · next hnone => exact absurd hnone halias
  · rw [h]
    rfl

/-- Of the declarations whose chains do not end, one is the first. -/
theorem exists_first_endless {decls : List TypeDecl} {blocks : List EnumBlock}
    (h : ∃ decl ∈ decls, Endless decls blocks decl.name) :
    ∃ before decl after, decls = before ++ decl :: after ∧ Endless decls blocks decl.name ∧
      ∀ d ∈ before, ¬ Endless decls blocks d.name := by
  classical
  have hfind : (decls.find? fun d => decide (Endless decls blocks d.name)).isSome = true := by
    simpa using h
  obtain ⟨decl, hdecl⟩ := Option.isSome_iff_exists.mp hfind
  obtain ⟨hends, before, after, hsplit, hbefore⟩ := List.find?_eq_some_iff_append.mp hdecl
  exact ⟨before, decl, after, hsplit, by simpa using hends, by simpa using hbefore⟩

section First

variable {before after : List TypeDecl} {decl : TypeDecl} {blocks : List EnumBlock}
  (hbefore : ∀ d ∈ before, ¬ Endless (before ++ decl :: after) blocks d.name)
  (hdecl : Endless (before ++ decl :: after) blocks decl.name)

include hbefore hdecl

/-- The first declaration whose chain does not end is the first one of its name. -/
theorem not_mem_names_of_first : decl.name ∉ (initial.registerAll before).names := by
  have hinitial : initial.names = [stringName] := rfl
  rw [names_registerAll, hinitial, List.singleton_append, List.mem_cons, List.mem_eraseDups,
    not_or]
  refine ⟨?_, ?_⟩
  · intro hstring
    refine not_endless_of_eq_none _ _ ?_ ?_ hdecl
    · simp [typeNames, hstring]
    · rw [declaredTarget?, if_pos hstring]
  · intro hmem
    obtain ⟨d, hd, hname⟩ := List.mem_map.mp (List.mem_filter.mp hmem).1
    exact hbefore d hd (hname ▸ hdecl)

/-- Linking fails for the reason that the first chain without an end gives. -/
theorem linked_of_first {fault : RegistryError}
    (hend : ((initial.registerAll (before ++ decl :: after)).registerBlocks blocks).aliasEnd
      decl.name = .error fault) :
    (initial.registerAll (before ++ decl :: after)).linked blocks = .error fault := by
  have hnew := not_mem_names_of_first hbefore hdecl
  have hsplit : (initial.registerAll (before ++ decl :: after)).registerBlocks blocks =
      ((initial.registerAll before).register decl).registerAll
        (after ++ (blocks.filter EnumBlock.hasType).map declOfBlock) := by
    rw [registerBlocks_registerAll, registerAll, registerAll, registerAll, List.append_assoc,
      List.foldl_append]
    rfl
  obtain ⟨more, hmore⟩ := exists_entries_registerAll ((initial.registerAll before).register decl)
    (after ++ (blocks.filter EnumBlock.hasType).map declOfBlock)
  rw [← hsplit, register, lookup?_eq_none_iff.mpr hnew] at hmore
  simp only [List.append_assoc, List.singleton_append] at hmore
  refine linked_eq_error hmore ?_ ?_
  · intro entry hentry
    have hmem : entry ∈
        ((initial.registerAll (before ++ decl :: after)).registerBlocks blocks).entries := by
      rw [hmore]
      exact List.mem_append_left _ hentry
    have hname : entry.name ∈ typeNames (before ++ decl :: after) blocks := by
      rw [← mem_names_registerBlocks]
      exact List.mem_map_of_mem hmem
    refine exists_linkAlias hname ?_
    rcases mem_registerAll hentry with hinitial | ⟨-, own, -, hfind⟩
    · refine not_endless_of_eq_none _ _ hname ?_
      rw [List.mem_singleton.mp hinitial]
      rfl
    · have hown : own.name = entry.name := by simpa using List.find?_some hfind
      rw [← hown]
      exact hbefore own (List.mem_of_find?_eq_some hfind)
  · refine linkAlias_eq_error ?_ hend
    intro hnone
    refine not_endless_of_eq_none _ _ ?_ ?_ hdecl
    · simp [typeNames]
    · have hmem : (⟨decl.name, some decl, .base none⟩ : TypeEntry) ∈
          ((initial.registerAll (before ++ decl :: after)).registerBlocks blocks).entries := by
        rw [hmore]
        simp
      have hlink := aliasLink_of_mem (registered_registerBlocks _ blocks).nodup hmem
      rw [hnone, aliasLink_registerBlocks] at hlink
      exact hlink

end First

end TypeTable

open TypeTable in
/--
**Aliases of types are followed exactly.**  Whatever is declared, linking either makes every
alias stand for the type at the end of its chain, which is none, or it fails at the first
declaration whose chain has no end, and says so: with the way along aliases to the name that is
met again, or with the name that no type has.
-/
theorem aliasesFollowed (decls : List TypeDecl) (blocks : List EnumBlock) :
    AliasesFollowed decls blocks := by
  refine ⟨?bounded, fun table h name => target_of_linked h, ?aliases, ?canonical, ?fails⟩
  case bounded =>
    intro name hname
    refine ⟨(Trail.nodup_path List.not_mem_nil).1, fun other hother => ?_⟩
    rw [← mem_names_registerBlocks] at hname ⊢
    exact Trail.mem_world_of_mem_path hname hother
  case aliases =>
    intro table h id entry hentry
    rcases alias_of_linked h hentry with ⟨hnone, halias⟩ | ⟨hsome, last, hkind, -⟩
    · simp [hnone, halias]
    · simp [hsome, hkind, TypeKind.isAlias]
  case canonical =>
    intro table h id hid
    have hproper := proper_canonical (linked_spec h).ends hid
    exact ⟨hproper, hproper.canonical_eq⟩
  case fails =>
    intro hsome
    obtain ⟨before, decl, after, rfl, hdecl, hbefore⟩ := exists_first_endless hsome
    refine ⟨before, decl, after, rfl, hbefore, ?_⟩
    have hlink := aliasLink_registerBlocks (before ++ decl :: after) blocks
    have hends := (endless_iff _ blocks).mp hdecl
    have hname : decl.name ∈
        ((initial.registerAll (before ++ decl :: after)).registerBlocks blocks).names := by
      rw [mem_names_registerBlocks]
      simp [typeNames]
    rcases hends with hloops | hstrays
    · obtain ⟨path, hend, hcloses⟩ := aliasEnd_of_loops hloops
      rw [hlink] at hloops hcloses
      exact Or.inl ⟨hloops, path, linked_of_first hbefore hdecl hend, hcloses⟩
    · obtain ⟨missing, last, hend, hleads, hlast, hout⟩ := aliasEnd_of_strays hname hstrays
      rw [hlink] at hleads hlast
      rw [mem_names_registerBlocks] at hout
      exact Or.inr ⟨⟨missing, hleads.tail hlast, hout⟩, missing, last,
        linked_of_first hbefore hdecl hend, hleads, hlast, hout⟩

/-- A chain that leads into a loop is reported from its own name on. -/
example : ((TypeTable.initial.registerAll [
      { name := "VkHead", aliasOf := some "VkLoop" },
      { name := "VkLoop", aliasOf := some "VkLoopKHR" },
      { name := "VkLoopKHR", aliasOf := some "VkLoop" }]).link []).2 =
    some (.cyclicAlias ["VkHead", "VkLoop", "VkLoopKHR", "VkLoop"]) := by
  decide +kernel

end VulkanRegistry
