/-
What linking makes of a table.

Before linking, every entry is a plain one that keeps the first declaration of its name.
Linking turns names into ids, and every id it puts down leads to a type of the table that is
no alias: the end of a chain of aliases has no link, and everything else is resolved to what
stands at such an end.  `Linked` collects what the rest of a build relies on.
-/
import VulkanRegistry.Proofs.Outcome
import VulkanRegistry.Proofs.Trail
import VulkanRegistry.Proofs.TypeTable.Outline
import VulkanRegistry.TypeTable.Link

namespace VulkanRegistry

/-- Every id that a kind holds. -/
def TypeKind.refs : TypeKind → List TypeId
  | .base underlying => underlying.toList
  | .aliasTo target => [target]
  | .struct layout => layout.bases ++ layout.extenders ++ layout.members.map (·.base)
  | .union layout => layout.bases ++ layout.extenders ++ layout.members.map (·.base)
  | .handle layout => layout.parent.toList
  | .functionPointer => []
  | .bitmask bits flags => bits.toList ++ flags.toList
  | .enumeration _ => []

theorem TypeKind.refs_mapStruct {f : StructLayout → StructLayout} {kind : TypeKind} {id : TypeId}
    (h : id ∈ (kind.mapStruct f).refs) :
    (∃ layout, kind.structLayout? = some layout ∧
      id ∈ (f layout).bases ++ (f layout).extenders ++ (f layout).members.map (·.base)) ∨
    (kind.structLayout? = none ∧ id ∈ kind.refs) := by
  cases kind with
  | struct layout => exact Or.inl ⟨layout, rfl, h⟩
  | union layout => exact Or.inl ⟨layout, rfl, h⟩
  | base underlying => exact Or.inr ⟨rfl, h⟩
  | aliasTo target => exact Or.inr ⟨rfl, h⟩
  | handle layout => exact Or.inr ⟨rfl, h⟩
  | functionPointer => exact Or.inr ⟨rfl, h⟩
  | bitmask bits flags => exact Or.inr ⟨rfl, h⟩
  | enumeration layout => exact Or.inr ⟨rfl, h⟩

theorem TypeKind.refs_of_structLayout? {kind : TypeKind} {layout : StructLayout}
    (h : kind.structLayout? = some layout) :
    kind.refs = layout.bases ++ layout.extenders ++ layout.members.map (·.base) := by
  cases kind <;> simp_all [structLayout?, refs]

@[simp] theorem TypeKind.refs_mapEnum (f : EnumLayout → EnumLayout) (kind : TypeKind) :
    (kind.mapEnum f).refs = kind.refs := by
  cases kind <;> rfl

theorem replaceUntilFault_eq_mapM {α ε : Type} {f : α → Except ε α} {xs ys : List α} :
    replaceUntilFault f xs = (ys, none) ↔ xs.mapM f = .ok ys := by
  induction xs generalizing ys with
  | nil => simp [replaceUntilFault, Outcome.pure_eq_ok]
  | cons x xs ih =>
      rw [List.mapM_cons, Outcome.bind_eq_ok]
      unfold replaceUntilFault
      cases hx : f x with
      | error fault => simp
      | ok y =>
          cases hrest : replaceUntilFault f xs with
          | mk zs fault =>
              simp only [Prod.mk.injEq, Except.ok.injEq, exists_eq_left', Outcome.bind_eq_ok,
                Outcome.pure_eq_ok]
              constructor
              · rintro ⟨rfl, rfl⟩
                exact ⟨zs, ih.mp hrest, rfl⟩
              · rintro ⟨rest, hok, rfl⟩
                have heq := hrest.symm.trans (ih.mpr hok)
                simp only [Prod.mk.injEq] at heq
                exact ⟨by rw [heq.1], heq.2⟩

namespace TypeTable

/-! ### Registering -/

/-- A table of plain entries, the built-in one first and each name once. -/
structure Registered (table : TypeTable) : Prop where
  nodup : table.names.Nodup
  string : table.get? ⟨0⟩ = some ⟨stringName, none, .base none⟩
  plain : ∀ entry ∈ table.entries, entry.kind = .base none
  named : ∀ entry ∈ table.entries, ∀ decl, entry.decl = some decl → decl.name = entry.name

theorem registered_initial : initial.Registered where
  nodup := by simp [initial, names]
  string := rfl
  plain := by simp [initial]
  named := by simp [initial]

theorem Registered.register {table : TypeTable} (h : table.Registered) (decl : TypeDecl) :
    (table.register decl).Registered := by
  unfold TypeTable.register
  split
  · exact h
  · next hnone =>
      refine ⟨?_, ?_, ?_, ?_⟩
      · have hnew := lookup?_eq_none_iff.mp hnone
        rw [names, List.map_append]
        refine List.nodup_append.mpr ⟨h.nodup, by simp, ?_⟩
        intro name hold other hother heq
        simp only [List.map_cons, List.map_nil, List.mem_singleton] at hother
        rw [heq, hother] at hold
        exact hnew hold
      · have hstring := h.string
        rw [get?_eq_some] at hstring ⊢
        rw [List.getElem?_append_left (List.getElem?_eq_some_iff.mp hstring).1]
        exact hstring
      · intro entry hentry
        rcases List.mem_append.mp hentry with hentry | hentry
        · exact h.plain entry hentry
        · rw [List.mem_singleton.mp hentry]
      · intro entry hentry found hfound
        rcases List.mem_append.mp hentry with hentry | hentry
        · exact h.named entry hentry found hfound
        · rw [List.mem_singleton.mp hentry] at hfound ⊢
          rw [← Option.some.inj hfound]

theorem Registered.registerAll {table : TypeTable} (h : table.Registered) (decls : List TypeDecl) :
    (table.registerAll decls).Registered := by
  induction decls generalizing table with
  | nil => exact h
  | cons decl decls ih => exact ih (h.register decl)

/-- The declarations and blocks of a document are registered before they are linked. -/
theorem registered_registerBlocks (decls : List TypeDecl) (blocks : List EnumBlock) :
    ((initial.registerAll decls).registerBlocks blocks).Registered :=
  (registered_initial.registerAll decls).registerAll _

theorem mem_register {table : TypeTable} {decl : TypeDecl} {entry : TypeEntry}
    (h : entry ∈ (table.register decl).entries) :
    entry ∈ table.entries ∨
      decl.name ∉ table.names ∧ entry = ⟨decl.name, some decl, .base none⟩ := by
  unfold register at h
  split at h
  · exact Or.inl h
  · next hnone =>
      rcases List.mem_append.mp h with h | h
      · exact Or.inl h
      · exact Or.inr ⟨lookup?_eq_none_iff.mp hnone, List.mem_singleton.mp h⟩

theorem mem_names_register {table : TypeTable} {decl : TypeDecl} {name : String} :
    name ∈ (table.register decl).names ↔ name ∈ table.names ∨ name = decl.name := by
  unfold register
  split
  · next found hfound =>
      obtain ⟨entry, hentry, hname⟩ := get?_of_lookup? hfound
      have hmem : decl.name ∈ table.names :=
        hname ▸ List.mem_map.mpr ⟨entry, List.mem_of_getElem? hentry, rfl⟩
      exact ⟨Or.inl, fun h => h.elim id fun h => h ▸ hmem⟩
  · simp [names]

/-- An entry that registering adds keeps the first declaration of its name. -/
theorem mem_registerAll {table : TypeTable} {decls : List TypeDecl} {entry : TypeEntry}
    (h : entry ∈ (table.registerAll decls).entries) :
    entry ∈ table.entries ∨
      entry.name ∉ table.names ∧ ∃ decl, entry.decl = some decl ∧
        decls.find? (·.name == entry.name) = some decl := by
  induction decls generalizing table with
  | nil => exact Or.inl h
  | cons decl decls ih =>
      rcases ih h with hmem | ⟨hnew, found, hdecl, hfind⟩
      · rcases mem_register hmem with hmem | ⟨hnew, rfl⟩
        · exact Or.inl hmem
        · exact Or.inr ⟨hnew, decl, rfl, List.find?_cons_of_pos (by simp)⟩
      · rw [mem_names_register, not_or] at hnew
        have hne : decl.name ≠ entry.name := fun heq => hnew.2 heq.symm
        refine Or.inr ⟨hnew.1, found, hdecl, ?_⟩
        rw [List.find?_cons_of_neg (by simpa using hne)]
        exact hfind

/-- The names that are registered follow the ones that are there, each at its first turn. -/
theorem names_registerAll {table : TypeTable} {decls : List TypeDecl} :
    (table.registerAll decls).names =
      table.names ++ ((decls.map (·.name)).removeAll table.names).eraseDups := by
  induction decls generalizing table with
  | nil => simp [registerAll, List.removeAll]
  | cons decl decls ih =>
      show ((table.register decl).registerAll decls).names = _
      rw [ih, register]
      cases hfound : table.lookup? decl.name with
      | some id =>
          obtain ⟨entry, hentry, hname⟩ := get?_of_lookup? hfound
          have hmem : decl.name ∈ table.names :=
            List.mem_map.mpr ⟨entry, List.mem_of_getElem? hentry, hname⟩
          simp [List.removeAll, hmem]
      | none =>
          have hnew := lookup?_eq_none_iff.mp hfound
          have hnames : names ⟨table.entries ++ [⟨decl.name, some decl, .base none⟩]⟩ =
              table.names ++ [decl.name] := by simp [names]
          have hkept : (decls.map (·.name)).removeAll (table.names ++ [decl.name]) =
              ((decls.map (·.name)).removeAll table.names).filter
                fun name => !name == decl.name := by
            rw [List.removeAll, List.removeAll, List.filter_filter]
            refine List.filter_congr fun name _ => ?_
            by_cases heq : name = decl.name <;> simp [heq]
          simp only [hnames, hkept, List.append_assoc, List.singleton_append]
          rw [← List.eraseDups_cons, List.map_cons]
          simp [List.removeAll, hnew]

/-! ### Aliases -/

/-- A chain of aliases ends at a type that is declared as no alias. -/
theorem declaredAlias?_of_aliasEnd {table : TypeTable} {name : String} {id : TypeId}
    (h : table.aliasEnd name = .ok id) :
    ∃ entry, table.get? id = some entry ∧ entry.declaredAlias? = none := by
  unfold aliasEnd at h
  dsimp only at h
  split at h
  · next hstops =>
      have hlast := Trail.next_last_of_stops hstops
      have hlookup := require_eq_ok.mp h
      obtain ⟨entry, hentry, -⟩ := get?_of_lookup? hlookup
      refine ⟨entry, hentry, ?_⟩
      unfold aliasTrail Trail.follow at hlookup
      rw [aliasLink, hlookup, Option.bind_some, hentry] at hlast
      exact hlast
  · simp at h
  · simp at h

theorem linkAlias_eq_ok {table : TypeTable} {entry linked : TypeEntry}
    (h : table.linkAlias entry = .ok linked) :
    linked.name = entry.name ∧ linked.decl = entry.decl ∧
      ((entry.declaredAlias? = none ∧ linked.kind = entry.kind) ∨
        entry.declaredAlias?.isSome = true ∧
          ∃ target, linked.kind = .aliasTo target ∧ table.aliasEnd entry.name = .ok target) := by
  unfold linkAlias at h
  split at h
  · next hnone =>
      rw [← Except.ok.inj h]
      exact ⟨rfl, rfl, Or.inl ⟨hnone, rfl⟩⟩
  · next hsome =>
      obtain ⟨target, htarget, h⟩ := Outcome.bind_eq_ok.mp h
      rw [Outcome.pure_eq_ok] at h
      rw [← h]
      exact ⟨rfl, rfl, Or.inr ⟨by simp [hsome], target, rfl, htarget⟩⟩

/-- Behind the aliases, every entry is a plain one or an alias of a plain one. -/
structure Aliased (registered table : TypeTable) : Prop where
  names : table.names = registered.names
  decls : table.entries.map (·.decl) = registered.entries.map (·.decl)
  ends : table.AliasesEnd
  plain : ∀ entry ∈ table.entries, entry.kind = .base none ∨
    ∃ target, entry.kind = .aliasTo target ∧ entry.declaredAlias?.isSome = true

theorem aliased_of_mapM {registered : TypeTable} (hregistered : registered.Registered)
    {entries : List TypeEntry} (h : registered.entries.mapM registered.linkAlias = .ok entries) :
    Aliased registered ⟨entries⟩ := by
  refine ⟨?_, ?_, ?_, ?_⟩
  · exact Outcome.map_eq_of_mapM (fun _ _ _ hlink => (linkAlias_eq_ok hlink).1) h
  · exact Outcome.map_eq_of_mapM (fun _ _ _ hlink => (linkAlias_eq_ok hlink).2.1) h
  · intro id entry target hentry hkind
    obtain ⟨source, hsource, hlink⟩ := Outcome.getElem?_of_mapM h hentry
    obtain ⟨-, -, ⟨-, hsame⟩ | ⟨-, target', hkind', hend⟩⟩ := linkAlias_eq_ok hlink
    · rw [hkind, hregistered.plain source (List.mem_of_getElem? hsource)] at hsame
      simp at hsame
    · rw [hkind, TypeKind.aliasTo.injEq] at hkind'
      obtain ⟨found, hfound, hnone⟩ := declaredAlias?_of_aliasEnd hend
      rw [← hkind'] at hfound
      obtain ⟨linked, hlinked, hfoundLink⟩ :=
        Outcome.exists_getElem?_of_mapM h (get?_eq_some.mp hfound)
      refine ⟨linked, hlinked, ?_⟩
      obtain ⟨-, -, ⟨-, hsame⟩ | ⟨hsome, -⟩⟩ := linkAlias_eq_ok hfoundLink
      · rw [hsame, hregistered.plain found (List.mem_of_getElem? hfound)]
        rfl
      · rw [hnone] at hsome
        simp at hsome
  · intro entry hentry
    obtain ⟨source, hsource, hlink⟩ := Outcome.exists_of_mem_mapM h hentry
    obtain ⟨-, hdecl, ⟨-, hsame⟩ | ⟨hsome, target, hkind, -⟩⟩ := linkAlias_eq_ok hlink
    · exact Or.inl (hsame.trans (hregistered.plain source hsource))
    · refine Or.inr ⟨target, hkind, ?_⟩
      rw [TypeEntry.declaredAlias?, hdecl]
      exact hsome

/-! ### Kinds -/

theorem proper_of_resolveOption {table : TypeTable} (hends : table.AliasesEnd) {owner : String}
    {name : Option String} {resolved : Option TypeId}
    (h : table.resolveOption owner name = .ok resolved) :
    ∀ id ∈ resolved.toList, table.Proper id := by
  intro id hid
  cases name with
  | none =>
      rw [← Except.ok.inj h] at hid
      simp at hid
  | some name =>
      obtain ⟨found, hfound, rfl⟩ := Outcome.map_eq_ok.mp h
      rw [Option.toList_some, List.mem_singleton] at hid
      rw [hid]
      exact proper_of_resolve hends hfound

theorem proper_of_structOf {table : TypeTable} (hends : table.AliasesEnd) {decl : TypeDecl}
    {layout : StructLayout} (h : table.structOf decl = .ok layout) :
    layout.members = [] ∧ layout.extenders = [] ∧ ∀ id ∈ layout.bases, table.Proper id := by
  obtain ⟨bases, hbases, h⟩ := Outcome.bind_eq_ok.mp h
  rw [Outcome.pure_eq_ok] at h
  rw [← h]
  refine ⟨rfl, rfl, ?_⟩
  intro id hid
  obtain ⟨name, -, hname⟩ := Outcome.exists_of_mem_mapM hbases hid
  exact proper_of_resolve hends hname

/-- The kind of a declaration holds ids of types that are no aliases, and a struct has
neither members nor extenders yet. -/
structure Fresh (table : TypeTable) (decl : TypeDecl) (kind : TypeKind) : Prop where
  proper : kind.isAlias = false
  refs : ∀ id ∈ kind.refs, table.Proper id
  layout : ∀ layout, kind.structLayout? = some layout →
    layout.members = [] ∧ layout.extenders = [] ∧
      (decl.category = some "struct" ∨ decl.category = some "union")

theorem fresh_of_kindOf {table : TypeTable} (hends : table.AliasesEnd) {blocks : List EnumBlock}
    {decl : TypeDecl} {kind : TypeKind} (h : table.kindOf blocks decl = .ok kind) :
    Fresh table decl kind := by
  unfold kindOf at h
  split at h
  · next hcategory =>
      obtain ⟨layout, hlayout, rfl⟩ := Outcome.map_eq_ok.mp h
      obtain ⟨hmembers, hextenders, hbases⟩ := proper_of_structOf hends hlayout
      refine ⟨rfl, ?_, ?_⟩
      · simpa [TypeKind.refs, hmembers, hextenders] using hbases
      · rintro _ ⟨⟩
        exact ⟨hmembers, hextenders, Or.inl hcategory⟩
  · next hcategory =>
      obtain ⟨layout, hlayout, rfl⟩ := Outcome.map_eq_ok.mp h
      obtain ⟨hmembers, hextenders, hbases⟩ := proper_of_structOf hends hlayout
      refine ⟨rfl, ?_, ?_⟩
      · simpa [TypeKind.refs, hmembers, hextenders] using hbases
      · rintro _ ⟨⟩
        exact ⟨hmembers, hextenders, Or.inr hcategory⟩
  · obtain ⟨parent, hparent, h⟩ := Outcome.bind_eq_ok.mp h
    rw [Outcome.pure_eq_ok] at h
    rw [← h]
    exact ⟨rfl, proper_of_resolveOption hends hparent, by simp [TypeKind.structLayout?]⟩
  · rw [← Except.ok.inj h]
    exact ⟨rfl, by simp [TypeKind.refs], by simp [TypeKind.structLayout?]⟩
  · obtain ⟨bits, hbits, h⟩ := Outcome.bind_eq_ok.mp h
    obtain ⟨flags, hflags, h⟩ := Outcome.bind_eq_ok.mp h
    rw [Outcome.pure_eq_ok] at h
    rw [← h]
    refine ⟨rfl, ?_, by simp [TypeKind.structLayout?]⟩
    intro id hid
    rcases List.mem_append.mp hid with hid | hid
    · exact proper_of_resolveOption hends hbits id hid
    · exact proper_of_resolveOption hends hflags id hid
  · rw [← Except.ok.inj h]
    exact ⟨rfl, by simp [TypeKind.refs], by simp [TypeKind.structLayout?]⟩
  · obtain ⟨underlying, hunderlying, rfl⟩ := Outcome.map_eq_ok.mp h
    exact ⟨rfl, proper_of_resolveOption hends hunderlying, by simp [TypeKind.structLayout?]⟩
  · rw [← Except.ok.inj h]
    exact ⟨rfl, by simp [TypeKind.refs], by simp [TypeKind.structLayout?]⟩

/-- An enumeration has no values yet. -/
theorem values_of_kindOf {table : TypeTable} {blocks : List EnumBlock} {decl : TypeDecl}
    {kind : TypeKind} (h : table.kindOf blocks decl = .ok kind) {layout : EnumLayout}
    (hlayout : kind.enumLayout? = some layout) : layout.values = [] := by
  unfold kindOf at h
  split at h
  · obtain ⟨_, -, rfl⟩ := Outcome.map_eq_ok.mp h
    simp [TypeKind.enumLayout?] at hlayout
  · obtain ⟨_, -, rfl⟩ := Outcome.map_eq_ok.mp h
    simp [TypeKind.enumLayout?] at hlayout
  · obtain ⟨_, -, h⟩ := Outcome.bind_eq_ok.mp h
    rw [← Except.ok.inj h] at hlayout
    simp [TypeKind.enumLayout?] at hlayout
  · rw [← Except.ok.inj h] at hlayout
    simp [TypeKind.enumLayout?] at hlayout
  · obtain ⟨_, -, h⟩ := Outcome.bind_eq_ok.mp h
    obtain ⟨_, -, h⟩ := Outcome.bind_eq_ok.mp h
    rw [← Except.ok.inj h] at hlayout
    simp [TypeKind.enumLayout?] at hlayout
  · rw [← Except.ok.inj h] at hlayout
    rw [← Option.some.inj hlayout]
    rfl
  · obtain ⟨_, -, rfl⟩ := Outcome.map_eq_ok.mp h
    simp [TypeKind.enumLayout?] at hlayout
  · rw [← Except.ok.inj h] at hlayout
    simp [TypeKind.enumLayout?] at hlayout

theorem linkKind_eq_ok {table : TypeTable} (hends : table.AliasesEnd) {blocks : List EnumBlock}
    {entry linked : TypeEntry} (h : table.linkKind blocks entry = .ok linked) :
    linked.name = entry.name ∧ linked.decl = entry.decl ∧
      ((linked.kind = entry.kind ∧ ∀ decl, entry.decl = some decl → decl.aliasOf.isSome = true) ∨
        ∃ decl, entry.decl = some decl ∧ decl.aliasOf = none ∧ Fresh table decl linked.kind) := by
  unfold linkKind at h
  split at h
  · next hnone =>
      rw [← Except.ok.inj h]
      exact ⟨rfl, rfl, Or.inl ⟨rfl, by simp [hnone]⟩⟩
  · next decl hdecl =>
      split at h
      · next halias =>
          rw [← Except.ok.inj h]
          refine ⟨rfl, rfl, Or.inl ⟨rfl, ?_⟩⟩
          intro found hfound
          rw [hdecl, Option.some.injEq] at hfound
          rw [← hfound]
          exact halias
      · next halias =>
          obtain ⟨kind, hkind, h⟩ := Outcome.bind_eq_ok.mp h
          rw [Outcome.pure_eq_ok] at h
          rw [← h]
          exact ⟨rfl, rfl, Or.inr ⟨decl, hdecl, by simpa using halias, fresh_of_kindOf hends hkind⟩⟩

theorem outline_of_linkKinds {registered aliased : TypeTable} {blocks : List EnumBlock}
    (haliased : Aliased registered aliased) {entries : List TypeEntry}
    (h : aliased.entries.mapM (aliased.linkKind blocks) = .ok entries) :
    (⟨entries⟩ : TypeTable).outline = aliased.outline := by
  have hmem : ∀ entry ∈ aliased.entries, ∀ linked, aliased.linkKind blocks entry = .ok linked →
      linked.outline = entry.outline := by
    intro entry hentry linked hlink
    obtain ⟨hname, hdecl, ⟨hsame, -⟩ | ⟨decl, hsome, hnone, hfresh⟩⟩ :=
      linkKind_eq_ok haliased.ends hlink
    · simp only [TypeEntry.outline, hname, hdecl, hsame]
    · have halias := hfresh.proper
      rw [TypeKind.isAlias_eq_isSome, Option.isSome_eq_false_iff,
        Option.isNone_iff_eq_none] at halias
      rcases haliased.plain entry hentry with hplain | ⟨target, -, hdeclared⟩
      · simp only [TypeEntry.outline, hname, hdecl, halias, hplain]
        rfl
      · rw [TypeEntry.declaredAlias?, hsome, Option.bind_some, hnone] at hdeclared
        simp at hdeclared
  exact Outcome.map_eq_of_mapM hmem h

/-- Behind the kinds, every id leads to a type that is no alias. -/
theorem refs_of_linkKind {registered aliased : TypeTable} {blocks : List EnumBlock}
    (haliased : Aliased registered aliased) {entry linked : TypeEntry}
    (hentry : entry ∈ aliased.entries) (h : aliased.linkKind blocks entry = .ok linked) :
    ∀ ref ∈ linked.kind.refs, aliased.Proper ref := by
  intro ref href
  obtain ⟨-, -, ⟨hsame, -⟩ | ⟨decl, -, -, hfresh⟩⟩ := linkKind_eq_ok haliased.ends h
  · rw [hsame] at href
    rcases haliased.plain entry hentry with hplain | ⟨target, htarget, -⟩
    · rw [hplain] at href
      simp [TypeKind.refs] at href
    · obtain ⟨i, hi⟩ := List.mem_iff_getElem?.mp hentry
      rw [htarget, TypeKind.refs, List.mem_singleton] at href
      rw [href]
      exact haliased.ends ⟨i⟩ entry target hi htarget
  · exact hfresh.refs ref href

/-- Behind the kinds, structs have a declaration and are empty. -/
theorem layout_of_linkKind {registered aliased : TypeTable} {blocks : List EnumBlock}
    (haliased : Aliased registered aliased) {entry linked : TypeEntry}
    (hentry : entry ∈ aliased.entries) (h : aliased.linkKind blocks entry = .ok linked)
    {layout : StructLayout} (hlayout : linked.kind.structLayout? = some layout) :
    layout.members = [] ∧ ∃ decl, linked.decl = some decl ∧
      (decl.category = some "struct" ∨ decl.category = some "union") := by
  obtain ⟨-, hdecl, ⟨hsame, -⟩ | ⟨decl, hsome, -, hfresh⟩⟩ := linkKind_eq_ok haliased.ends h
  · rw [hsame] at hlayout
    rcases haliased.plain entry hentry with hplain | ⟨target, htarget, -⟩
    · simp [hplain, TypeKind.structLayout?] at hlayout
    · simp [htarget, TypeKind.structLayout?] at hlayout
  · obtain ⟨hmembers, -, hcategory⟩ := hfresh.layout layout hlayout
    exact ⟨hmembers, decl, hdecl.trans hsome, hcategory⟩

/-! ### Extenders -/

theorem get?_linkExtenders (table : TypeTable) (id : TypeId) :
    table.linkExtenders.get? id = (table.get? id).map fun entry =>
      { entry with kind := entry.kind.mapStruct fun layout =>
          { layout with extenders := table.extendersOf id } } := by
  rw [get?, linkExtenders, List.getElem?_map, getElem?_indexed, Option.map_map]
  rfl

theorem outline_linkExtenders (table : TypeTable) :
    table.linkExtenders.outline = table.outline := by
  have hentries : table.outline = table.indexed.map fun pair => pair.2.outline := by
    rw [outline, ← map_snd_indexed, List.map_map]
    rfl
  rw [hentries, outline, linkExtenders, List.map_map]
  refine List.map_congr_left ?_
  intro pair _
  simp [TypeEntry.outline]

theorem proper_of_mem_extendersOf {table : TypeTable} {base id : TypeId}
    (h : id ∈ table.extendersOf base) : table.Proper id := by
  obtain ⟨⟨found, entry⟩, hmem, rfl⟩ := List.mem_map.mp h
  obtain ⟨hindexed, hextends⟩ := List.mem_filter.mp hmem
  refine ⟨entry, mem_indexed.mp hindexed, ?_⟩
  cases hkind : entry.kind <;> simp_all [extendsStruct, TypeKind.structLayout?, TypeKind.isAlias]

/-! ### All steps -/

/-- What a linked table is, beside what its kinds say: names are distinct, every id leads to
a type that is no alias, and a struct keeps the first declaration of its name and has no
members yet. -/
structure Linked (decls : List TypeDecl) (table : TypeTable) : Prop where
  nodup : table.names.Nodup
  string : table.get? ⟨0⟩ = some ⟨stringName, none, .base none⟩
  ends : table.AliasesEnd
  refs : ∀ id entry, table.get? id = some entry → ∀ ref ∈ entry.kind.refs, table.Proper ref
  layout : ∀ id entry, table.get? id = some entry → ∀ layout,
    entry.kind.structLayout? = some layout → layout.members = [] ∧
      ∃ decl, entry.decl = some decl ∧ decls.find? (·.name == entry.name) = some decl

theorem linked_eq_ok {table linked : TypeTable} {blocks : List EnumBlock}
    (h : table.linked blocks = .ok linked) :
    ∃ aliased kinds,
      (table.registerBlocks blocks).entries.mapM (table.registerBlocks blocks).linkAlias =
        .ok aliased ∧
      aliased.mapM (linkKind ⟨aliased⟩ blocks) = .ok kinds ∧ linked = linkExtenders ⟨kinds⟩ := by
  unfold TypeTable.linked link at h
  dsimp only at h
  generalize haliases : replaceUntilFault (table.registerBlocks blocks).linkAlias
    (table.registerBlocks blocks).entries = aliases at h
  obtain ⟨aliased, fault⟩ := aliases
  cases fault with
  | some fault => simp at h
  | none =>
      dsimp only at h
      generalize hkinds : replaceUntilFault (linkKind ⟨aliased⟩ blocks) aliased = linkedKinds at h
      obtain ⟨kinds, fault⟩ := linkedKinds
      cases fault with
      | some fault => simp at h
      | none =>
          exact ⟨aliased, kinds, replaceUntilFault_eq_mapM.mp haliases,
            replaceUntilFault_eq_mapM.mp hkinds, (Except.ok.inj h).symm⟩

/-- A declaration that a block of values stands for is never that of a struct. -/
theorem find?_of_mem_registerBlocks {decls : List TypeDecl} {blocks : List EnumBlock}
    {entry : TypeEntry} (h : entry ∈ ((initial.registerAll decls).registerBlocks blocks).entries)
    {decl : TypeDecl} (hdecl : entry.decl = some decl)
    (hcategory : decl.category = some "struct" ∨ decl.category = some "union") :
    decls.find? (·.name == entry.name) = some decl := by
  rcases mem_registerAll h with h | ⟨-, found, hfound, hfind⟩
  · rcases mem_registerAll h with h | ⟨-, found, hfound, hfind⟩
    · rw [List.mem_singleton.mp h] at hdecl
      simp at hdecl
    · rw [hdecl, Option.some.injEq] at hfound
      rw [hfind, hfound]
  · rw [hdecl, Option.some.injEq] at hfound
    obtain ⟨block, -, rfl⟩ := List.mem_map.mp (List.mem_of_find?_eq_some hfind)
    rw [hfound] at hcategory
    simp [declOfBlock] at hcategory

section Phases

variable {registered : TypeTable} {blocks : List EnumBlock} {aliases kinds : List TypeEntry}

/-- How the entry at an id came about: linked behind the aliases, then given its extenders. -/
theorem exists_linkKind (hkinds : aliases.mapM (linkKind ⟨aliases⟩ blocks) = .ok kinds)
    {id : TypeId} {entry : TypeEntry} (h : (linkExtenders ⟨kinds⟩).get? id = some entry) :
    ∃ aliased kind, aliased ∈ aliases ∧ linkKind ⟨aliases⟩ blocks aliased = .ok kind ∧
      entry = { kind with
        kind := kind.kind.mapStruct fun layout =>
          { layout with extenders := extendersOf ⟨kinds⟩ id } } := by
  rw [get?_linkExtenders] at h
  obtain ⟨kind, hkind, rfl⟩ := Option.map_eq_some_iff.mp h
  obtain ⟨aliased, hsource, hlink⟩ := Outcome.getElem?_of_mapM hkinds hkind
  exact ⟨aliased, kind, List.mem_of_getElem? hsource, hlink, rfl⟩

/-- The built-in type has no declaration, so every step leaves it alone. -/
theorem get?_string_of_phases (hregistered : registered.Registered)
    (haliases : registered.entries.mapM registered.linkAlias = .ok aliases)
    (hkinds : aliases.mapM (linkKind ⟨aliases⟩ blocks) = .ok kinds) :
    (linkExtenders ⟨kinds⟩).get? ⟨0⟩ = some ⟨stringName, none, .base none⟩ := by
  obtain ⟨aliased, haliased, hlinkAlias⟩ :=
    Outcome.exists_getElem?_of_mapM haliases (get?_eq_some.mp hregistered.string)
  rw [← Except.ok.inj hlinkAlias] at haliased
  obtain ⟨kind, hkind, hlinkKind⟩ := Outcome.exists_getElem?_of_mapM hkinds haliased
  rw [← Except.ok.inj hlinkKind] at hkind
  rw [get?_linkExtenders, get?, hkind]
  rfl

/-- Extenders are types of the table that are no aliases, like everything else. -/
theorem proper_of_phases (haliased : Aliased registered ⟨aliases⟩)
    (hkinds : aliases.mapM (linkKind ⟨aliases⟩ blocks) = .ok kinds) {id : TypeId}
    {entry : TypeEntry} (hentry : (linkExtenders ⟨kinds⟩).get? id = some entry) {ref : TypeId}
    (href : ref ∈ entry.kind.refs) : (linkExtenders ⟨kinds⟩).Proper ref := by
  have houtline : (linkExtenders ⟨kinds⟩).outline = (⟨aliases⟩ : TypeTable).outline := by
    rw [outline_linkExtenders, outline_of_linkKinds haliased hkinds]
  obtain ⟨aliased, kind, hmem, hlink, rfl⟩ := exists_linkKind hkinds hentry
  have hrefs := refs_of_linkKind haliased hmem hlink
  rcases TypeKind.refs_mapStruct href with ⟨layout, hlayout, href⟩ | ⟨-, href⟩
  · rw [TypeKind.refs_of_structLayout? hlayout] at hrefs
    simp only [List.mem_append] at href hrefs
    rcases href with (hbase | hextender) | hmember
    · exact proper_of_outline houtline (hrefs ref (Or.inl (Or.inl hbase)))
    · exact proper_of_outline (outline_linkExtenders _) (proper_of_mem_extendersOf hextender)
    · exact proper_of_outline houtline (hrefs ref (Or.inr hmember))
  · exact proper_of_outline houtline (hrefs ref href)

end Phases

/-- A struct has no members yet and keeps the first declaration of its name. -/
theorem exists_decl_of_phases {decls : List TypeDecl} {blocks : List EnumBlock}
    {aliases kinds : List TypeEntry}
    (haliased : Aliased ((initial.registerAll decls).registerBlocks blocks) ⟨aliases⟩)
    (haliases : ((initial.registerAll decls).registerBlocks blocks).entries.mapM
      ((initial.registerAll decls).registerBlocks blocks).linkAlias = .ok aliases)
    (hkinds : aliases.mapM (linkKind ⟨aliases⟩ blocks) = .ok kinds) {id : TypeId}
    {entry : TypeEntry} (hentry : (linkExtenders ⟨kinds⟩).get? id = some entry)
    {layout : StructLayout}
    (hlayout : entry.kind.structLayout? = some layout) :
    layout.members = [] ∧ ∃ decl, entry.decl = some decl ∧
      decls.find? (·.name == entry.name) = some decl := by
  obtain ⟨aliased, kind, hmem, hlink, rfl⟩ := exists_linkKind hkinds hentry
  rw [TypeKind.structLayout?_mapStruct] at hlayout
  obtain ⟨before, hbefore, rfl⟩ := Option.map_eq_some_iff.mp hlayout
  obtain ⟨hmembers, decl, hdecl, hcategory⟩ := layout_of_linkKind haliased hmem hlink hbefore
  obtain ⟨plain, hplain, hlinkAlias⟩ := Outcome.exists_of_mem_mapM haliases hmem
  obtain ⟨hname, hsame, -⟩ := linkAlias_eq_ok hlinkAlias
  obtain ⟨hname', hsame', -⟩ := linkKind_eq_ok haliased.ends hlink
  have hplainDecl : plain.decl = some decl := by
    rw [← hsame, ← hsame', hdecl]
  have hfind := find?_of_mem_registerBlocks hplain hplainDecl hcategory
  rw [← hname, ← hname'] at hfind
  exact ⟨hmembers, decl, hdecl, hfind⟩

/-- Linking the declarations of a document makes a linked table of them. -/
theorem linked_spec {decls : List TypeDecl} {blocks : List EnumBlock} {linked : TypeTable}
    (h : (initial.registerAll decls).linked blocks = .ok linked) : linked.Linked decls := by
  obtain ⟨aliases, kinds, haliases, hkinds, rfl⟩ := linked_eq_ok h
  have hregistered := registered_registerBlocks decls blocks
  have haliased := aliased_of_mapM hregistered haliases
  have houtline : (linkExtenders ⟨kinds⟩).outline = (⟨aliases⟩ : TypeTable).outline := by
    rw [outline_linkExtenders, outline_of_linkKinds haliased hkinds]
  refine ⟨?_, get?_string_of_phases hregistered haliases hkinds,
    aliasesEnd_of_outline houtline haliased.ends, ?_, ?_⟩
  · rw [names_eq_of_outline houtline, haliased.names]
    exact hregistered.nodup
  · intro id entry hentry ref href
    exact proper_of_phases haliased hkinds hentry href
  · intro id entry hentry layout hlayout
    exact exists_decl_of_phases haliased haliases hkinds hentry hlayout

/-- The names of a linked table, in order: the built-in one, then those of the declarations,
then those of the blocks of values, each at its first turn. -/
theorem names_linked {decls : List TypeDecl} {blocks : List EnumBlock} {linked : TypeTable}
    (h : (initial.registerAll decls).linked blocks = .ok linked) :
    linked.names = (stringName :: (decls.map (·.name) ++
      (blocks.filter EnumBlock.hasType).map (·.name))).eraseDups := by
  obtain ⟨aliases, kinds, haliases, hkinds, rfl⟩ := linked_eq_ok h
  have hregistered := registered_registerBlocks decls blocks
  have haliased := aliased_of_mapM hregistered haliases
  have hall : (initial.registerAll decls).registerBlocks blocks =
      initial.registerAll (decls ++ (blocks.filter EnumBlock.hasType).map declOfBlock) :=
    List.foldl_append.symm
  have hinitial : initial.names = [stringName] := rfl
  have hblocks : ((blocks.filter EnumBlock.hasType).map declOfBlock).map (·.name) =
      (blocks.filter EnumBlock.hasType).map (·.name) := List.map_map
  rw [names_eq_of_outline (outline_linkExtenders _),
    names_eq_of_outline (outline_of_linkKinds haliased hkinds), haliased.names, hall,
    names_registerAll, hinitial, List.map_append, hblocks, List.eraseDups_cons,
    List.removeAll_cons, List.removeAll_nil]
  rfl

/-- The enumerations of a linked table have no values yet. -/
theorem values_of_linked {decls : List TypeDecl} {blocks : List EnumBlock} {linked : TypeTable}
    (h : (initial.registerAll decls).linked blocks = .ok linked) {id : TypeId}
    {layout : EnumLayout} (hlayout : linked.enum? id = some layout) : layout.values = [] := by
  obtain ⟨aliases, kinds, haliases, hkinds, rfl⟩ := linked_eq_ok h
  have hregistered := registered_registerBlocks decls blocks
  have haliased := aliased_of_mapM hregistered haliases
  obtain ⟨kind, hkind, hlayout⟩ := Option.bind_eq_some_iff.mp hlayout
  obtain ⟨entry, hentry, rfl⟩ := kind?_eq_some.mp hkind
  obtain ⟨aliased, made, hmem, hlink, rfl⟩ := exists_linkKind hkinds hentry
  rw [TypeKind.enumLayout?_mapStruct] at hlayout
  have hplain : aliased.kind.enumLayout? = none := by
    rcases haliased.plain aliased hmem with hplain | ⟨target, htarget, -⟩
    · rw [hplain]
      rfl
    · rw [htarget]
      rfl
  unfold linkKind at hlink
  split at hlink
  · rw [← Except.ok.inj hlink, hplain] at hlayout
    simp at hlayout
  · split at hlink
    · rw [← Except.ok.inj hlink, hplain] at hlayout
      simp at hlayout
    · obtain ⟨kind, hkind, hlink⟩ := Outcome.bind_eq_ok.mp hlink
      rw [Outcome.pure_eq_ok] at hlink
      rw [← hlink] at hlayout
      exact values_of_kindOf hkind hlayout

end TypeTable

end VulkanRegistry
