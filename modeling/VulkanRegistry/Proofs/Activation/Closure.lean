/-
The closure of what is in use is the least one.

Commands are closed first, then their origins are passed on to the types they name, and then
types settle.  Each phase is a step on the way from what the directives left, and together
they pass on everything.  So the closure of a set is what reachability along mentions says
it is, and none of the orders in which it is worked out matters; and it exists unless
something that is reached mentions what is undeclared or removed, or an alias of a command
comes back to itself.
-/
import VulkanRegistry.Proofs.Activation.CloseTypes

namespace VulkanRegistry

variable {decls : List TypeDecl} {table : TypeTable} {index : EntityIndex} {start : ActiveSet}
  {state next : Passing}

/-! ### Types named by commands -/

/-- If the command is active, the types it names have its origins. -/
def NamedTypesHave (table : TypeTable) (start set : ActiveSet)
    (placed : Nat × CommandDecl) : Prop :=
  (set.commandAt placed.1).isActive = true → ∀ mention ∈ placed.2.mentions,
    ∃ id, table.lookup? mention.1 = some id ∧ (start.typeAt id).removed = false ∧
      ∀ o ∈ (set.commandAt placed.1).origins, o ∈ (set.typeAt id).origins

theorem NamedTypesHave.mono {placed : Nat × CommandDecl}
    (h : NamedTypesHave table start state.set placed) (hpulled : Pulled state next) :
    NamedTypesHave table start next.set placed := by
  intro hactive mention hmention
  rw [hpulled.commandAt_eq] at hactive ⊢
  obtain ⟨id, hid, hremoved, hpassed⟩ := h hactive mention hmention
  exact ⟨id, hid, hremoved, fun o ho => hpulled.grown (.type id) o (hpassed o ho)⟩

theorem mentionStep_of_mentions {place : Nat} {decl : CommandDecl}
    (hdecl : index.decl? place = some decl) {mention : String × String}
    (hmention : mention ∈ decl.mentions) {id : TypeId} (hid : table.lookup? mention.1 = some id) :
    MentionStep table index (.command place) (.type id) :=
  ⟨.typeNamed mention.1, (mentions_typeNamed_iff hdecl).mpr ⟨mention.2, hmention⟩,
    by simp [Mention.entity?, hid]⟩

/-- Passing the origins of a command on to the types it names. -/
theorem pullMentions_spec (hstate : Between table index start state.set)
    {placed : Nat × CommandDecl} (hplaced : placed ∈ index.placed)
    (h : pullMentions table state placed = .ok next) :
    (Between table index start next.set ∧ Pulled state next) ∧
      NamedTypesHave table start next.set placed := by
  obtain ⟨place, decl⟩ := placed
  have hdecl := EntityIndex.mem_placed.mp hplaced
  unfold pullMentions at h
  dsimp only at h
  split at h
  · obtain ⟨hbetween, hall, -⟩ := Outcome.foldlM_achieves
      (fun via => Between table index start via.set ∧ Pulled state via)
      (fun mention via => ∃ id, table.lookup? mention.1 = some id ∧
        (start.typeAt id).removed = false ∧
        ∀ o ∈ (state.set.commandAt place).origins, o ∈ (via.set.typeAt id).origins)
      (fun mention hmention via after hvia hafter => by
        obtain ⟨id, hid, hpull⟩ := TypeTable.pullNamed_eq_ok.mp hafter
        obtain ⟨⟨hnext, hpulled⟩, hremoved, hgot⟩ := TypeTable.pullType_spec hvia.1
          (TypeTable.lt_size_of_lookup? hid)
          (hstate.inherited_step (mentionStep_of_mentions hdecl hmention hid)) hpull
        refine ⟨⟨hnext, hvia.2.trans hpulled⟩, ⟨id, hid, hremoved, hgot⟩, fun other hother => ?_⟩
        obtain ⟨t, ht, hkept, hpassed⟩ := hother
        exact ⟨t, ht, hkept, fun o ho => hpulled.grown (.type t) o (hpassed o ho)⟩)
      ⟨hstate, Pulled.refl state⟩ h
    refine ⟨hbetween, ?_⟩
    intro _ mention hmention
    rw [hbetween.2.commandAt_eq]
    exact hall mention hmention
  · next hactive =>
      rw [← Except.ok.inj h]
      exact ⟨⟨hstate, Pulled.refl state⟩, fun hstate' => absurd hstate' hactive⟩

theorem exists_pullMentions (hclosable : Closable table index start)
    (hstate : Between table index start state.set) {placed : Nat × CommandDecl}
    (hplaced : placed ∈ index.placed) : ∃ next, pullMentions table state placed = .ok next := by
  obtain ⟨place, decl⟩ := placed
  have hdecl := EntityIndex.mem_placed.mp hplaced
  unfold pullMentions
  dsimp only
  split
  · next hactive =>
      refine Outcome.exists_foldlM_eq_ok (fun via => Between table index start via.set)
        ?_ hstate
      intro mention hmention via hvia
      obtain ⟨a, ha, hreaches⟩ := hstate.exists_active (e := .command place) hactive
      obtain ⟨b, hb, hremoved⟩ := hclosable.declared a _ (.typeNamed mention.1) ha hreaches
        ((mentions_typeNamed_iff hdecl).mpr ⟨mention.2, hmention⟩)
      obtain ⟨id, hid, rfl⟩ := Mention.entity?_typeNamed hb
      have hkept : (via.set.typeAt id).removed = false :=
        (hvia.removed (.type id)).trans hremoved
      have hpull : table.pullType (state.set.commandAt place).origins via (id, mention.2) = .ok _ :=
        TypeTable.pullType_eq_ok.mpr ⟨hkept, rfl⟩
      refine ⟨_, TypeTable.pullNamed_eq_ok.mpr ⟨id, hid, hpull⟩, ?_⟩
      exact (TypeTable.pullType_spec hvia (TypeTable.lt_size_of_lookup? hid)
        (hstate.inherited_step (mentionStep_of_mentions hdecl hmention hid)) hpull).1.1
  · exact ⟨state, rfl⟩

/-! ### From commands to types -/

/-- Once the chains of aliases are followed and the types that commands name have been passed
their origins, commands have nothing left to pass on. -/
theorem hasPassed_command (hformed : Formed table index start) {set : ActiveSet}
    (hset : Between table index start set) (hmentioned : Between table index start state.set)
    (hpulled : Pulled ⟨set, []⟩ state)
    (hfollowed : ∀ placed ∈ index.placed, index.Followed start set placed)
    (hnamed : ∀ placed ∈ index.placed, NamedTypesHave table start state.set placed) (place : Nat) :
    HasPassed table index state.set (.command place) := by
  intro hactive m hm
  cases m with
  | command target =>
      cases hm with
      | @aliased _ decl _ hdecl halias =>
          have hsame := hpulled.commandAt_eq place
          rw [ActiveSet.record, hsame] at hactive ⊢
          obtain ⟨a, ha, hreaches⟩ := hset.exists_active (e := .command place) hactive
          obtain ⟨dest, hdest, hremoved, -⟩ :=
            EntityIndex.passed_of_followed hformed hfollowed ha hreaches hdecl halias
          refine ⟨.command dest, by simp [Mention.entity?, hdest],
            (hmentioned.removed (.command dest)).trans hremoved, ?_⟩
          intro o ho
          obtain ⟨b, hb, hbo⟩ := hset.inherited (.command place) o ho
          obtain ⟨found, hfound, -, hpassed⟩ := EntityIndex.passed_of_followed hformed hfollowed
            (Activation.isActive_iff.mpr ⟨o, hbo⟩) hb hdecl halias
          rw [hdest, Option.some.injEq] at hfound
          rw [hfound]
          exact hpulled.grown (.command found) o (hpassed o hbo)
  | typeNamed name =>
      have hdecl : ∃ decl, index.decl? place = some decl := by
        cases hm with
        | result hdecl => exact ⟨_, hdecl⟩
        | parameter hdecl => exact ⟨_, hdecl⟩
      obtain ⟨decl, hdecl⟩ := hdecl
      obtain ⟨referrer, hmention⟩ := (mentions_typeNamed_iff hdecl).mp hm
      obtain ⟨id, hid, hremoved, hpassed⟩ :=
        hnamed (place, decl) (EntityIndex.mem_placed.mpr hdecl) hactive (name, referrer) hmention
      exact ⟨.type id, by simp [Mention.entity?, hid],
        (hmentioned.removed (.type id)).trans hremoved, hpassed⟩
  | type id => exact absurd hm (not_mentions_type place id)

/-- With all active types on the stack, types can settle. -/
theorem settling_of_activeTypes (hmentioned : Between table index start state.set)
    (hactive : ∀ id ∈ state.pending, (state.set.typeAt id).isActive = true)
    (hcommands : ∀ place, HasPassed table index state.set (.command place)) :
    Settling table index start
      ⟨state.set, state.set.activeTypes table ++ state.pending⟩ := by
  refine ⟨hmentioned, ?_, ?_⟩
  · intro id hid
    rcases List.mem_append.mp hid with hid | hid
    · exact (List.mem_filter.mp hid).2
    · exact hactive id hid
  · intro e hdone
    cases e with
    | command place => exact hcommands place
    | type id =>
        intro hid
        have hlt : id.index < state.set.types.length := ActiveSet.holds_of_isActive hid
        rw [hmentioned.sized.1] at hlt
        refine absurd (List.mem_append_left _ ?_) (hdone id rfl)
        exact List.mem_filter.mpr ⟨TypeTable.mem_ids.mpr hlt, hid⟩

/-! ### All phases -/

/-- Behind the phases of the commands, types can settle. -/
theorem settling_of_commands (hformed : Formed table index start) {set : ActiveSet}
    (hset : index.closeCommands start = .ok set)
    (hstate : index.placed.foldlM (pullMentions table) ⟨set, []⟩ = .ok state) :
    Settling table index start ⟨state.set, state.set.activeTypes table ++ state.pending⟩ := by
  obtain ⟨hbetween, hfollowed⟩ := EntityIndex.closeCommands_spec hformed hset
  obtain ⟨⟨hnext, hpulled⟩, hnamed, -⟩ := Outcome.foldlM_achieves
    (fun via => Between table index start via.set ∧ Pulled ⟨set, []⟩ via)
    (fun placed via => NamedTypesHave table start via.set placed)
    (fun placed hplaced via after hvia hafter => by
      obtain ⟨⟨hbetween, hpulled⟩, hhave⟩ := pullMentions_spec hvia.1 hplaced hafter
      exact ⟨⟨hbetween, hvia.2.trans hpulled⟩, hhave, fun _ hother => hother.mono hpulled⟩)
    ⟨hbetween, Pulled.refl _⟩ hstate
  refine settling_of_activeTypes hnext ?_
    (hasPassed_command hformed hbetween hnext hpulled hfollowed hnamed)
  intro id hid
  rcases hpulled.fresh id hid with hold | hactive
  · simp at hold
  · exact hactive

/-- What closing makes of the entities in use. -/
theorem closeMentions_spec (hlinked : table.Linked decls) (hformed : Formed table index start)
    {closed : ActiveSet} (h : closeMentions start table index = .ok closed) :
    Between table index start closed ∧ Closed table index closed := by
  obtain ⟨set, hset, h⟩ := Outcome.bind_eq_ok.mp h
  obtain ⟨mentioned, hmentioned, h⟩ := Outcome.bind_eq_ok.mp h
  exact TypeTable.closed_of_settle hlinked (settling_of_commands hformed hset hmentioned) h

/-- What has been closed could be. -/
theorem closable_of_closeMentions (hlinked : table.Linked decls)
    (hformed : Formed table index start) {closed : ActiveSet}
    (h : closeMentions start table index = .ok closed) :
    Closable table index start := by
  obtain ⟨hbetween, hclosed⟩ := closeMentions_spec hlinked hformed h
  obtain ⟨set, hset, -⟩ := Outcome.bind_eq_ok.mp h
  obtain ⟨-, hfollowed⟩ := EntityIndex.closeCommands_spec hformed hset
  refine ⟨?_, ?_⟩
  · intro a e m ha hreaches hm
    have hactive := (hbetween.isActive_iff hclosed e).mpr ⟨a, ha, hreaches⟩
    obtain ⟨b, hb, hremoved, -⟩ := hclosed e hactive m hm
    exact ⟨b, hb, (hbetween.removed b).symm.trans hremoved⟩
  · intro a place ha hreaches
    exact EntityIndex.acyclic_of_followed hformed hfollowed ha hreaches

/-- Closing does not fail if what is reached can be closed. -/
theorem exists_closeMentions (hlinked : table.Linked decls) (hformed : Formed table index start)
    (hclosable : Closable table index start) :
    ∃ closed, closeMentions start table index = .ok closed := by
  obtain ⟨set, hset⟩ := EntityIndex.exists_closeCommands hformed hclosable
  obtain ⟨hbetween, -⟩ := EntityIndex.closeCommands_spec hformed hset
  have hmention : ∃ mentioned,
      index.placed.foldlM (pullMentions table) ⟨set, []⟩ = .ok mentioned := by
    refine Outcome.exists_foldlM_eq_ok (fun via => Between table index start via.set)
      ?_ hbetween
    intro placed hplaced via hvia
    obtain ⟨next, hnext⟩ := exists_pullMentions hclosable hvia hplaced
    exact ⟨next, hnext, (pullMentions_spec hvia hplaced hnext).1.1⟩
  obtain ⟨mentioned, hmentioned⟩ := hmention
  obtain ⟨closed, hclosed⟩ := TypeTable.exists_settle hlinked hclosable
    (settling_of_commands hformed hset hmentioned) mentioned.set.within_typeOrigins
  refine ⟨closed, Outcome.bind_eq_ok.mpr ⟨set, hset, ?_⟩⟩
  exact Outcome.bind_eq_ok.mpr ⟨mentioned, hmentioned, hclosed⟩

/--
**The closure is the least fixpoint.**  For every linked table and whatever directives leave
in use, closing succeeds if and only if nothing that is reached mentions what is undeclared
or removed and no alias of a command comes back to itself.  If it succeeds, the origins of
every entity are those of the entities that reach it along mentions, in ascending order, and
it is active exactly if an active one reaches it.
-/
theorem closeMentions_least_fixpoint {blocks : List EnumBlock} {sources : List DirectiveSource}
    {constants : ConstantTable} {applied : Progress}
    (hlinked : (TypeTable.initial.registerAll decls).linked blocks = .ok table)
    (happlied : applyDirectives sources table index constants = .ok applied) :
    ((∃ closed, closeMentions applied.set table index = .ok closed) ↔
      Closable table index applied.set) ∧
    ∀ closed, closeMentions applied.set table index = .ok closed → ∀ e,
      Origin.Ascending (closed.record e).origins ∧
      (∀ o, o ∈ (closed.record e).origins ↔
        ∃ a, Reaches table index a e ∧ o ∈ (applied.set.record a).origins) ∧
      ((closed.record e).isActive = true ↔
        ∃ a, (applied.set.record a).isActive = true ∧ Reaches table index a e) := by
  have hspec := TypeTable.linked_spec hlinked
  have hformed := formed_of_applyDirectives happlied
  refine ⟨⟨?_, exists_closeMentions hspec hformed⟩, fun closed hclosed e => ?_⟩
  · rintro ⟨closed, hclosed⟩
    exact closable_of_closeMentions hspec hformed hclosed
  · obtain ⟨hbetween, hpassed⟩ := closeMentions_spec hspec hformed hclosed
    exact ⟨hbetween.ascending e, hbetween.mem_origins_iff hpassed e,
      hbetween.isActive_iff hpassed e⟩

/-- Two types, one of which mentions itself and the other. -/
def trimDecls : List TypeDecl :=
  [{ name := "VkNode", category := some "struct",
     members := [⟨"next", "VkNode", "*", none, none, none, [], none⟩,
       ⟨"flags", "VkFlags", "", none, none, none, [], none⟩] },
    { name := "VkFlags", category := some "basetype" }]

/-- A command and another name for it. -/
def trimIndex : EntityIndex where
  commands := [{ name := "vkTrim", returnType := "VkNode" },
    { name := "vkTrimKHR", aliasOf := some "vkTrim" }]
  valueNames := []

/-- An extension that requires the other name, and a version that requires a type. -/
def trimSources : List DirectiveSource :=
  [⟨"VK_KHR_trim", .extension 0, some 1,
      [{ kind := .require, directives := [.command "vkTrimKHR"] }]⟩,
    ⟨"VK_VERSION_1_0", .feature 0, none, [{ kind := .require, directives := [.type "VkFlags"] }]⟩]

/-- The linked table, what the directives leave, and the closure of that. -/
def trimClosure : Outcome (TypeTable × Progress × ActiveSet) := do
  let table ← (TypeTable.initial.registerAll trimDecls).linked []
  let applied ← applyDirectives trimSources table trimIndex .empty
  let closed ← closeMentions applied.set table trimIndex
  return (table, applied, closed)

/-- The closure of `trimSources` succeeds, so its start can be closed; and as the closure
gives `VkFlags` the origin of the extension, something with that origin reaches it. -/
theorem least_fixpoint_trimClosure :
    ∃ table applied closed,
      (TypeTable.initial.registerAll trimDecls).linked [] = .ok table ∧
      applyDirectives trimSources table trimIndex .empty = .ok applied ∧
      closeMentions applied.set table trimIndex = .ok closed ∧
      Closable table trimIndex applied.set ∧
      ∃ a, Reaches table trimIndex a (.type ⟨2⟩) ∧
        .extension 0 ∈ (applied.set.record a).origins := by
  have hany : trimClosure.toOption.any (fun (_, _, closed) =>
      (closed.typeAt ⟨2⟩).origins == [.feature 0, .extension 0]) = true := by decide +kernel
  obtain ⟨⟨table, applied, closed⟩, h, horigins⟩ := Outcome.exists_ok_of_any hany
  have hmem : .extension 0 ∈ (closed.typeAt ⟨2⟩).origins := by
    rw [show (closed.typeAt ⟨2⟩).origins = _ from eq_of_beq horigins]
    decide
  obtain ⟨linked, hlinked, h⟩ := Outcome.bind_eq_ok.mp h
  obtain ⟨progress, happlied, h⟩ := Outcome.bind_eq_ok.mp h
  obtain ⟨set, hclosed, h⟩ := Outcome.bind_eq_ok.mp h
  rw [Outcome.pure_eq_ok, Prod.mk.injEq, Prod.mk.injEq] at h
  obtain ⟨rfl, rfl, rfl⟩ := h
  obtain ⟨hiff, hall⟩ := closeMentions_least_fixpoint hlinked happlied
  refine ⟨linked, progress, set, hlinked, happlied, hclosed, hiff.mp ⟨set, hclosed⟩, ?_⟩
  obtain ⟨-, hreached, -⟩ := hall set hclosed (.type ⟨2⟩)
  exact (hreached (.extension 0)).mp hmem

end VulkanRegistry
