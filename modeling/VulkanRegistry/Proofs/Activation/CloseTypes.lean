/-
Closing types.

Origins are passed on from a stack of types.  What is not on the stack has passed on
everything it has (`Settling`): taking a type off the stack passes on what that type has, and
a type that gains an origin by this is put on the stack.  When the stack is empty, nothing is
left to pass on.
-/
import VulkanRegistry.Proofs.Activation.CloseCommands

namespace VulkanRegistry

variable {decls : List TypeDecl} {table : TypeTable} {index : EntityIndex} {start : ActiveSet}
  {state next : Passing}

/-- The entity is no type that waits on the stack. -/
def Passing.Done (state : Passing) (e : Entity) : Prop :=
  ∀ id, e = .type id → id ∉ state.pending

/-- Origins were passed on: whoever gained some is on the stack. -/
structure Pulled (state next : Passing) : Prop where
  pending : ∀ id ∈ state.pending, id ∈ next.pending
  fresh : ∀ id ∈ next.pending, id ∈ state.pending ∨ (next.set.typeAt id).isActive = true
  kept : ∀ e, next.Done e → next.set.record e = state.set.record e
  grown : ∀ e, ∀ o ∈ (state.set.record e).origins, o ∈ (next.set.record e).origins

/-- Whatever does not wait on the stack has passed its origins on. -/
structure Settling (table : TypeTable) (index : EntityIndex) (start : ActiveSet)
    (state : Passing) : Prop where
  between : Between table index start state.set
  active : ∀ id ∈ state.pending, (state.set.typeAt id).isActive = true
  passed : ∀ e, state.Done e → HasPassed table index state.set e

theorem Pulled.refl (state : Passing) : Pulled state state where
  pending := fun _ h => h
  fresh := fun _ h => Or.inl h
  kept := fun _ _ => rfl
  grown := fun _ _ h => h

theorem isActive_of_grown {set other : ActiveSet} {e : Entity}
    (h : ∀ o ∈ (set.record e).origins, o ∈ (other.record e).origins)
    (hactive : (set.record e).isActive = true) : (other.record e).isActive = true := by
  obtain ⟨o, ho⟩ := Activation.isActive_iff.mp hactive
  exact Activation.isActive_iff.mpr ⟨o, h o ho⟩

theorem Pulled.trans {middle : Passing} (h : Pulled state middle) (h' : Pulled middle next) :
    Pulled state next where
  pending := fun id hid => h'.pending id (h.pending id hid)
  fresh := by
    intro id hid
    rcases h'.fresh id hid with hmiddle | hactive
    · rcases h.fresh id hmiddle with hold | hactive
      · exact Or.inl hold
      · exact Or.inr (isActive_of_grown (e := .type id) (h'.grown _) hactive)
    · exact Or.inr hactive
  kept := by
    intro e hdone
    rw [h'.kept e hdone]
    exact h.kept e fun id he hid => hdone id he (h'.pending id hid)
  grown := fun e o ho => h'.grown e o (h.grown e o ho)

/-- Commands never wait. -/
theorem Pulled.commandAt_eq (h : Pulled state next) (place : Nat) :
    next.set.commandAt place = state.set.commandAt place :=
  h.kept (.command place) (by simp [Passing.Done])

namespace TypeTable

/-! ### Passing on to one type -/

theorem pullType_eq_ok {origins : List Origin} {mention : TypeId × String} :
    table.pullType origins state mention = .ok next ↔
      (state.set.typeAt mention.1).removed = false ∧
        next = if state.set.gains mention.1 origins then
          ⟨state.set.requireType mention.1 origins, mention.1 :: state.pending⟩ else state := by
  unfold pullType
  obtain ⟨id, referrer⟩ := mention
  dsimp only
  cases hremoved : (state.set.typeAt id).removed with
  | true => simp
  | false =>
      simp only [Bool.false_eq_true, if_false, true_and]
      split
      · exact ⟨fun h => (Except.ok.inj h).symm, fun h => congrArg Except.ok h.symm⟩
      · exact ⟨fun h => (Except.ok.inj h).symm, fun h => congrArg Except.ok h.symm⟩

theorem pullNamed_eq_ok {origins : List Origin} {mention : String × String} :
    table.pullNamed origins state mention = .ok next ↔
      ∃ id, table.lookup? mention.1 = some id ∧
        table.pullType origins state (id, mention.2) = .ok next := by
  unfold pullNamed
  obtain ⟨name, referrer⟩ := mention
  dsimp only
  rw [Outcome.bind_eq_ok]
  simp only [require_eq_ok]

/-- A type that gains nothing has the origins already. -/
theorem mem_origins_of_not_gains {set : ActiveSet} {id : TypeId} {origins : List Origin}
    (hlt : id.index < set.types.length) (h : set.gains id origins = false) :
    ∀ o ∈ origins, o ∈ (set.typeAt id).origins := by
  intro o ho
  have hget : set.types[id.index]? = some set.types[id.index] := List.getElem?_eq_getElem hlt
  unfold ActiveSet.gains at h
  rw [hget] at h
  unfold ActiveSet.typeAt
  rw [hget]
  simpa using List.any_eq_false.mp h o ho

theorem isActive_of_gains {set : ActiveSet} {id : TypeId} {origins : List Origin}
    (h : set.gains id origins = true) : ∃ o, o ∈ origins := by
  unfold ActiveSet.gains at h
  split at h
  · simp at h
  · obtain ⟨o, ho, -⟩ := List.any_eq_true.mp h
    exact ⟨o, ho⟩

/-- Passing origins on to a type that inherits them. -/
theorem pullType_spec {origins : List Origin} {mention : TypeId × String}
    (hstate : Between table index start state.set) (hlt : mention.1.index < table.size)
    (horigins : ∀ o ∈ origins,
      ∃ a, Reaches table index a (.type mention.1) ∧ o ∈ (start.record a).origins)
    (h : table.pullType origins state mention = .ok next) :
    (Between table index start next.set ∧ Pulled state next) ∧
      (start.typeAt mention.1).removed = false ∧
      ∀ o ∈ origins, o ∈ (next.set.typeAt mention.1).origins := by
  obtain ⟨hremoved, rfl⟩ := pullType_eq_ok.mp h
  have hholds : state.set.Holds (.type mention.1) := by
    rw [ActiveSet.Holds, hstate.sized.1]
    exact hlt
  have hkept : (start.record (.type mention.1)).removed = false :=
    (hstate.removed (.type mention.1)).symm.trans hremoved
  split
  · next hgains =>
      rw [ActiveSet.requireType_eq_update]
      have hgot : ∀ o ∈ origins, o ∈ ((state.set.update (.type mention.1)
          (·.require origins)).record (.type mention.1)).origins := by
        intro o ho
        exact (ActiveSet.mem_origins_update_require hholds).mpr (Or.inl ⟨rfl, ho⟩)
      refine ⟨⟨hstate.pull hholds hkept horigins, ?_, ?_, ?_, ?_⟩, hkept, hgot⟩
      · intro id hid
        exact List.mem_cons_of_mem _ hid
      · intro id hid
        rcases List.mem_cons.mp hid with rfl | hid
        · obtain ⟨o, ho⟩ := isActive_of_gains hgains
          exact Or.inr (Activation.isActive_iff.mpr ⟨o, hgot o ho⟩)
        · exact Or.inl hid
      · intro e hdone
        have hne : e ≠ .type mention.1 := fun he => hdone mention.1 he List.mem_cons_self
        rw [ActiveSet.record_update hholds, if_neg hne]
      · intro e o ho
        exact (ActiveSet.mem_origins_update_require hholds).mpr (Or.inr ho)
  · next hgains =>
      refine ⟨⟨hstate, Pulled.refl state⟩, hkept, ?_⟩
      exact mem_origins_of_not_gains hholds (by simpa using hgains)

/-! ### Passing on to many types -/

/-- Passing the origins of a type on to everything it mentions. -/
theorem pullTypes_spec {origins : List Origin} {mentions : List (TypeId × String)}
    (hstate : Between table index start state.set)
    (hvalid : ∀ mention ∈ mentions, mention.1.index < table.size)
    (horigins : ∀ mention ∈ mentions, ∀ o ∈ origins,
      ∃ a, Reaches table index a (.type mention.1) ∧ o ∈ (start.record a).origins)
    (h : mentions.foldlM (table.pullType origins) state = .ok next) :
    (Between table index start next.set ∧ Pulled state next) ∧
      ∀ mention ∈ mentions, (start.typeAt mention.1).removed = false ∧
        ∀ o ∈ origins, o ∈ (next.set.typeAt mention.1).origins := by
  obtain ⟨hbetween, hall, -⟩ := Outcome.foldlM_achieves
    (fun via => Between table index start via.set ∧ Pulled state via)
    (fun mention via => (start.typeAt mention.1).removed = false ∧
      ∀ o ∈ origins, o ∈ (via.set.typeAt mention.1).origins)
    (fun mention hmention via after hvia hafter => by
      obtain ⟨⟨hnext, hpulled⟩, hgot⟩ :=
        pullType_spec hvia.1 (hvalid mention hmention) (horigins mention hmention) hafter
      refine ⟨⟨hnext, hvia.2.trans hpulled⟩, hgot, fun other hother => ⟨hother.1, fun o ho => ?_⟩⟩
      exact hpulled.grown (.type other.1) o (hother.2 o ho))
    ⟨hstate, Pulled.refl state⟩ h
  exact ⟨hbetween, hall⟩

theorem index_lt_of_mentionStep {e : Entity} {id : TypeId}
    (h : MentionStep table index e (.type id)) : id.index < table.size := by
  obtain ⟨m, -, hmeans⟩ := h
  cases m with
  | command name => simp [Mention.entity?] at hmeans
  | typeNamed name =>
      obtain ⟨found, hfound, heq⟩ := Mention.entity?_typeNamed hmeans
      rw [Entity.type.injEq] at heq
      rw [heq]
      exact lt_size_of_lookup? hfound
  | type found =>
      obtain ⟨entry, hentry, heq⟩ := Option.map_eq_some_iff.mp hmeans
      rw [Entity.type.injEq] at heq
      rw [← heq]
      exact index_lt_size hentry

/-- Taking a type off the stack. -/
theorem settling_of_pullTypes (hlinked : table.Linked decls)
    (hstate : Settling table index start state) {id : TypeId} {pending : List TypeId}
    (hpending : state.pending = id :: pending) {mentions : List (TypeId × String)}
    (hmentions : table.mentions id = .ok mentions)
    (h : mentions.foldlM (table.pullType (state.set.typeAt id).origins) ⟨state.set, pending⟩ =
      .ok next) :
    Settling table index start next := by
  have hlists : Lists table index id mentions := lists_of_mentions hlinked hmentions
  have hbefore : Between table index start (Passing.mk state.set pending).set := hstate.between
  obtain ⟨⟨hbetween, hpulled⟩, hgot⟩ := pullTypes_spec hbefore
    (fun mention hmention => index_lt_of_mentionStep (hlists.sound mention hmention))
    (fun mention hmention => hstate.between.inherited_step (hlists.sound mention hmention)) h
  refine ⟨hbetween, ?_, ?_⟩
  · intro t ht
    rcases hpulled.fresh t ht with hold | hactive
    · refine isActive_of_grown (e := .type t) (hpulled.grown _) (hstate.active t ?_)
      rw [hpending]
      exact List.mem_cons_of_mem _ hold
    · exact hactive
  · intro e hdone
    have hsame := hpulled.kept e hdone
    by_cases he : e = .type id
    · intro hactive m hm
      rw [he] at hm hsame ⊢
      rw [hsame]
      obtain ⟨mention, hmention, hmeans⟩ := hlists.complete m hm
      obtain ⟨hremoved, hpassed⟩ := hgot mention hmention
      exact ⟨.type mention.1, hmeans, (hbetween.removed (.type mention.1)).trans hremoved, hpassed⟩
    · refine (hstate.passed e fun t het => ?_).mono hstate.between hbetween hsame hpulled.grown
      rw [hpending, List.mem_cons, not_or]
      refine ⟨fun heq => he (het.trans (congrArg Entity.type heq)), fun hmem => ?_⟩
      exact hdone t het (hpulled.pending t hmem)

/-- When the stack is empty, everything has been passed on. -/
theorem closed_of_settle (hlinked : table.Linked decls) {world : List Origin}
    {hwithin : state.set.Within world} {closed : ActiveSet}
    (hstate : Settling table index start state)
    (h : table.settle world state hwithin = .ok closed) :
    Between table index start closed ∧ Closed table index closed := by
  fun_induction settle table world state hwithin with
  | case1 state hwithin hpending =>
      rw [← Except.ok.inj h]
      exact ⟨hstate.between, fun e => hstate.passed e fun id _ => by simp [hpending]⟩
  | case2 => simp at h
  | case3 => simp at h
  | case4 state hwithin id pending hpending mentions hmentions next hnext hwork ih =>
      exact ih (settling_of_pullTypes hlinked hstate hpending hmentions hnext) h

/-! ### Why settling does not fail -/

theorem exists_mentions_of_closable (hclosable : Closable table index start) {set : ActiveSet}
    (hset : Between table index start set) {id : TypeId}
    (hactive : (set.typeAt id).isActive = true) :
    ∃ mentions, table.mentions id = .ok mentions := by
  obtain ⟨a, ha, hreaches⟩ := hset.exists_active (e := .type id) hactive
  refine exists_mentions index ?_
  intro m hm
  obtain ⟨b, hb, -⟩ := hclosable.declared a (.type id) m ha hreaches hm
  exact ⟨b, hb⟩

theorem not_removed_of_closable (hclosable : Closable table index start) {set : ActiveSet}
    (hset : Between table index start set) {e b : Entity} (hactive : (set.record e).isActive = true)
    (hstep : MentionStep table index e b) : (start.record b).removed = false := by
  obtain ⟨a, ha, hreaches⟩ := hset.exists_active hactive
  obtain ⟨m, hm, hmeans⟩ := hstep
  obtain ⟨found, hfound, hremoved⟩ := hclosable.declared a e m ha hreaches hm
  rw [hmeans, Option.some.injEq] at hfound
  rw [hfound, hremoved]

theorem exists_pullTypes (hclosable : Closable table index start)
    (hstate : Between table index start state.set) {e : Entity}
    (hactive : (state.set.record e).isActive = true) (pending : List TypeId)
    {mentions : List (TypeId × String)}
    (hmentions : ∀ mention ∈ mentions, MentionStep table index e (.type mention.1)) :
    ∃ next, mentions.foldlM (table.pullType (state.set.record e).origins) ⟨state.set, pending⟩ =
      .ok next := by
  refine Outcome.exists_foldlM_eq_ok (fun via => Between table index start via.set)
    ?_ hstate
  intro mention hmention via hvia
  have hstep := hmentions mention hmention
  have hkept : (via.set.typeAt mention.1).removed = false :=
    (hvia.removed (.type mention.1)).trans (not_removed_of_closable hclosable hstate hactive hstep)
  have hok : table.pullType (state.set.record e).origins via mention = .ok _ :=
    pullType_eq_ok.mpr ⟨hkept, rfl⟩
  exact ⟨_, hok, (pullType_spec hvia (index_lt_of_mentionStep hstep)
    (hstate.inherited_step hstep) hok).1.1⟩

/-- Settling does not fail if what is reached can be closed. -/
theorem exists_settle (hlinked : table.Linked decls) (hclosable : Closable table index start)
    (hstate : Settling table index start state) {world : List Origin}
    (hwithin : state.set.Within world) :
    ∃ closed, table.settle world state hwithin = .ok closed := by
  fun_induction settle table world state hwithin with
  | case1 state hwithin hpending => exact ⟨state.set, rfl⟩
  | case2 state hwithin id pending hpending fault hmentions =>
      have hactive := hstate.active id (by rw [hpending]; exact List.mem_cons_self)
      obtain ⟨mentions, hok⟩ := exists_mentions_of_closable hclosable hstate.between hactive
      rw [hmentions] at hok
      simp at hok
  | case3 state hwithin id pending hpending mentions hmentions fault hfault =>
      have hactive := hstate.active id (by rw [hpending]; exact List.mem_cons_self)
      have hlists : Lists table index id mentions := lists_of_mentions hlinked hmentions
      obtain ⟨next, hok⟩ := exists_pullTypes hclosable hstate.between (e := .type id) hactive
        pending hlists.sound
      rw [show (state.set.record (.type id)).origins = (state.set.typeAt id).origins from rfl,
        hfault] at hok
      simp at hok
  | case4 state hwithin id pending hpending mentions hmentions next hnext hwork ih =>
      exact ih (settling_of_pullTypes hlinked hstate hpending hmentions hnext)

end TypeTable

end VulkanRegistry
