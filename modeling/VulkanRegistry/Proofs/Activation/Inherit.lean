/-
What a closure may and must make of the entities in use.

Closing a set only lets entities inherit origins along mentions.  `Between` says that a set
is on the way: nothing is lost, no mark of removal changes, and whatever origin an entity
has comes from an entity of the start that reaches it.  `Closed` says that it has arrived:
every active entity has passed its origins on to whatever it mentions.  A set that is both
has exactly the origins that mentions bring (`mem_origins_iff`), whatever order they were
passed on in.
-/
import VulkanRegistry.Proofs.Activation.History
import VulkanRegistry.Proofs.Activation.Mention

namespace VulkanRegistry

variable {table : TypeTable} {index : EntityIndex} {start set : ActiveSet}

/-- What directives leave: a record for each entity, and only commands that a name leads to
in use. -/
structure Formed (table : TypeTable) (index : EntityIndex) (start : ActiveSet) : Prop where
  sized : start.Sized table.size index.commands.length
  named : ∀ place, (start.commandAt place).isActive = true →
    ∃ name, index.command? name = some place
  ascending : ∀ e, Origin.Ascending (start.record e).origins

/-- A set on the way from `start` to its closure. -/
structure Between (table : TypeTable) (index : EntityIndex) (start set : ActiveSet) : Prop where
  sized : set.Sized table.size index.commands.length
  removed : ∀ e, (set.record e).removed = (start.record e).removed
  grown : ∀ e, ∀ o ∈ (start.record e).origins, o ∈ (set.record e).origins
  inherited : ∀ e, ∀ o ∈ (set.record e).origins,
    ∃ a, Reaches table index a e ∧ o ∈ (start.record a).origins
  ascending : ∀ e, Origin.Ascending (set.record e).origins
  values : set.values = start.values
  removedValues : set.removedValues = start.removedValues

/-- If the entity is active, it has passed its origins on to whatever it mentions. -/
def HasPassed (table : TypeTable) (index : EntityIndex) (set : ActiveSet) (e : Entity) : Prop :=
  (set.record e).isActive = true → ∀ m, Mentions table index e m →
    ∃ b, m.entity? table index = some b ∧ (set.record b).removed = false ∧
      ∀ o ∈ (set.record e).origins, o ∈ (set.record b).origins

/-- Every active entity has passed its origins on. -/
def Closed (table : TypeTable) (index : EntityIndex) (set : ActiveSet) : Prop :=
  ∀ e, HasPassed table index set e

/-- The entities in use can be closed: whatever they reach mentions what is declared and has
not been removed, and no alias of a command comes back to itself. -/
structure Closable (table : TypeTable) (index : EntityIndex) (start : ActiveSet) : Prop where
  declared : ∀ a e m, (start.record a).isActive = true → Reaches table index a e →
    Mentions table index e m →
      ∃ b, m.entity? table index = some b ∧ (start.record b).removed = false
  acyclic : ∀ a place, (start.record a).isActive = true → Reaches table index a (.command place) →
    ¬ Relation.TransGen (MentionStep table index) (.command place) (.command place)

/-! ### What directives leave -/

theorem target?_eq_command {types : TypeTable} {directive : Directive} {place : Nat}
    (h : directive.target? types index = some (.command place)) :
    ∃ name, index.command? name = some place := by
  cases directive with
  | type name => simp [Directive.target?] at h
  | command name => exact ⟨name, by simpa [Directive.target?] using h⟩
  | value d => simp [Directive.target?] at h

/-- A run of directives leaves a set that a closure can start from. -/
theorem formed_of_applyDirectives {sources : List DirectiveSource} {constants : ConstantTable}
    {applied : Progress} (h : applyDirectives sources table index constants = .ok applied) :
    Formed table index applied.set := by
  refine ⟨?_, ?_, ?_⟩
  · rw [applyDirectives_eq_foldlM] at h
    refine Outcome.foldlM_induction (fun state => state.set.Sized table.size index.commands.length)
      ?_ (ActiveSet.sized_idle _ _) h
    intro a _ state next hsized hstep
    exact (Application.step_of_apply hstep).sized hsized
  · intro place hactive
    have hrecord := applyDirectives_record h (.command place)
    -- A command that no directive names has the record it started with.
    by_cases hhistory : history table index (.command place) (applications sources) = []
    · rw [hhistory] at hrecord
      rw [show applied.set.commandAt place = _ from hrecord] at hactive
      simp [Activation.idle, Activation.isActive] at hactive
    · obtain ⟨event, hevent⟩ := List.exists_mem_of_ne_nil _ hhistory
      obtain ⟨a, ha, -⟩ := List.mem_map.mp hevent
      obtain ⟨-, htarget⟩ := List.mem_filter.mp ha
      exact target?_eq_command (by simpa using htarget)
  · intro e
    rw [applyDirectives_record h e]
    exact Activation.ascending_foldl_after _ Origin.ascending_nil

/-! ### On the way -/

theorem Between.refl (h : Formed table index start) : Between table index start start where
  sized := h.sized
  removed := fun _ => rfl
  grown := fun _ _ ho => ho
  inherited := fun e _ ho => ⟨e, Relation.ReflTransGen.refl, ho⟩
  ascending := h.ascending
  values := rfl
  removedValues := rfl

/-- Passing on what mentions bring is a step on the way. -/
theorem Between.pull (h : Between table index start set) {e : Entity} {origins : List Origin}
    (hholds : set.Holds e) (hremoved : (start.record e).removed = false)
    (horigins : ∀ o ∈ origins, ∃ a, Reaches table index a e ∧ o ∈ (start.record a).origins) :
    Between table index start (set.update e (·.require origins)) := by
  refine ⟨h.sized.update _ _, ?_, ?_, ?_, ?_, ?_, ?_⟩
  · intro x
    rw [ActiveSet.record_update hholds]
    by_cases hx : x = e
    · rw [if_pos hx, hx, Activation.removed_require, hremoved]
    · rw [if_neg hx, h.removed]
  · intro x o ho
    exact (ActiveSet.mem_origins_update_require hholds).mpr (Or.inr (h.grown x o ho))
  · intro x o ho
    rcases (ActiveSet.mem_origins_update_require hholds).mp ho with ⟨hx, ho⟩ | ho
    · rw [hx]
      exact horigins o ho
    · exact h.inherited x o ho
  · intro x
    rw [ActiveSet.record_update hholds]
    by_cases hx : x = e
    · rw [if_pos hx]
      exact Origin.ascending_insertAll (h.ascending e)
    · rw [if_neg hx]
      exact h.ascending x
  · rw [ActiveSet.values_update]
    exact h.values
  · rw [ActiveSet.removedValues_update]
    exact h.removedValues

/-- What is active on the way is reached from what was active. -/
theorem Between.exists_active (h : Between table index start set) {e : Entity}
    (hactive : (set.record e).isActive = true) :
    ∃ a, (start.record a).isActive = true ∧ Reaches table index a e := by
  obtain ⟨o, ho⟩ := Activation.isActive_iff.mp hactive
  obtain ⟨a, hreaches, ha⟩ := h.inherited e o ho
  exact ⟨a, Activation.isActive_iff.mpr ⟨o, ha⟩, hreaches⟩

/-- What an entity has on the way, whatever it mentions may inherit. -/
theorem Between.inherited_step (h : Between table index start set) {e b : Entity}
    (hstep : MentionStep table index e b) :
    ∀ o ∈ (set.record e).origins, ∃ a, Reaches table index a b ∧ o ∈ (start.record a).origins := by
  intro o ho
  obtain ⟨a, hreaches, ha⟩ := h.inherited e o ho
  exact ⟨a, hreaches.tail hstep, ha⟩

/-- Only commands that a name leads to are ever active. -/
theorem Between.named (h : Between table index start set) (hformed : Formed table index start)
    {place : Nat} (hactive : (set.commandAt place).isActive = true) :
    ∃ name, index.command? name = some place := by
  obtain ⟨a, ha, hreaches⟩ := h.exists_active (e := .command place) hactive
  rcases Relation.ReflTransGen.cases_tail hreaches with heq | ⟨b, -, hstep⟩
  · rw [← heq] at ha
    exact hformed.named place ha
  · obtain ⟨_, _, name, _, _, _, hname⟩ := hstep.command_right
    exact ⟨name, hname⟩

/-! ### Arrived -/

/-- What has passed its origins on has still done so when it has no more of them. -/
theorem HasPassed.mono {next : ActiveSet} {e : Entity} (h : HasPassed table index set e)
    (hset : Between table index start set) (hnext : Between table index start next)
    (hsame : next.record e = set.record e)
    (hgrown : ∀ x, ∀ o ∈ (set.record x).origins, o ∈ (next.record x).origins) :
    HasPassed table index next e := by
  intro hactive m hm
  rw [hsame] at hactive ⊢
  obtain ⟨b, hb, hremoved, hpassed⟩ := h hactive m hm
  refine ⟨b, hb, ?_, ?_⟩
  · rw [hnext.removed, ← hset.removed, hremoved]
  · intro o ho
    exact hgrown b o (hpassed o ho)

theorem Closed.mem_origins_of_reaches (h : Closed table index set) {a e : Entity}
    (hreaches : Reaches table index a e) {o : Origin} (ho : o ∈ (set.record a).origins) :
    o ∈ (set.record e).origins := by
  induction hreaches with
  | refl => exact ho
  | tail _ hstep ih =>
      obtain ⟨m, hm, hmeans⟩ := hstep
      obtain ⟨b, hb, -, hpassed⟩ := h _ (Activation.isActive_iff.mpr ⟨o, ih⟩) m hm
      rw [hmeans, Option.some.injEq] at hb
      rw [hb]
      exact hpassed o ih

/-- In a closure, an entity has the origins of the entities that reach it, and no others. -/
theorem Between.mem_origins_iff (h : Between table index start set)
    (hclosed : Closed table index set) (e : Entity) (o : Origin) :
    o ∈ (set.record e).origins ↔ ∃ a, Reaches table index a e ∧ o ∈ (start.record a).origins := by
  constructor
  · exact h.inherited e o
  · rintro ⟨a, hreaches, ha⟩
    exact hclosed.mem_origins_of_reaches hreaches (h.grown a o ha)

theorem Between.isActive_iff (h : Between table index start set) (hclosed : Closed table index set)
    (e : Entity) :
    (set.record e).isActive = true ↔
      ∃ a, (start.record a).isActive = true ∧ Reaches table index a e := by
  constructor
  · exact h.exists_active
  · rintro ⟨a, ha, hreaches⟩
    obtain ⟨o, ho⟩ := Activation.isActive_iff.mp ha
    exact Activation.isActive_iff.mpr ⟨o, (h.mem_origins_iff hclosed e o).mpr ⟨a, hreaches, ho⟩⟩

end VulkanRegistry
