/-
The last directive about an entity wins.

Directives about other entities leave a record alone, so the record that a run leaves is
what the entity's own directives make of it, in the order of their application
(`record_run`).  Those form its history.  A removal forgets everything in front of it, so
what counts is the end of the history: the requires behind the last removal, whose origins
the record holds in ascending order, each of them once.
-/
import Mathlib.Data.List.DropRight
import VulkanRegistry.Proofs.Activation.Application
import VulkanRegistry.Proofs.Origin

namespace VulkanRegistry

/-- The kind and the origin of every applied directive about an entity, in order. -/
def history (types : TypeTable) (index : EntityIndex) (e : Entity) (run : List Application) :
    List (BlockKind × Origin) :=
  (run.filter fun a => a.directive.target? types index = some e).map
    fun a => (a.kind, a.source.origin)

/-- The origins of the requires behind the last removal. -/
def requiredSinceRemoval (events : List (BlockKind × Origin)) : List Origin :=
  (events.rtakeWhile fun event => event.1 = .require).map (·.2)

namespace Activation

/-- What a directive about an entity makes of its record. -/
def after (a : Activation) : BlockKind × Origin → Activation
  | (.require, origin) => a.require [origin]
  | (.remove, _) => a.remove

/-- A record is what these directives, in this order, make of an entity that no directive
has named before. -/
structure Reflects (a : Activation) (events : List (BlockKind × Origin)) : Prop where
  untouched : events = [] → a.isActive = false ∧ a.removed = false
  removed : ∀ o, events.getLast? = some (.remove, o) → a.isActive = false ∧ a.removed = true
  required : ∀ o, events.getLast? = some (.require, o) →
    a.isActive = true ∧ a.removed = false ∧ Origin.Ascending a.origins ∧
      ∀ x, x ∈ a.origins ↔ x ∈ requiredSinceRemoval events

/-! ### What a history makes of a record -/

theorem ascending_after {a : Activation} (h : Origin.Ascending a.origins)
    (event : BlockKind × Origin) : Origin.Ascending (a.after event).origins := by
  obtain ⟨kind, origin⟩ := event
  cases kind with
  | require => exact Origin.ascending_insertAll h
  | remove => exact Origin.ascending_nil

theorem ascending_foldl_after (events : List (BlockKind × Origin)) {a : Activation}
    (h : Origin.Ascending a.origins) : Origin.Ascending (events.foldl after a).origins := by
  induction events generalizing a with
  | nil => exact h
  | cons event events ih => exact ih (ascending_after h event)

/-- A removal leaves no origin, and a require adds its own. -/
theorem mem_origins_foldl_after (events : List (BlockKind × Origin)) (x : Origin) :
    x ∈ (events.foldl after .idle).origins ↔ x ∈ requiredSinceRemoval events := by
  induction events using List.reverseRecOn with
  | nil => simp [requiredSinceRemoval, idle]
  | append_singleton events event ih =>
      obtain ⟨kind, origin⟩ := event
      rw [List.foldl_append]
      unfold requiredSinceRemoval at ih ⊢
      cases kind with
      | require =>
          rw [List.rtakeWhile_concat_pos _ _ _ (by simp)]
          show x ∈ ((events.foldl after .idle).require [origin]).origins ↔ _
          rw [mem_origins_require, ih]
          simp [or_comm]
      | remove =>
          rw [List.rtakeWhile_concat_neg _ _ _ (by simp)]
          show x ∈ (events.foldl after .idle).remove.origins ↔ _
          simp [remove]

theorem reflects_foldl_after (events : List (BlockKind × Origin)) :
    (events.foldl after .idle).Reflects events := by
  have hmem := mem_origins_foldl_after events
  have hascending : Origin.Ascending (events.foldl after .idle).origins :=
    ascending_foldl_after events Origin.ascending_nil
  refine ⟨?_, ?_, ?_⟩
  · intro hnil
    rw [hnil]
    exact ⟨rfl, rfl⟩
  · intro o hlast
    obtain ⟨earlier, rfl⟩ := List.getLast?_eq_some_iff.mp hlast
    rw [List.foldl_append]
    exact ⟨rfl, rfl⟩
  · intro o hlast
    refine ⟨?_, ?_, hascending, hmem⟩
    · obtain ⟨earlier, rfl⟩ := List.getLast?_eq_some_iff.mp hlast
      rw [isActive_iff]
      refine ⟨o, (hmem o).mpr ?_⟩
      unfold requiredSinceRemoval
      rw [List.rtakeWhile_concat_pos _ _ _ (by simp)]
      simp
    · obtain ⟨earlier, rfl⟩ := List.getLast?_eq_some_iff.mp hlast
      rw [List.foldl_append]
      rfl

end Activation

/-! ### Runs -/

variable {types : TypeTable} {index : EntityIndex}

theorem history_cons (e : Entity) (a : Application) (run : List Application) :
    history types index e (a :: run) = history types index e [a] ++ history types index e run := by
  unfold history
  rw [← List.map_append, ← List.filter_append]
  rfl

/-- A directive does to the record of an entity what its own history says. -/
theorem DirectiveStep.record_eq {a : Application} {set next : ActiveSet}
    (hstep : DirectiveStep types index a set next)
    (hsized : set.Sized types.size index.commands.length) (e : Entity) :
    next.record e = (history types index e [a]).foldl Activation.after (set.record e) := by
  have hother : ∀ d, a.directive = .value d → history types index e [a] = [] := by
    intro d hd
    simp [history, hd, Directive.target?]
  cases hstep with
  | @require target hkind htarget =>
      rw [ActiveSet.record_update (hsized.holds_target htarget)]
      by_cases he : e = target
      · subst he
        simp [history, htarget, hkind, Activation.after]
      · have hne : target ≠ e := fun h => he h.symm
        simp [history, htarget, he, hne]
  | @remove target hkind htarget =>
      rw [ActiveSet.record_update (hsized.holds_target htarget)]
      by_cases he : e = target
      · subst he
        simp [history, htarget, hkind, Activation.after]
      · have hne : target ≠ e := fun h => he h.symm
        simp [history, htarget, he, hne]
  | addValue _ hvalue => rw [hother _ hvalue]; exact ActiveSet.record_congr rfl rfl e
  | restoreValue _ hvalue => rw [hother _ hvalue]; exact ActiveSet.record_congr rfl rfl e
  | defineConstant _ hvalue => rw [hother _ hvalue]; rfl
  | removeValue _ hvalue => rw [hother _ hvalue]; exact ActiveSet.record_congr rfl rfl e

theorem record_run {run : List Application} {state next : Progress}
    (hsized : state.set.Sized types.size index.commands.length)
    (h : run.foldlM (Application.apply types index) state = .ok next) (e : Entity) :
    next.set.record e =
      (history types index e run).foldl Activation.after (state.set.record e) := by
  induction run generalizing state with
  | nil =>
      rw [Outcome.foldlM_nil_eq_ok] at h
      rw [← h]
      rfl
  | cons a run ih =>
      obtain ⟨middle, hmiddle, h⟩ := Outcome.foldlM_cons_eq_ok.mp h
      have hstep := Application.step_of_apply hmiddle
      rw [history_cons e a run, List.foldl_append, ih (hstep.sized hsized) h,
        hstep.record_eq hsized e]

/-- The record of every entity after all directives. -/
theorem applyDirectives_record {sources : List DirectiveSource} {constants : ConstantTable}
    {applied : Progress} (h : applyDirectives sources types index constants = .ok applied)
    (e : Entity) :
    applied.set.record e =
      (history types index e (applications sources)).foldl Activation.after .idle := by
  rw [applyDirectives_eq_foldlM] at h
  rw [record_run (ActiveSet.sized_idle _ _) h, ActiveSet.record_idle]

/--
**The last directive wins.**  After a run over any sources, in any order, the record of
every type and of every command reflects the directives that name it: without one it is
idle, after a removal it is marked as removed, and after a require it has the origins of
the requires behind the last removal, in ascending order and each of them once.
-/
theorem applyDirectives_reflects {sources : List DirectiveSource} {constants : ConstantTable}
    {applied : Progress} (h : applyDirectives sources types index constants = .ok applied) :
    (∀ id, (applied.set.typeAt id).Reflects
      (history types index (.type id) (applications sources))) ∧
    (∀ place, (applied.set.commandAt place).Reflects
      (history types index (.command place) (applications sources))) := by
  refine ⟨?_, ?_⟩
  · intro id
    have hrecord := applyDirectives_record h (.type id)
    rw [show applied.set.typeAt id = _ from hrecord]
    exact Activation.reflects_foldl_after _
  · intro place
    have hrecord := applyDirectives_record h (.command place)
    rw [show applied.set.commandAt place = _ from hrecord]
    exact Activation.reflects_foldl_after _

/-- Two extensions and a version that disagree about a type and a command, the later
extension first. -/
def disagreeingSources : List DirectiveSource :=
  let both : List Directive := [.type "string", .command "vkTrim"]
  [⟨"VK_KHR_late", .extension 1, some 2, [{ kind := .require, directives := both }]⟩,
    ⟨"VK_KHR_early", .extension 0, some 1, [{ kind := .remove, directives := both }]⟩,
    ⟨"VK_KHR_late", .extension 1, some 2, [{ kind := .require, directives := [.type "string"] }]⟩,
    ⟨"VK_VERSION_1_0", .feature 0, none, [{ kind := .require, directives := [.type "string"] }]⟩]

/-- What `disagreeingSources` leaves: the type is back in use, the command is not. -/
theorem reflects_disagreeingSources :
    ∃ applied, applyDirectives disagreeingSources .initial ⟨[{ name := "vkTrim" }], []⟩ .empty =
        .ok applied ∧
      (applied.set.typeAt ⟨0⟩).Reflects
        [(.require, .extension 1), (.remove, .extension 0), (.require, .extension 1),
          (.require, .feature 0)] ∧
      (applied.set.commandAt 0).Reflects [(.require, .extension 1), (.remove, .extension 0)] := by
  obtain ⟨applied, h⟩ := Outcome.exists_eq_ok (x := applyDirectives disagreeingSources .initial
    ⟨[{ name := "vkTrim" }], []⟩ .empty) (by decide +kernel)
  obtain ⟨htypes, hcommands⟩ := applyDirectives_reflects h
  refine ⟨applied, h, ?_, ?_⟩
  · have hevents : history .initial ⟨[{ name := "vkTrim" }], []⟩ (.type ⟨0⟩)
        (applications disagreeingSources) =
          [(.require, .extension 1), (.remove, .extension 0), (.require, .extension 1),
            (.require, .feature 0)] := by decide +kernel
    rw [← hevents]
    exact htypes ⟨0⟩
  · have hevents : history .initial ⟨[{ name := "vkTrim" }], []⟩ (.command 0)
        (applications disagreeingSources) =
          [(.require, .extension 1), (.remove, .extension 0)] := by decide +kernel
    rw [← hevents]
    exact hcommands 0

end VulkanRegistry
