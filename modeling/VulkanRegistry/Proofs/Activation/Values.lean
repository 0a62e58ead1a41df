/-
Which values directives leave.

A removal takes out every value of a name, and requiring the name again brings back none of
them: only a directive that gives the value once more does.  So a name is the name of an added
value of an enumeration if and only if some directive behind the last removal of the name
gives it a value there, and the values of the name are those that these directives give.
-/
import VulkanRegistry.Proofs.Activation.History

namespace VulkanRegistry

namespace Application

/-- The directive names this value. -/
def Names (name : String) (a : Application) : Prop :=
  ∃ d, a.directive = .value d ∧ d.name = name

/-- The directive takes this value out. -/
def Removes (name : String) (a : Application) : Prop :=
  a.kind = .remove ∧ a.Names name

/-- The directive gives this value to an enumeration. -/
def Defines (types : TypeTable) (enumeration : TypeId) (name : String) (a : Application) : Prop :=
  a.kind = .require ∧ ∃ d extended id, a.directive = .value d ∧ d.name = name ∧
    d.givesValue = true ∧ d.extended = some extended ∧ types.lookup? extended = some id ∧
    types.canonical id = enumeration

instance (name : String) : DecidablePred (Names name) := fun a =>
  match h : a.directive with
  | .value d => decidable_of_iff (d.name = name) (by simp [Names, h])
  | .type _ => isFalse (by simp [Names, h])
  | .command _ => isFalse (by simp [Names, h])

instance (name : String) : DecidablePred (Removes name) := fun a =>
  inferInstanceAs (Decidable (a.kind = .remove ∧ a.Names name))

end Application

/-- The directives behind the last removal of a value. -/
def sinceRemoval (name : String) (run : List Application) : List Application :=
  run.rtakeWhile fun a => ¬ a.Removes name

/-- Some directive behind the last removal gives the value to the enumeration. -/
def DefinedSinceRemoval (types : TypeTable) (enumeration : TypeId) (name : String)
    (run : List Application) : Prop :=
  ∃ a ∈ sinceRemoval name run, a.Defines types enumeration name

/-- The last directive that names the value requires it. -/
def LastRequired (name : String) (run : List Application) : Prop :=
  ∃ a, (run.filter (·.Names name)).getLast? = some a ∧ a.kind = .require

/-- Some directive of this origin behind the last removal gives the value to the enumeration. -/
def DefinedFrom (types : TypeTable) (enumeration : TypeId) (name : String) (o : Origin)
    (run : List Application) : Prop :=
  ∃ a ∈ sinceRemoval name run, a.Defines types enumeration name ∧ a.source.origin = o

/-- The set has an added value of this name and origin for the enumeration. -/
def ActiveSet.HasValueFrom (set : ActiveSet) (enumeration : TypeId) (name : String)
    (o : Origin) : Prop :=
  ∃ v ∈ set.values, v.enumeration = enumeration ∧ v.name = name ∧ v.origin = o

/-- The set has an added value of this name for the enumeration. -/
def ActiveSet.HasValue (set : ActiveSet) (enumeration : TypeId) (name : String) : Prop :=
  ∃ v ∈ set.values, v.enumeration = enumeration ∧ v.name = name

variable {types : TypeTable} {index : EntityIndex} {enumeration : TypeId} {name : String}
  {o : Origin}

theorem ActiveSet.hasValue_iff_from {set : ActiveSet} :
    set.HasValue enumeration name ↔ ∃ o, set.HasValueFrom enumeration name o := by
  constructor
  · rintro ⟨v, hv, henum, hname⟩
    exact ⟨v.origin, v, hv, henum, hname, rfl⟩
  · rintro ⟨o, v, hv, henum, hname, -⟩
    exact ⟨v, hv, henum, hname⟩

theorem definedSinceRemoval_iff_from {run : List Application} :
    DefinedSinceRemoval types enumeration name run ↔
      ∃ o, DefinedFrom types enumeration name o run := by
  constructor
  · rintro ⟨a, ha, hdefines⟩
    exact ⟨a.source.origin, a, ha, hdefines, rfl⟩
  · rintro ⟨o, a, ha, hdefines, -⟩
    exact ⟨a, ha, hdefines⟩

/-- Where nothing removes the value, all directives stand behind its last removal. -/
theorem sinceRemoval_eq_self {run : List Application} (h : ∀ a ∈ run, ¬ a.Removes name) :
    sinceRemoval name run = run :=
  List.rtakeWhile_eq_self_iff.mpr fun a ha => by simpa using h a ha

theorem Application.Defines.names {a : Application} (h : a.Defines types enumeration name) :
    a.Names name := by
  obtain ⟨-, d, _, _, hd, hname, -⟩ := h
  exact ⟨d, hd, hname⟩

theorem Application.Defines.not_removes {a : Application} (h : a.Defines types enumeration name) :
    ¬ a.Removes name := by
  rintro ⟨hremove, -⟩
  rw [h.1] at hremove
  simp at hremove

theorem not_names_of_target? {a : Application} {e : Entity}
    (h : a.directive.target? types index = some e) : ¬ a.Names name := by
  rintro ⟨d, hd, -⟩
  simp [hd, Directive.target?] at h

/-! ### Single steps -/

/-- What one directive does to the values of a name. -/
theorem DirectiveStep.hasValueFrom_iff {a : Application} {set next : ActiveSet}
    (hstep : DirectiveStep types index a set next) :
    next.HasValueFrom enumeration name o ↔
      a.Defines types enumeration name ∧ a.source.origin = o ∨
        ¬ a.Removes name ∧ set.HasValueFrom enumeration name o := by
  have hother : ¬ a.Names name → ¬ a.Defines types enumeration name ∧ ¬ a.Removes name := by
    intro hnot
    exact ⟨fun hdefines => hnot hdefines.names, fun hremoves => hnot hremoves.2⟩
  have hkept : a.kind = .require → ¬ a.Removes name := by
    rintro hkind ⟨hremove, -⟩
    rw [hkind] at hremove
    simp at hremove
  cases hstep with
  | require hkind htarget =>
      obtain ⟨hdefines, hremoves⟩ := hother (not_names_of_target? htarget)
      simp [ActiveSet.HasValueFrom, hdefines, hremoves]
  | remove hkind htarget =>
      obtain ⟨hdefines, hremoves⟩ := hother (not_names_of_target? htarget)
      simp [ActiveSet.HasValueFrom, hdefines, hremoves]
  | @addValue d extended id spec hkind hvalue hextended hid hgives =>
      have hdefines : a.Defines types enumeration name ↔
          types.canonical id = enumeration ∧ d.name = name := by
        constructor
        · rintro ⟨-, found, _, _, hfound, hname, -, hextended', hid', henum⟩
          rw [hvalue, Directive.value.injEq] at hfound
          rw [← hfound, hextended, Option.some.injEq] at hextended'
          rw [← hextended', hid, Option.some.injEq] at hid'
          exact ⟨by rw [hid', henum], by rw [hfound, hname]⟩
        · rintro ⟨henum, hname⟩
          exact ⟨hkind, d, extended, id, hvalue, hname, hgives, hextended, hid, henum⟩
      have hvalues : (set.addValue (d.added a.source (types.canonical id) spec)).values =
          set.values ++ [d.added a.source (types.canonical id) spec] := rfl
      rw [hdefines, ActiveSet.HasValueFrom, hvalues, and_assoc]
      simp only [List.mem_append, List.mem_singleton, or_and_right, exists_or, exists_eq_left]
      simp only [hkept hkind, not_false_eq_true, true_and, ActiveSet.HasValueFrom]
      exact or_comm
  | restoreValue hkind hvalue hgives =>
      have hdefines : ¬ a.Defines types enumeration name := by
        rintro ⟨-, found, _, _, hfound, -, hgives', -⟩
        rw [hvalue, Directive.value.injEq] at hfound
        rw [← hfound, hgives] at hgives'
        simp at hgives'
      simp [hdefines, hkept hkind, ActiveSet.HasValueFrom, ActiveSet.restoreValue]
  | defineConstant hkind hvalue hextended =>
      have hdefines : ¬ a.Defines types enumeration name := by
        rintro ⟨-, found, _, _, hfound, -, -, hextended', -⟩
        rw [hvalue, Directive.value.injEq] at hfound
        rw [← hfound, hextended] at hextended'
        simp at hextended'
      simp [hdefines, hkept hkind]
  | @removeValue d hkind hvalue =>
      have hdefines : ¬ a.Defines types enumeration name := by
        intro hdefines
        rw [hdefines.1] at hkind
        simp at hkind
      have hremoves : a.Removes name ↔ d.name = name := by
        simp [Application.Removes, Application.Names, hkind, hvalue]
      rw [hremoves]
      simp only [hdefines, false_and, false_or, ActiveSet.HasValueFrom, ActiveSet.removeValue,
        List.mem_filter]
      constructor
      · rintro ⟨v, ⟨hv, hne⟩, henum, rfl, horigin⟩
        exact ⟨fun heq => by simp [heq] at hne, v, hv, henum, rfl, horigin⟩
      · rintro ⟨hne, v, hv, henum, rfl, horigin⟩
        exact ⟨v, ⟨hv, by simpa using fun heq => hne heq.symm⟩, henum, rfl, horigin⟩

/-- A directive that marks a value as removed removes it. -/
theorem DirectiveStep.removes_of_isValueRemoved {a : Application} {set next : ActiveSet}
    (hstep : DirectiveStep types index a set next) (h : next.isValueRemoved name = true) :
    a.Removes name ∨ set.isValueRemoved name = true := by
  simp only [ActiveSet.isValueRemoved, List.contains_iff_mem] at h ⊢
  cases hstep with
  | require => exact Or.inr (by simpa using h)
  | remove => exact Or.inr (by simpa using h)
  | addValue => exact Or.inr (List.mem_filter.mp h).1
  | restoreValue => exact Or.inr (List.mem_filter.mp h).1
  | defineConstant => exact Or.inr h
  | removeValue hkind hvalue =>
      rcases List.mem_cons.mp h with rfl | h
      · exact Or.inl ⟨hkind, _, hvalue, rfl⟩
      · exact Or.inr (List.mem_filter.mp h).1

/-! ### Runs -/

theorem not_hasValueFrom_idle (typeCount commandCount : Nat) :
    ¬ (ActiveSet.idle typeCount commandCount).HasValueFrom enumeration name o := by
  simp [ActiveSet.HasValueFrom, ActiveSet.idle]

/-- After a run, an enumeration has the added values that were defined since their removal. -/
theorem hasValueFrom_run {run : List Application} {state next : Progress}
    (hstate : ¬ state.set.HasValueFrom enumeration name o)
    (h : run.foldlM (Application.apply types index) state = .ok next) :
    next.set.HasValueFrom enumeration name o ↔ DefinedFrom types enumeration name o run := by
  induction run using List.reverseRecOn generalizing next with
  | nil =>
      rw [Outcome.foldlM_nil_eq_ok] at h
      rw [← h]
      simp [hstate, DefinedFrom, sinceRemoval]
  | append_singleton run a ih =>
      obtain ⟨middle, hmiddle, h⟩ := Outcome.foldlM_append_eq_ok.mp h
      obtain ⟨last, hlast, h⟩ := Outcome.foldlM_cons_eq_ok.mp h
      rw [Outcome.foldlM_nil_eq_ok] at h
      rw [← h, (Application.step_of_apply hlast).hasValueFrom_iff, ih hmiddle]
      unfold DefinedFrom sinceRemoval
      by_cases hremoves : a.Removes name
      · rw [List.rtakeWhile_concat_neg _ _ _ (by simpa using hremoves)]
        have hdefines : ¬ a.Defines types enumeration name :=
          fun hdefines => hdefines.not_removes hremoves
        simp [hremoves, hdefines]
      · rw [List.rtakeWhile_concat_pos _ _ _ (by simpa using hremoves)]
        simp [hremoves, or_and_right, exists_or, or_comm]

/-- The added values that a run over sources leaves, with their origins. -/
theorem applyDirectives_hasValueFrom_iff {sources : List DirectiveSource}
    {constants : ConstantTable} {applied : Progress}
    (h : applyDirectives sources types index constants = .ok applied) :
    applied.set.HasValueFrom enumeration name o ↔
      DefinedFrom types enumeration name o (applications sources) := by
  rw [applyDirectives_eq_foldlM] at h
  exact hasValueFrom_run (not_hasValueFrom_idle _ _) h

/-- The added values that a run over sources leaves. -/
theorem applyDirectives_hasValue_iff {sources : List DirectiveSource} {constants : ConstantTable}
    {applied : Progress} (h : applyDirectives sources types index constants = .ok applied) :
    applied.set.HasValue enumeration name ↔
      DefinedSinceRemoval types enumeration name (applications sources) := by
  rw [ActiveSet.hasValue_iff_from, definedSinceRemoval_iff_from]
  exact exists_congr fun o => applyDirectives_hasValueFrom_iff h

/-- Only values that some directive removes are marked as removed. -/
theorem exists_removes_of_isValueRemoved {sources : List DirectiveSource}
    {constants : ConstantTable} {applied : Progress}
    (h : applyDirectives sources types index constants = .ok applied)
    (hmark : applied.set.isValueRemoved name = true) :
    ∃ a ∈ applications sources, a.Removes name := by
  rw [applyDirectives_eq_foldlM] at h
  have hrun : applied.set.isValueRemoved name = true →
      ∃ a ∈ applications sources, a.Removes name := by
    refine Outcome.foldlM_induction (fun state => state.set.isValueRemoved name = true →
      ∃ a ∈ applications sources, a.Removes name) ?_ ?_ h
    · intro a ha state next hstate hstep hnext
      rcases (Application.step_of_apply hstep).removes_of_isValueRemoved hnext with hremoves | hold
      · exact ⟨a, ha, hremoves⟩
      · exact hstate hold
    · intro hidle
      simp [ActiveSet.isValueRemoved, ActiveSet.idle] at hidle
  exact hrun hmark

/-! ### Where added values come from -/

/-- The directive adds this value to an enumeration. -/
def Application.Adds (types : TypeTable) (a : Application) (v : AddedValue) : Prop :=
  ∃ d extended id, a.directive = .value d ∧ d.extended = some extended ∧
    types.lookup? extended = some id ∧
    ValueSpec.ofDirective d a.source.number = .ok (some v.spec) ∧
    v = d.added a.source (types.canonical id) v.spec

theorem DirectiveStep.adds_of_mem {a : Application} {set next : ActiveSet}
    (hstep : DirectiveStep types index a set next) {v : AddedValue} (hv : v ∈ next.values) :
    v ∈ set.values ∨ a.Adds types v := by
  cases hstep with
  | require => exact Or.inl (by simpa using hv)
  | remove => exact Or.inl (by simpa using hv)
  | @addValue d extended id spec _ hvalue hextended hid _ hspec =>
      rcases List.mem_append.mp hv with hv | hv
      · exact Or.inl hv
      · have hadded := List.mem_singleton.mp hv
        refine Or.inr ⟨d, extended, id, hvalue, hextended, hid, ?_, ?_⟩
        · rw [hadded]
          exact hspec
        · rw [hadded]
          rfl
  | restoreValue => exact Or.inl hv
  | defineConstant => exact Or.inl hv
  | removeValue => exact Or.inl (List.mem_filter.mp hv).1

/-- Every added value that a run over sources leaves was added by one of their directives. -/
theorem exists_adds_of_mem_values {sources : List DirectiveSource} {constants : ConstantTable}
    {applied : Progress} (h : applyDirectives sources types index constants = .ok applied)
    {v : AddedValue} (hv : v ∈ applied.set.values) : ∃ a ∈ applications sources, a.Adds types v := by
  rw [applyDirectives_eq_foldlM] at h
  have hall : ∀ v ∈ applied.set.values, ∃ a ∈ applications sources, a.Adds types v := by
    refine Outcome.foldlM_induction
      (fun state => ∀ v ∈ state.set.values, ∃ a ∈ applications sources, a.Adds types v) ?_ ?_ h
    · intro a ha state next hstate hstep v hv
      rcases (Application.step_of_apply hstep).adds_of_mem hv with hold | hadds
      · exact hstate v hold
      · exact ⟨a, ha, hadds⟩
    · intro v hv
      simp [ActiveSet.idle] at hv
  exact hall v hv

/-! ### The last directive -/

/-- What was defined since its removal was required last. -/
theorem DefinedSinceRemoval.lastRequired {run : List Application}
    (h : DefinedSinceRemoval types enumeration name run) : LastRequired name run := by
  induction run using List.reverseRecOn with
  | nil => simp [DefinedSinceRemoval, sinceRemoval] at h
  | append_singleton run a ih =>
      obtain ⟨b, hb, hdefines⟩ := h
      unfold sinceRemoval at hb
      by_cases hremoves : a.Removes name
      · rw [List.rtakeWhile_concat_neg _ _ _ (by simpa using hremoves)] at hb
        simp at hb
      · rw [List.rtakeWhile_concat_pos _ _ _ (by simpa using hremoves)] at hb
        unfold LastRequired
        rw [List.filter_append]
        by_cases hnames : a.Names name
        · refine ⟨a, by simp [hnames], ?_⟩
          cases hkind : a.kind with
          | require => rfl
          | remove => exact absurd ⟨hkind, hnames⟩ hremoves
        · rcases List.mem_append.mp hb with hb | hb
          · have hnone : [a].filter (·.Names name) = [] := by simp [hnames]
            rw [hnone, List.append_nil]
            exact ih ⟨b, hb, hdefines⟩
          · rw [List.mem_singleton.mp hb] at hdefines
            exact absurd hdefines.names hnames

end VulkanRegistry
