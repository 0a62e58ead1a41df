/-
What applying a directive can do.

A run over sources of directives is a run over single directives, each taken with its
source and with the kind of its block: `applications` lists them in the order in which they
are applied.  `DirectiveStep` says what one of them does to what is in use, case by case,
and `Application.step_of_apply` that nothing else happens.  Whatever is proved about runs is
proved from this relation, by one case for each of its constructors.
-/
import VulkanRegistry.Activation.Directive
import VulkanRegistry.Proofs.Activation.Record
import VulkanRegistry.Proofs.Outcome
import VulkanRegistry.Proofs.TypeTable.Lookup

namespace VulkanRegistry

/-- A directive as it is applied: its source, the kind of its block, and what it says. -/
structure Application where
  source : DirectiveSource
  kind : BlockKind
  directive : Directive

/-- The directives of all sources in the order of their application. -/
def applications (sources : List DirectiveSource) : List Application :=
  sources.flatMap fun source =>
    source.directives.map fun (kind, directive) => ⟨source, kind, directive⟩

/-- The type or command that a directive is about, if the document has it. -/
def Directive.target? (types : TypeTable) (index : EntityIndex) : Directive → Option Entity
  | .type name => (types.lookup? name).map .type
  | .command name => (index.command? name).map .command
  | .value _ => none

/-- The directive gives a value: another name, a literal, a bit or a place. -/
def ValueDirective.givesValue (d : ValueDirective) : Bool :=
  d.aliasOf.isSome || d.value.isSome || d.bitpos.isSome || d.offset.isSome

/-- The value of the enumeration that an application adds, with its id. -/
def ValueDirective.added (d : ValueDirective) (source : DirectiveSource) (enumeration : TypeId)
    (spec : ValueSpec) : AddedValue :=
  { enumeration, name := d.name, spec, comment := d.comment, origin := source.origin }

namespace Application

/-- Applies a directive. -/
def apply (types : TypeTable) (index : EntityIndex) (state : Progress) (a : Application) :
    Outcome Progress :=
  a.source.applyDirective types index a.kind state a.directive

end Application

/-- What a directive does to what is in use. -/
inductive DirectiveStep (types : TypeTable) (index : EntityIndex) (a : Application)
    (set : ActiveSet) : ActiveSet → Prop
  | require {e : Entity} (hkind : a.kind = .require)
      (htarget : a.directive.target? types index = some e) :
      DirectiveStep types index a set (set.update e (·.require [a.source.origin]))
  | remove {e : Entity} (hkind : a.kind = .remove)
      (htarget : a.directive.target? types index = some e) :
      DirectiveStep types index a set (set.update e Activation.remove)
  /-- The directive gives a value of an enumeration. -/
  | addValue {d : ValueDirective} {extended : String} {id : TypeId} {spec : ValueSpec}
      (hkind : a.kind = .require) (hvalue : a.directive = .value d)
      (hextended : d.extended = some extended) (hid : types.lookup? extended = some id)
      (hgives : d.givesValue = true)
      (hspec : ValueSpec.ofDirective d a.source.number = .ok (some spec)) :
      DirectiveStep types index a set
        (set.addValue (d.added a.source (types.canonical id) spec))
  /-- The directive only names a value. -/
  | restoreValue {d : ValueDirective} (hkind : a.kind = .require) (hvalue : a.directive = .value d)
      (hgives : d.givesValue = false) :
      DirectiveStep types index a set (set.restoreValue d.name)
  /-- The directive gives a constant. -/
  | defineConstant {d : ValueDirective} (hkind : a.kind = .require)
      (hvalue : a.directive = .value d) (hextended : d.extended = none) :
      DirectiveStep types index a set set
  | removeValue {d : ValueDirective} (hkind : a.kind = .remove) (hvalue : a.directive = .value d) :
      DirectiveStep types index a set (set.removeValue d.name)

/-! ### What the document has -/

namespace EntityIndex

theorem decl?_of_command? {index : EntityIndex} {name : String} {place : Nat}
    (h : index.command? name = some place) :
    ∃ decl, index.decl? place = some decl ∧ decl.name = name := by
  obtain ⟨hlt, hname, -⟩ := List.findIdx?_eq_some_iff_getElem.mp h
  exact ⟨index.commands[place], List.getElem?_eq_getElem hlt, by simpa using hname⟩

theorem lt_of_command? {index : EntityIndex} {name : String} {place : Nat}
    (h : index.command? name = some place) : place < index.commands.length := by
  obtain ⟨decl, hdecl, -⟩ := decl?_of_command? h
  exact (List.getElem?_eq_some_iff.mp hdecl).1

theorem command?_eq_none_iff {index : EntityIndex} {name : String} :
    index.command? name = none ↔ name ∉ index.commands.map (·.name) := by
  simp [command?]

end EntityIndex

/-- A set with one record for each type and each command has one for the target of a
directive. -/
theorem ActiveSet.Sized.holds_target {types : TypeTable} {index : EntityIndex} {set : ActiveSet}
    (h : set.Sized types.size index.commands.length) {directive : Directive} {e : Entity}
    (htarget : directive.target? types index = some e) : set.Holds e := by
  obtain ⟨htypes, hcommands⟩ := h
  cases directive with
  | type name =>
      obtain ⟨id, hid, rfl⟩ := Option.map_eq_some_iff.mp htarget
      rw [ActiveSet.Holds, htypes]
      exact TypeTable.lt_size_of_lookup? hid
  | command name =>
      obtain ⟨place, hplace, rfl⟩ := Option.map_eq_some_iff.mp htarget
      rw [ActiveSet.Holds, hcommands]
      exact EntityIndex.lt_of_command? hplace
  | value d => simp [Directive.target?] at htarget

/-! ### Single steps -/

namespace ValueSpec

/-- A directive is read as a value if and only if it gives one. -/
theorem isSome_of_ofDirective {d : ValueDirective} {holder : Option Nat} {spec : Option ValueSpec}
    (h : ofDirective d holder = .ok spec) : spec.isSome = d.givesValue := by
  unfold ofDirective at h
  unfold ValueDirective.givesValue
  split at h
  · next haliasOf =>
      simp only [Except.ok.injEq] at h
      simp [← h, haliasOf]
  · next text _ hvalue =>
      obtain ⟨value, -, rfl⟩ := Outcome.map_eq_ok.mp h
      simp [hvalue]
  · next bit _ _ hbit =>
      obtain ⟨value, -, rfl⟩ := Outcome.map_eq_ok.mp h
      simp [hbit]
  · next place _ _ _ hplace =>
      obtain ⟨offset, -, h⟩ := Outcome.bind_eq_ok.mp h
      obtain ⟨extension, -, h⟩ := Outcome.bind_eq_ok.mp h
      rw [Outcome.pure_eq_ok] at h
      simp [← h, hplace]
  · next haliasOf hvalue hbit hplace =>
      simp only [Except.ok.injEq] at h
      simp [← h, haliasOf, hvalue, hbit, hplace]

end ValueSpec

theorem ValueDirective.givesValue_of_isReference {d : ValueDirective} (h : d.isReference = true) :
    d.givesValue = false := by
  simp only [isReference, Bool.and_eq_true, Option.isNone_iff_eq_none] at h
  simp [givesValue, h]

namespace DirectiveSource

variable {source : DirectiveSource} {types : TypeTable} {index : EntityIndex}

theorem typeNamed_eq_ok {name : String} {id : TypeId} :
    source.typeNamed types name = .ok id ↔ types.lookup? name = some id := by
  unfold typeNamed unresolved
  cases types.lookup? name <;> simp

theorem commandNamed_eq_ok {name : String} {place : Nat} :
    source.commandNamed index name = .ok place ↔ index.command? name = some place := by
  unfold commandNamed unresolved
  cases index.command? name <;> simp

end DirectiveSource

namespace Application

variable {types : TypeTable} {index : EntityIndex} {a : Application} {state next : Progress}

theorem step_of_require {directive : Directive} (hkind : a.kind = .require)
    (hdirective : a.directive = directive)
    (h : a.source.require types index state directive = .ok next) :
    DirectiveStep types index a state.set next.set := by
  cases directive with
  | type name =>
      obtain ⟨id, hid, h⟩ := Outcome.bind_eq_ok.mp h
      rw [Outcome.pure_eq_ok] at h
      rw [← h]
      have htarget : a.directive.target? types index = some (.type id) := by
        simp [hdirective, Directive.target?, DirectiveSource.typeNamed_eq_ok.mp hid]
      exact .require hkind htarget
  | command name =>
      obtain ⟨place, hplace, h⟩ := Outcome.bind_eq_ok.mp h
      rw [Outcome.pure_eq_ok] at h
      rw [← h]
      have htarget : a.directive.target? types index = some (.command place) := by
        simp [hdirective, Directive.target?, DirectiveSource.commandNamed_eq_ok.mp hplace]
      exact .require hkind htarget
  | value d =>
      unfold DirectiveSource.require at h
      dsimp only at h
      split at h
      · next extended hextended =>
          obtain ⟨resolved, hresolved, h⟩ := Outcome.bind_eq_ok.mp h
          obtain ⟨spec, hspec, h⟩ := Outcome.bind_eq_ok.mp h
          have hgives := ValueSpec.isSome_of_ofDirective hspec
          obtain ⟨id, hid, rfl⟩ := Option.map_eq_some_iff.mp (TypeTable.resolve_eq_ok.mp hresolved)
          cases spec with
          | some spec =>
              rw [Outcome.pure_eq_ok] at h
              rw [← h]
              exact .addValue hkind hdirective hextended hid hgives.symm hspec
          | none =>
              obtain ⟨-, -, h⟩ := Outcome.bind_eq_ok.mp h
              rw [Outcome.pure_eq_ok] at h
              rw [← h]
              exact .restoreValue hkind hdirective hgives.symm
      · next hextended =>
          unfold DirectiveSource.requireConstant at h
          split at h
          · obtain ⟨constants, -, h⟩ := Outcome.bind_eq_ok.mp h
            rw [Outcome.pure_eq_ok] at h
            rw [← h]
            exact .defineConstant hkind hdirective hextended
          · simp only [Except.ok.injEq] at h
            rw [← h]
            exact .defineConstant hkind hdirective hextended
          · split at h
            · next href =>
                obtain ⟨-, -, h⟩ := Outcome.bind_eq_ok.mp h
                rw [Outcome.pure_eq_ok] at h
                rw [← h]
                exact .restoreValue hkind hdirective (ValueDirective.givesValue_of_isReference href)
            · simp at h

theorem step_of_remove {directive : Directive} (hkind : a.kind = .remove)
    (hdirective : a.directive = directive)
    (h : a.source.remove types index state directive = .ok next) :
    DirectiveStep types index a state.set next.set := by
  cases directive with
  | type name =>
      obtain ⟨id, hid, h⟩ := Outcome.bind_eq_ok.mp h
      rw [Outcome.pure_eq_ok] at h
      rw [← h]
      have htarget : a.directive.target? types index = some (.type id) := by
        simp [hdirective, Directive.target?, DirectiveSource.typeNamed_eq_ok.mp hid]
      exact .remove hkind htarget
  | command name =>
      obtain ⟨place, hplace, h⟩ := Outcome.bind_eq_ok.mp h
      rw [Outcome.pure_eq_ok] at h
      rw [← h]
      have htarget : a.directive.target? types index = some (.command place) := by
        simp [hdirective, Directive.target?, DirectiveSource.commandNamed_eq_ok.mp hplace]
      exact .remove hkind htarget
  | value d =>
      obtain ⟨-, -, h⟩ := Outcome.bind_eq_ok.mp h
      rw [Outcome.pure_eq_ok] at h
      rw [← h]
      exact .removeValue hkind hdirective

/-- A directive that succeeds does what `DirectiveStep` says. -/
theorem step_of_apply (h : a.apply types index state = .ok next) :
    DirectiveStep types index a state.set next.set := by
  unfold apply DirectiveSource.applyDirective at h
  split at h
  · next hkind => exact step_of_require hkind rfl h
  · next hkind => exact step_of_remove hkind rfl h

end Application

/-! ### Runs -/

theorem DirectiveStep.sized {types : TypeTable} {index : EntityIndex} {a : Application}
    {set next : ActiveSet} {typeCount commandCount : Nat}
    (hstep : DirectiveStep types index a set next)
    (h : set.Sized typeCount commandCount) : next.Sized typeCount commandCount := by
  cases hstep with
  | require => exact h.update _ _
  | remove => exact h.update _ _
  | addValue => exact h
  | restoreValue => exact h
  | defineConstant => exact h
  | removeValue => exact h

/-- A run over sources is a run over their directives. -/
theorem applyDirectives_eq_foldlM (sources : List DirectiveSource) (types : TypeTable)
    (index : EntityIndex) (constants : ConstantTable) :
    applyDirectives sources types index constants =
      (applications sources).foldlM (Application.apply types index)
        ⟨ActiveSet.idle types.size index.commands.length, constants⟩ := by
  unfold applyDirectives
  generalize (⟨ActiveSet.idle types.size index.commands.length, constants⟩ : Progress) = state
  induction sources generalizing state with
  | nil => rfl
  | cons source sources ih =>
      have hsplit : applications (source :: sources) =
          source.directives.map (fun (kind, directive) => ⟨source, kind, directive⟩) ++
            applications sources := rfl
      rw [hsplit, List.foldlM_append, List.foldlM_cons, List.foldlM_map]
      exact congrArg _ (funext fun next => ih next)

end VulkanRegistry
