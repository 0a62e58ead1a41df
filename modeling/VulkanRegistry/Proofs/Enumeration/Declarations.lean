/-
What the declarations of a document say about the value of a name.

Declarations are kept one by one and the first one of a name counts, so the declaration of a
name is the first one of that name in the list (`spec?_among`).  The value of a name stands
where the chain of its aliases ends.  Links lead to at most one such end, so two names whose
chains meet have one value.
-/
import VulkanRegistry.Enumeration.Fill
import VulkanRegistry.Proofs.Outcome
import VulkanRegistry.Proofs.Trail
import VulkanRegistry.Proofs.TypeTable.Outline

namespace VulkanRegistry

/-- All declarations of a value of the enumeration say the same. -/
def DeclaredAlike (declared : List DeclaredValue) (enumeration : TypeId) (name : String) : Prop :=
  ∀ v ∈ declared, ∀ w ∈ declared, v.enumeration = enumeration → w.enumeration = enumeration →
    v.name = name → w.name = name → v.spec = w.spec

namespace EnumDeclarations

variable {decls : EnumDeclarations} {name : String}

/-! ### The first declaration of a name -/

theorem spec?_declare (other : String) (spec : ValueSpec) :
    (decls.declare other spec).spec? name =
      (decls.spec? name).or (if name = other then some spec else none) := by
  unfold declare
  by_cases hcontains : decls.contains other = true
  · rw [if_pos hcontains]
    by_cases hname : name = other
    · obtain ⟨found, hfound⟩ := Option.isSome_iff_exists.mp hcontains
      rw [hname, hfound]
      rfl
    · simp [hname]
  · rw [if_neg hcontains]
    by_cases hname : name = other
    · simp [spec?, List.lookup_append, hname]
    · have hne : (name == other) = false := by simpa using hname
      simp [spec?, List.lookup_append, hname, List.lookup_cons, hne]

/-- Whatever declarations are read off, the first one of a name counts. -/
theorem spec?_foldl_declare {α : Type} (nameOf : α → String) (specOf : α → ValueSpec)
    (xs : List α) :
    (xs.foldl (fun decls x => decls.declare (nameOf x) (specOf x)) decls).spec? name =
      (decls.spec? name).or ((xs.find? (nameOf · == name)).map specOf) := by
  induction xs generalizing decls with
  | nil => simp
  | cons x xs ih =>
      rw [List.foldl_cons, ih, spec?_declare, List.find?_cons]
      by_cases hname : name = nameOf x
      · have hfirst : (nameOf x == name) = true := by simp [hname]
        rw [if_pos hname, hfirst]
        cases decls.spec? name <;> rfl
      · have hother : (nameOf x == name) = false := by
          rw [beq_eq_false_iff_ne]
          exact fun heq => hname heq.symm
        rw [if_neg hname, hother, Option.or_none]

theorem spec?_among (declared : List DeclaredValue) (types : TypeTable) (id : TypeId) :
    (among declared types id).spec? name =
      ((declared.filter (·.enumeration == id)).find? (·.name == name)).map (·.spec) := by
  unfold among
  rw [spec?_foldl_declare DeclaredValue.name DeclaredValue.spec]
  rfl

/-- Where the declarations of a name say the same, each of them says what counts. -/
theorem spec?_among_of_mem {declared : List DeclaredValue} {types : TypeTable} {v : DeclaredValue}
    (hv : v ∈ declared) (halike : DeclaredAlike declared v.enumeration v.name) :
    (among declared types v.enumeration).spec? v.name = some v.spec := by
  rw [spec?_among]
  have hfilter : v ∈ declared.filter (·.enumeration == v.enumeration) :=
    List.mem_filter.mpr ⟨hv, by simp⟩
  cases hfind : (declared.filter (·.enumeration == v.enumeration)).find? (·.name == v.name) with
  | none => simpa using List.find?_eq_none.mp hfind v hfilter
  | some first =>
      obtain ⟨hmem, henum⟩ := List.mem_filter.mp (List.mem_of_find?_eq_some hfind)
      have hname := List.find?_some hfind
      rw [beq_iff_eq] at henum hname
      rw [Option.map_some, halike first hmem v hv henum rfl hname rfl]

/-! ### Values -/

theorem link_eq_none_of_number {value : Int} (h : decls.spec? name = some (.number value)) :
    decls.link name = none := by
  simp [link, h, ValueSpec.link?]

/-- The value of a name is that of the name at the end of its chain. -/
theorem leads_of_valueOf {value : Int} (h : decls.valueOf name = .ok value) :
    ∃ last, Trail.Leads decls.link name last ∧ decls.spec? last = some (.number value) := by
  unfold valueOf at h
  dsimp only at h
  split at h
  · simp at h
  · simp [unknown] at h
  · refine ⟨(decls.trail name).last, Trail.leads_of_mem_path (Trail.last_mem_path _), ?_⟩
    cases hspec : decls.spec? (decls.trail name).last with
    | none => simp [hspec, unknown] at h
    | some spec =>
        cases spec with
        | number found =>
            simp only [hspec, Option.bind_some, ValueSpec.direct?, Except.ok.injEq] at h
            rw [h]
        | aliasTo target => simp [hspec, ValueSpec.direct?, unknown] at h

/-- Names whose chains meet have one value. -/
theorem value_unique {a b : String} {v w : Int} (ha : Trail.Leads decls.link name a)
    (hb : Trail.Leads decls.link name b) (hv : decls.spec? a = some (.number v))
    (hw : decls.spec? b = some (.number w)) : v = w := by
  have hsame : a = b :=
    Trail.eq_of_leads ha hb (link_eq_none_of_number hv) (link_eq_none_of_number hw)
  rw [hsame, hw, Option.some.injEq, ValueSpec.number.injEq] at hv
  exact hv.symm

end EnumDeclarations

/-! ### Which declarations there are -/

section Outline

variable {table other : TypeTable} (h : other.outline = table.outline)

include h

/-- What a document declares depends on what names stand for, and on nothing else. -/
theorem Document.declaredValues_eq_of_outline (doc : Document) :
    doc.declaredValues other = doc.declaredValues table := by
  have hlookup : other.lookup? = table.lookup? := funext (TypeTable.lookup?_eq_of_outline h)
  have hcanonical : other.canonical = table.canonical :=
    funext (TypeTable.canonical_eq_of_outline h)
  have hblock : ∀ block : EnumBlock, block.declared other = block.declared table := by
    intro block
    unfold EnumBlock.declared
    rw [hlookup, hcanonical]
  have hdirective : ∀ (d : Directive) (holder : Option Nat),
      d.declared other holder = d.declared table holder := by
    intro d holder
    unfold Directive.declared
    rw [hlookup, hcanonical]
  unfold Document.declaredValues
  simp only [hblock, hdirective]

theorem EnumDeclarations.among_eq_of_outline (declared : List DeclaredValue) (id : TypeId) :
    among declared other id = among declared table id := by
  unfold among
  rw [TypeTable.nameOf_eq_of_outline h]

end Outline

namespace Document

variable {doc : Document} {types : TypeTable} {declared : List DeclaredValue}

theorem mem_declaredValues_of_block (h : doc.declaredValues types = .ok declared)
    {block : EnumBlock} (hblock : block ∈ doc.enums) (htype : block.hasType = true) {id : TypeId}
    (hid : types.lookup? block.name = some id) {value : ValueDecl} (hvalue : value ∈ block.values) :
    ∃ spec, ValueSpec.ofBlock value = .ok spec ∧
      ⟨types.canonical id, value.name, spec⟩ ∈ declared := by
  obtain ⟨inBlocks, hblocks, h⟩ := Outcome.bind_eq_ok.mp h
  obtain ⟨inDirectives, -, h⟩ := Outcome.bind_eq_ok.mp h
  rw [Outcome.pure_eq_ok] at h
  obtain ⟨values, hvalues, hread⟩ :=
    Outcome.exists_mem_of_mapM hblocks (List.mem_filter.mpr ⟨hblock, htype⟩)
  simp only [EnumBlock.declared, hid] at hread
  obtain ⟨found, hfound, hread⟩ := Outcome.exists_mem_of_mapM hread hvalue
  obtain ⟨spec, hspec, hread⟩ := Outcome.bind_eq_ok.mp hread
  rw [Outcome.pure_eq_ok] at hread
  refine ⟨spec, hspec, ?_⟩
  rw [← h, hread]
  exact List.mem_append_left _ (List.mem_flatten.mpr ⟨values, hvalues, hfound⟩)

theorem mem_declaredValues_of_directive (h : doc.declaredValues types = .ok declared)
    {holder : Option Nat} {d : ValueDirective} (hheld : (holder, .value d) ∈ doc.heldDirectives)
    {extended : String} (hextended : d.extended = some extended) {id : TypeId}
    (hid : types.lookup? extended = some id) {spec : ValueSpec}
    (hspec : ValueSpec.ofDirective d holder = .ok (some spec)) :
    ⟨types.canonical id, d.name, spec⟩ ∈ declared := by
  obtain ⟨inBlocks, -, h⟩ := Outcome.bind_eq_ok.mp h
  obtain ⟨inDirectives, hdirectives, h⟩ := Outcome.bind_eq_ok.mp h
  rw [Outcome.pure_eq_ok] at h
  obtain ⟨found, hfound, hread⟩ := Outcome.exists_mem_of_mapM hdirectives hheld
  simp only [Directive.declared, hextended, Option.bind_some, hid] at hread
  obtain ⟨read, hread', hread⟩ := Outcome.bind_eq_ok.mp hread
  rw [hspec, Except.ok.injEq] at hread'
  rw [Outcome.pure_eq_ok, ← hread', Option.map_some] at hread
  rw [← hread] at hfound
  rw [← h]
  exact List.mem_append_right _ (List.mem_filterMap.mpr ⟨_, hfound, rfl⟩)

end Document

end VulkanRegistry
