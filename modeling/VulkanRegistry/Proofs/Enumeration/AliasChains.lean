/-
Where aliases of values lead.

The value of a name stands where the chain of its aliases ends, and each link of the chain is
what the first declaration of a name says.  A chain does one of three things: it ends at a
declared number, it leads to a name that nobody declares, or it comes back to a name it had.
Resolving a name finds out which (`valueOf_cases`).  Links are single, so a chain does one of
them only, and the three answers say as much as the three things that chains do
(`resolvesAliases`).
-/
import VulkanRegistry.Proofs.Enumeration.Declarations

namespace VulkanRegistry

namespace EnumDeclarations

/-- The declarations of an enumeration, made one after the other. -/
def ofDeclared (enumeration : String) (declared : List (String × ValueSpec)) : EnumDeclarations :=
  declared.foldl (fun decls d => decls.declare d.1 d.2) (empty enumeration)

end EnumDeclarations

/-- What the first declaration of a name says. -/
def firstSpec? (declared : List (String × ValueSpec)) (name : String) : Option ValueSpec :=
  (declared.find? (·.1 == name)).map (·.2)

/-- The name that the first declaration of a name makes it an alias of. -/
def firstTarget? (declared : List (String × ValueSpec)) (name : String) : Option String :=
  (firstSpec? declared name).bind ValueSpec.link?

/-- What resolving a name answers is what the chain of first declarations from it does. -/
structure ResolvesAliases (enumeration : String) (declared : List (String × ValueSpec))
    (name : String) : Prop where
  /-- The chain is followed over distinct names, all but the first of them declared, so this
  ends. -/
  bounded : let path := ((EnumDeclarations.ofDeclared enumeration declared).trail name).path
    path.Nodup ∧ ∀ other ∈ path.tail, ∃ spec, (other, spec) ∈ declared
  value_iff : ∀ value, (EnumDeclarations.ofDeclared enumeration declared).valueOf name = .ok value ↔
    ∃ last, Trail.Leads (firstTarget? declared) name last ∧
      firstSpec? declared last = some (.number value)
  unknown_iff : ∀ missing owner, (EnumDeclarations.ofDeclared enumeration declared).valueOf name =
      .error (.unknownEnumValue missing owner) ↔
    owner = enumeration ∧ Trail.Leads (firstTarget? declared) name missing ∧
      firstSpec? declared missing = none
  cyclic_iff : ∀ path, (EnumDeclarations.ofDeclared enumeration declared).valueOf name =
      .error (.cyclicAlias path) ↔ Trail.ClosesLoop (firstTarget? declared) name path
  loops_iff : (∃ path, (EnumDeclarations.ofDeclared enumeration declared).valueOf name =
      .error (.cyclicAlias path)) ↔ Trail.Loops (firstTarget? declared) name
  /-- There is no fourth answer. -/
  answers : (∃ value, (EnumDeclarations.ofDeclared enumeration declared).valueOf name = .ok value) ∨
    (∃ missing, (EnumDeclarations.ofDeclared enumeration declared).valueOf name =
      .error (.unknownEnumValue missing enumeration)) ∨
    ∃ path, (EnumDeclarations.ofDeclared enumeration declared).valueOf name =
      .error (.cyclicAlias path)

namespace EnumDeclarations

variable {decls : EnumDeclarations} {declared : List (String × ValueSpec)} {name : String}

/-! ### What is declared -/

theorem spec?_ofDeclared (enumeration : String) (declared : List (String × ValueSpec)) :
    (ofDeclared enumeration declared).spec? = firstSpec? declared := by
  funext name
  rw [ofDeclared, spec?_foldl_declare Prod.fst Prod.snd]
  rfl

theorem link_ofDeclared (enumeration : String) (declared : List (String × ValueSpec)) :
    (ofDeclared enumeration declared).link = firstTarget? declared := by
  funext name
  rw [link, spec?_ofDeclared]
  rfl

theorem enumeration_declare (other : String) (spec : ValueSpec) :
    (decls.declare other spec).enumeration = decls.enumeration := by
  unfold declare
  split <;> rfl

theorem enumeration_ofDeclared (enumeration : String) (declared : List (String × ValueSpec)) :
    (ofDeclared enumeration declared).enumeration = enumeration := by
  refine List.foldlRecOn declared _
    (motive := fun decls : EnumDeclarations => decls.enumeration = enumeration) rfl ?_
  intro decls henum d _
  rw [enumeration_declare, henum]

theorem spec?_eq_none_iff : decls.spec? name = none ↔ name ∉ decls.specs.map Prod.fst := by
  rw [spec?, List.lookup_eq_none_iff, List.mem_map, not_exists]
  refine forall_congr' fun d => ?_
  rw [not_and, bne_iff_ne, ne_comm]

/-- A name with a link is declared. -/
theorem mem_names_of_link {target : String} (h : decls.link name = some target) :
    name ∈ decls.specs.map Prod.fst := by
  by_contra hnew
  rw [link, spec?_eq_none_iff.mpr hnew] at h
  cases h

theorem exists_mem_of_firstSpec? {spec : ValueSpec} (h : firstSpec? declared name = some spec) :
    (name, spec) ∈ declared := by
  obtain ⟨d, hfind, rfl⟩ := Option.map_eq_some_iff.mp h
  have hname := List.find?_some hfind
  rw [beq_iff_eq] at hname
  rw [← hname]
  exact List.mem_of_find?_eq_some hfind

/-! ### Three things that chains do -/

/-- Resolving a name finds the number at the end of its chain, the undeclared name that the chain
leads to, or the loop that it closes. -/
theorem valueOf_cases (decls : EnumDeclarations) (name : String) :
    (∃ value last, decls.valueOf name = .ok value ∧ Trail.Leads decls.link name last ∧
      decls.spec? last = some (.number value)) ∨
    (∃ missing, decls.valueOf name = .error (.unknownEnumValue missing decls.enumeration) ∧
      Trail.Leads decls.link name missing ∧ decls.spec? missing = none) ∨
    ∃ path, decls.valueOf name = .error (.cyclicAlias path) ∧
      Trail.ClosesLoop decls.link name path := by
  have hlast : Trail.Leads decls.link name (decls.trail name).last :=
    Trail.leads_of_mem_path (Trail.last_mem_path _)
  cases hending : (decls.trail name).ending with
  | stops =>
      have hnext : decls.link (decls.trail name).last = none := Trail.next_last_of_stops hending
      cases hspec : decls.spec? (decls.trail name).last with
      | none =>
          refine .inr (.inl ⟨_, ?_, hlast, hspec⟩)
          simp [valueOf, hending, hspec, unknown]
      | some spec =>
          cases spec with
          | number value =>
              refine .inl ⟨value, _, ?_, hlast, hspec⟩
              simp [valueOf, hending, hspec, ValueSpec.direct?]
          | aliasTo target => simp [link, hspec, ValueSpec.link?] at hnext
  | cycles target =>
      refine .inr (.inr ⟨_, ?_, Trail.closesLoop_of_cycles hending⟩)
      simp only [valueOf, hending]
      rfl
  | leaves target =>
      obtain ⟨hlink, hout⟩ := Trail.next_last_of_leaves hending
      refine .inr (.inl ⟨target, ?_, hlast.tail hlink, spec?_eq_none_iff.mpr hout⟩)
      simp [valueOf, hending, unknown]

theorem link_eq_none_of_unknown (h : decls.spec? name = none) : decls.link name = none := by
  rw [link, h]
  rfl

/-- A chain that ends at a number does not lead to an undeclared name. -/
theorem not_leads_unknown {last missing : String} {value : Int}
    (hlast : Trail.Leads decls.link name last) (hvalue : decls.spec? last = some (.number value))
    (hmissing : Trail.Leads decls.link name missing) : decls.spec? missing ≠ none := by
  intro hnone
  have hsame : last = missing := Trail.eq_of_leads hlast hmissing (link_eq_none_of_number hvalue)
    (link_eq_none_of_unknown hnone)
  rw [hsame, hnone] at hvalue
  cases hvalue

/-- A chain that ends closes no loop. -/
theorem not_closesLoop {last : String} {path : List String} (hnext : decls.link last = none)
    (hlast : Trail.Leads decls.link name last) : ¬ Trail.ClosesLoop decls.link name path :=
  fun h => Trail.not_loops_of_leads hnext hlast h.loops

theorem valueOf_eq_ok_iff {value : Int} : decls.valueOf name = .ok value ↔
    ∃ last, Trail.Leads decls.link name last ∧ decls.spec? last = some (.number value) := by
  constructor
  · exact leads_of_valueOf
  · rintro ⟨last, hlast, hvalue⟩
    rcases valueOf_cases decls name with ⟨found, other, hfound, hother, hspec⟩ |
      ⟨missing, -, hmissing, hspec⟩ | ⟨path, -, hloop⟩
    · rw [hfound, value_unique hother hlast hspec hvalue]
    · exact absurd hspec (not_leads_unknown hlast hvalue hmissing)
    · exact absurd hloop (not_closesLoop (link_eq_none_of_number hvalue) hlast)

theorem valueOf_eq_unknown_iff {missing owner : String} :
    decls.valueOf name = .error (.unknownEnumValue missing owner) ↔
      owner = decls.enumeration ∧ Trail.Leads decls.link name missing ∧
        decls.spec? missing = none := by
  rcases valueOf_cases decls name with ⟨value, last, hvalue, hlast, hspec⟩ |
    ⟨other, herror, hother, hspec⟩ | ⟨path, herror, hloop⟩
  · rw [hvalue]
    refine ⟨nofun, fun ⟨_, hmissing, hnone⟩ => ?_⟩
    exact absurd hnone (not_leads_unknown hlast hspec hmissing)
  · rw [herror, Except.error.injEq, RegistryError.unknownEnumValue.injEq]
    constructor
    · rintro ⟨rfl, rfl⟩
      exact ⟨rfl, hother, hspec⟩
    · rintro ⟨rfl, hmissing, hnone⟩
      exact ⟨Trail.eq_of_leads hother hmissing (link_eq_none_of_unknown hspec)
        (link_eq_none_of_unknown hnone), rfl⟩
  · rw [herror]
    refine ⟨nofun, fun ⟨_, hmissing, hnone⟩ => ?_⟩
    exact absurd hloop (not_closesLoop (link_eq_none_of_unknown hnone) hmissing)

theorem valueOf_eq_cyclic_iff {path : List String} :
    decls.valueOf name = .error (.cyclicAlias path) ↔ Trail.ClosesLoop decls.link name path := by
  rcases valueOf_cases decls name with ⟨value, last, hvalue, hlast, hspec⟩ |
    ⟨missing, herror, hmissing, hspec⟩ | ⟨other, herror, hloop⟩
  · rw [hvalue]
    refine ⟨nofun, fun h => ?_⟩
    exact absurd h (not_closesLoop (link_eq_none_of_number hspec) hlast)
  · rw [herror]
    refine ⟨nofun, fun h => ?_⟩
    exact absurd h (not_closesLoop (link_eq_none_of_unknown hspec) hmissing)
  · rw [herror, Except.error.injEq, RegistryError.cyclicAlias.injEq]
    constructor
    · rintro rfl
      exact hloop
    · exact hloop.unique

/-- Where a chain comes back to a name, it is followed up to there. -/
theorem exists_cyclic_iff : (∃ path, decls.valueOf name = .error (.cyclicAlias path)) ↔
    Trail.Loops decls.link name := by
  simp only [valueOf_eq_cyclic_iff]
  constructor
  · rintro ⟨path, h⟩
    exact h.loops
  · intro h
    obtain ⟨target, hcycles⟩ := Trail.exists_cycles_of_loops (fun _ _ => mem_names_of_link) h
    exact ⟨_, Trail.closesLoop_of_cycles hcycles⟩

theorem mem_names_of_mem_tail {other : String} (h : other ∈ (decls.trail name).path.tail) :
    ∃ spec, decls.spec? other = some spec := by
  rw [Trail.path, List.tail_cons] at h
  exact Option.ne_none_iff_exists'.mp fun hnone =>
    spec?_eq_none_iff.mp hnone (Trail.mem_world_of_mem_later h)

end EnumDeclarations

/-- Resolving a name answers what the chain of first declarations from it does, whatever has been
declared and in whatever order. -/
theorem resolvesAliases (enumeration : String) (declared : List (String × ValueSpec))
    (name : String) : ResolvesAliases enumeration declared name := by
  have hlink := EnumDeclarations.link_ofDeclared enumeration declared
  have hspec := EnumDeclarations.spec?_ofDeclared enumeration declared
  have howner := EnumDeclarations.enumeration_ofDeclared enumeration declared
  constructor
  case bounded =>
    refine ⟨(Trail.nodup_path List.not_mem_nil).1, fun other hother => ?_⟩
    obtain ⟨spec, hfound⟩ := EnumDeclarations.mem_names_of_mem_tail hother
    rw [hspec] at hfound
    exact ⟨spec, EnumDeclarations.exists_mem_of_firstSpec? hfound⟩
  case value_iff =>
    intro value
    rw [EnumDeclarations.valueOf_eq_ok_iff, hlink, hspec]
  case unknown_iff =>
    intro missing owner
    rw [EnumDeclarations.valueOf_eq_unknown_iff, hlink, hspec, howner]
  case cyclic_iff =>
    intro path
    rw [EnumDeclarations.valueOf_eq_cyclic_iff, hlink]
  case loops_iff => rw [EnumDeclarations.exists_cyclic_iff, hlink]
  case answers =>
    rcases EnumDeclarations.valueOf_cases (.ofDeclared enumeration declared) name with
      ⟨value, -, hvalue, -⟩ | ⟨missing, herror, -⟩ | ⟨path, herror, -⟩
    · exact .inl ⟨value, hvalue⟩
    · rw [howner] at herror
      exact .inr (.inl ⟨missing, herror⟩)
    · exact .inr (.inr ⟨path, herror⟩)

/-- The loop need not go through the name. -/
example : (EnumDeclarations.ofDeclared "VkResult"
    [("VK_A", .aliasTo "VK_B"), ("VK_B", .aliasTo "VK_C"), ("VK_A", .number 1),
      ("VK_C", .aliasTo "VK_B")]).valueOf "VK_A" =
    .error (.cyclicAlias ["VK_A", "VK_B", "VK_C", "VK_B"]) := by decide +kernel

end VulkanRegistry
