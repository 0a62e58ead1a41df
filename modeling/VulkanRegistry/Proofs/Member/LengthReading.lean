/-
Length expressions are resolved and lossless.

`FieldDecl.LeadsTo` relates a field to the field that a sequence of names ends at: every name is
that of a member of the declaration behind the type of the field before.  A path ends at a field
if its head is a sibling that leads there, and an expression is read if and only if each of its
references ends at a field or names a constant (`exists_read_iff`).  The names of a length that
was read are in order what the references are resolved to (`resolved_of_read`), and its parts
written side by side are the expression (`written_of_read`).
-/
import VulkanRegistry.Proofs.Member.LengthScan
import VulkanRegistry.Proofs.Outcome
import VulkanRegistry.Proofs.TypeTable.Lookup

namespace VulkanRegistry

/-! ### Fields by their names -/

/-- The field is the first of its name. -/
def IsFirstNamed (fields : List FieldDecl) (name : String) (field : FieldDecl) : Prop :=
  ∃ before behind, fields = before ++ field :: behind ∧ field.name = name ∧
    ∀ other ∈ before, other.name ≠ name

/-- The field's type stands for a declared type whose first member of the name is `next`. -/
def FieldDecl.StepsTo (types : TypeTable) (field : FieldDecl) (name : String)
    (next : FieldDecl) : Prop :=
  ∃ id decl, types.lookup? field.typeName = some id ∧
    types.decl? (types.canonical id) = some decl ∧ IsFirstNamed decl.members name next

/-- From a field the names lead, one after the other, to `last`. -/
inductive FieldDecl.LeadsTo (types : TypeTable) : FieldDecl → List String → FieldDecl → Prop
  | refl (field : FieldDecl) : LeadsTo types field [] field
  | step {field next last : FieldDecl} {name : String} {names : List String}
      (hstep : field.StepsTo types name next) (h : LeadsTo types next names last) :
      LeadsTo types field (name :: names) last

theorem findField?_eq_some_iff {fields : List FieldDecl} {name : String} {field : FieldDecl} :
    findField? fields name = some field ↔ IsFirstNamed fields name field := by
  rw [findField?, List.find?_eq_some_iff_append]
  constructor
  · intro h
    obtain ⟨hname, before, behind, heq, hbefore⟩ := h
    exact ⟨before, behind, heq, by simpa using hname, fun other hother => by
      simpa using hbefore other hother⟩
  · intro h
    obtain ⟨before, behind, heq, hname, hbefore⟩ := h
    exact ⟨by simpa using hname, before, behind, heq, fun other hother => by
      simpa using hbefore other hother⟩

theorem findField?_eq_none_iff {fields : List FieldDecl} {name : String} :
    findField? fields name = none ↔ ∀ field ∈ fields, field.name ≠ name := by
  simp [findField?]

theorem IsFirstNamed.mem {fields : List FieldDecl} {name : String} {field : FieldDecl}
    (h : IsFirstNamed fields name field) : field ∈ fields ∧ field.name = name := by
  obtain ⟨before, behind, rfl, hname, -⟩ := h
  exact ⟨by simp, hname⟩

theorem ConstantTable.contains_iff {table : ConstantTable} {name : String} :
    table.contains name = true ↔ ∃ constant ∈ table.entries, constant.name = name := by
  simp [ConstantTable.contains, ConstantTable.get?]

namespace LengthExpr

variable {ctx : FieldContext} {expr member : String} {path : FieldPath}

/-- The path starts at a sibling and leads to `last`. -/
def EndsAt (ctx : FieldContext) (path : FieldPath) (last : FieldDecl) : Prop :=
  ∃ sibling, IsFirstNamed ctx.siblings path.head sibling ∧
    sibling.LeadsTo ctx.types (path.steps.map (·.2)) last

/-- The path is a single name, of a constant and of no sibling. -/
def NamesConstant (ctx : FieldContext) (path : FieldPath) : Prop :=
  path.steps = [] ∧ (∀ sibling ∈ ctx.siblings, sibling.name ≠ path.head) ∧
    ∃ constant ∈ ctx.constants.entries, constant.name = path.head

/-- What the path stands for. -/
inductive ResolvesTo (ctx : FieldContext) (path : FieldPath) : LengthToken → Prop
  | field {last : FieldDecl} {deref : Bool} (hlast : EndsAt ctx path last)
      (hderef : deref = true ↔ '*' ∈ last.declarator.toList) : ResolvesTo ctx path (.field path deref)
  | constant (h : NamesConstant ctx path) : ResolvesTo ctx path (.constant path.head)

/-! ### Resolving one reference -/

theorem stepInto_eq_ok {unresolved : RegistryError} {field next : FieldDecl} {name : String} :
    stepInto ctx unresolved field name = .ok next ↔ field.StepsTo ctx.types name next := by
  rw [stepInto, Outcome.bind_eq_ok]
  constructor
  · intro h
    obtain ⟨canonical, hresolve, h⟩ := h
    obtain ⟨id, hid, rfl⟩ := Option.map_eq_some_iff.mp (TypeTable.resolve_eq_ok.mp hresolve)
    split at h
    · next found hfound =>
        cases h
        obtain ⟨decl, hdecl, hnext⟩ := Option.bind_eq_some_iff.mp hfound
        exact ⟨id, decl, hid, hdecl, findField?_eq_some_iff.mp hnext⟩
    · cases h
  · intro h
    obtain ⟨id, decl, hid, hdecl, hnext⟩ := h
    refine ⟨ctx.types.canonical id, TypeTable.resolve_eq_ok.mpr (by rw [hid]; rfl), ?_⟩
    have hfound : (ctx.types.decl? (ctx.types.canonical id)).bind (findField? ·.members name) =
        some next :=
      Option.bind_eq_some_iff.mpr ⟨decl, hdecl, findField?_eq_some_iff.mpr hnext⟩
    simp only [hfound]
    rfl

theorem foldlM_stepInto_eq_ok {unresolved : RegistryError} {steps : List (PathStep × String)}
    {field last : FieldDecl} :
    steps.foldlM (fun field (_, name) => stepInto ctx unresolved field name) field = .ok last ↔
      field.LeadsTo ctx.types (steps.map (·.2)) last := by
  induction steps generalizing field with
  | nil =>
      rw [Outcome.foldlM_nil_eq_ok]
      constructor
      · intro h
        rw [← h]
        exact .refl field
      · intro h
        cases h
        rfl
  | cons step steps ih =>
      rw [Outcome.foldlM_cons_eq_ok]
      constructor
      · intro h
        obtain ⟨next, hstep, h⟩ := h
        exact .step (stepInto_eq_ok.mp hstep) (ih.mp h)
      · intro h
        cases h with
        | step hstep h => exact ⟨_, stepInto_eq_ok.mpr hstep, ih.mpr h⟩

theorem resolveReference_eq_ok {token : LengthToken} :
    resolveReference ctx expr member path = .ok token ↔ ResolvesTo ctx path token := by
  unfold resolveReference
  dsimp only
  split
  · next sibling hsibling =>
      rw [Outcome.bind_eq_ok]
      constructor
      · intro h
        obtain ⟨last, hlast, h⟩ := h
        cases h
        exact .field ⟨sibling, findField?_eq_some_iff.mp hsibling, foldlM_stepInto_eq_ok.mp hlast⟩
          List.contains_iff_mem
      · intro h
        cases h with
        | @field last deref hlast hderef =>
            obtain ⟨sibling', hsibling', hlast⟩ := hlast
            rw [← findField?_eq_some_iff, hsibling] at hsibling'
            cases hsibling'
            refine ⟨last, foldlM_stepInto_eq_ok.mpr hlast, ?_⟩
            rw [Outcome.pure_eq_ok, Bool.eq_iff_iff.mpr (List.contains_iff_mem.trans hderef.symm)]
        | constant h =>
            rw [findField?_eq_none_iff.mpr h.2.1] at hsibling
            cases hsibling
  · next hsibling =>
      constructor
      · intro h
        split at h
        · next hconstant =>
            cases h
            rw [Bool.and_eq_true, List.isEmpty_iff, ConstantTable.contains_iff] at hconstant
            exact .constant ⟨hconstant.1, findField?_eq_none_iff.mp hsibling, hconstant.2⟩
        · cases h
      · intro h
        cases h with
        | field hlast =>
            obtain ⟨sibling, hfirst, -⟩ := hlast
            rw [findField?_eq_some_iff.mpr hfirst] at hsibling
            cases hsibling
        | constant h =>
            have hconstant : (path.steps.isEmpty && ctx.constants.contains path.head) = true := by
              rw [Bool.and_eq_true, List.isEmpty_iff, ConstantTable.contains_iff]
              exact ⟨h.1, h.2.2⟩
            rw [if_pos hconstant]

/-! ### Reading an expression -/

/-- A part as it stands in the expression. -/
def tokenSource : LengthToken → String
  | .text text => text
  | .field path _ => path.toString
  | .constant name => name

theorem ResolvesTo.tokenSource_eq {token : LengthToken} (h : ResolvesTo ctx path token) :
    tokenSource token = path.toString := by
  cases h with
  | field => rfl
  | constant h =>
      obtain ⟨head, steps⟩ := path
      obtain rfl : steps = [] := h.1
      simp [tokenSource, FieldPath.toString]

theorem tokenSource_of_resolvePiece {piece : Piece} {token : LengthToken}
    (h : resolvePiece ctx expr member piece = .ok token) :
    (tokenSource token).toList = piece.spelling := by
  cases piece with
  | text text =>
      cases h
      exact String.toList_ofList
  | reference path => rw [(resolveReference_eq_ok.mp h).tokenSource_eq]; rfl

theorem read_eq_ok {length : LengthExpr} :
    read ctx member expr = .ok length ↔
      length.source = expr ∧
        (cut expr.toList).mapM (resolvePiece ctx expr member) = .ok length.tokens := by
  rw [read, Outcome.bind_eq_ok]
  constructor
  · intro h
    obtain ⟨tokens, htokens, h⟩ := h
    cases h
    exact ⟨rfl, htokens⟩
  · intro h
    obtain ⟨hsource, htokens⟩ := h
    refine ⟨length.tokens, htokens, ?_⟩
    rw [Outcome.pure_eq_ok, ← hsource]

/-- The parts of a length side by side are the expression. -/
theorem written_of_read {length : LengthExpr} (h : read ctx member expr = .ok length) :
    String.join (length.tokens.map tokenSource) = expr := by
  obtain ⟨-, htokens⟩ := read_eq_ok.mp h
  obtain ⟨lexemes, hscans⟩ := exists_scans expr.toList
  have hmap : length.tokens.map (fun token => (tokenSource token).toList) =
      (cut expr.toList).map Piece.spelling :=
    Outcome.map_eq_of_mapM (fun _ _ _ => tokenSource_of_resolvePiece) htokens
  have hflat : (length.tokens.map fun token => (tokenSource token).toList).flatten = expr.toList := by
    rw [hmap, ← List.flatMap_def, cut_of_scans hscans, spelling_piecesOf, spelling_of_scans hscans]
  rw [← String.toList_inj, String.toList_join, List.flatMap_map, List.flatMap_def]
  exact hflat

/-- The part is a field or a constant. -/
def isName : LengthToken → Bool
  | .text _ => false
  | _ => true

theorem ResolvesTo.isName_eq_true {token : LengthToken} (h : ResolvesTo ctx path token) :
    isName token = true := by
  cases h <;> rfl

/-- The names in a length are in order what the references of the expression stand for. -/
theorem resolved_of_read {length : LengthExpr} {lexemes : List Lexeme}
    (hscans : Scans expr.toList lexemes) (h : read ctx member expr = .ok length) :
    List.Forall₂ (ResolvesTo ctx) (references lexemes) (length.tokens.filter isName) := by
  have htokens := Outcome.mapM_eq_ok_iff_forall₂.mp (read_eq_ok.mp h).2
  rw [references_of_scans hscans]
  generalize cut expr.toList = pieces, length.tokens = tokens at htokens
  induction htokens with
  | nil => exact .nil
  | @cons piece token pieces tokens hpiece _ ih =>
      cases piece with
      | text text =>
          cases hpiece
          exact ih
      | reference path =>
          have hresolves := resolveReference_eq_ok.mp hpiece
          rw [List.filter_cons_of_pos hresolves.isName_eq_true]
          exact .cons hresolves ih

/-- An expression is read if and only if all of its references stand for something. -/
theorem exists_read_iff {lexemes : List Lexeme} (hscans : Scans expr.toList lexemes) :
    (∃ length, read ctx member expr = .ok length) ↔
      ∀ path ∈ references lexemes, ∃ token, ResolvesTo ctx path token := by
  constructor
  · intro h path hpath
    obtain ⟨length, hread⟩ := h
    obtain ⟨token, -, htoken⟩ :=
      Outcome.exists_mem_of_mapM (read_eq_ok.mp hread).2 ((mem_references_iff hscans).mp hpath)
    exact ⟨token, resolveReference_eq_ok.mp htoken⟩
  · intro h
    have hpieces : ∀ piece ∈ cut expr.toList, ∃ token,
        resolvePiece ctx expr member piece = .ok token := by
      intro piece hpiece
      cases piece with
      | text text => exact ⟨_, rfl⟩
      | reference path =>
          obtain ⟨token, htoken⟩ := h path ((mem_references_iff hscans).mpr hpiece)
          exact ⟨token, resolveReference_eq_ok.mpr htoken⟩
    obtain ⟨tokens, htokens⟩ := Outcome.exists_mapM_eq_ok hpieces
    exact ⟨⟨expr, tokens⟩, read_eq_ok.mpr ⟨rfl, htokens⟩⟩

theorem exists_resolvesTo_iff :
    (∃ token, ResolvesTo ctx path token) ↔ (∃ last, EndsAt ctx path last) ∨ NamesConstant ctx path := by
  constructor
  · intro h
    obtain ⟨token, h⟩ := h
    cases h with
    | field hlast => exact .inl ⟨_, hlast⟩
    | constant h => exact .inr h
  · intro h
    rcases h with ⟨last, hlast⟩ | h
    · exact ⟨_, .field hlast (decide_eq_true_iff (p := '*' ∈ last.declarator.toList))⟩
    · exact ⟨_, .constant h⟩

/-- A length is one sibling if and only if the expression is an identifier and names it. -/
theorem sibling?_eq_some_iff {length : LengthExpr} (h : read ctx member expr = .ok length)
    {name : String} :
    length.sibling? = some name ↔
      name = expr ∧ IsIdentifier name.toList ∧ ∃ sibling ∈ ctx.siblings, sibling.name = name := by
  obtain ⟨lexemes, hscans⟩ := exists_scans expr.toList
  have hresolved := resolved_of_read hscans h
  have hwritten := written_of_read h
  constructor
  · intro hsibling
    obtain ⟨deref, htokens⟩ : ∃ deref, length.tokens = [.field ⟨name, []⟩ deref] := by
      unfold sibling? at hsibling
      split at hsibling
      · next deref htokens =>
          cases hsibling
          exact ⟨deref, htokens⟩
      · cases hsibling
    -- The only part is the only name, so the only reference is an identifier and the expression.
    rw [htokens] at hresolved hwritten
    obtain ⟨path, paths, hpath, -, hreferences⟩ := List.forall₂_cons_right_iff.mp hresolved
    cases hpath with
    | field hlast =>
        obtain ⟨sibling, hfirst, -⟩ := hlast
        have hidentifier := (isPath_of_scans hscans ⟨name, []⟩ (by simp [hreferences])).head
        exact ⟨by simpa [tokenSource, FieldPath.toString] using hwritten, hidentifier, sibling,
          hfirst.mem⟩
  · intro hname
    obtain ⟨rfl, hidentifier, sibling, hsibling, hnamed⟩ := hname
    have htokens := Outcome.mapM_eq_ok_iff_forall₂.mp (read_eq_ok.mp h).2
    rw [cut_of_scans (scans_identifier hidentifier)] at htokens
    obtain ⟨token, tokens, htoken, hnil, heq⟩ := List.forall₂_cons_left_iff.mp htokens
    rw [List.forall₂_nil_left_iff.mp hnil] at heq
    unfold sibling?
    rw [heq]
    cases resolveReference_eq_ok.mp htoken with
    | field => rfl
    | constant hconstant => exact absurd hnamed (hconstant.2.1 sibling hsibling)

/-! ### The reading as a whole -/

/-- Every expression has parts, and by these it is known what becomes of it.  It is read if and
only if each reference leads from a sibling to a field or is the name of a constant and of no
sibling.  Then nothing of it is lost, its references have become fields and constants in their
order, a field that is declared with a star is one to dereference, and the length is a sibling
exactly where the expression is an identifier that a sibling has for its name. -/
theorem read_lossless (ctx : FieldContext) (member expr : String) :
    (∃ lexemes, Scans expr.toList lexemes) ∧
    ∀ lexemes, Scans expr.toList lexemes →
      ((∃ length, read ctx member expr = .ok length) ↔
        ∀ path ∈ references lexemes, (∃ last, EndsAt ctx path last) ∨ NamesConstant ctx path) ∧
      ∀ length, read ctx member expr = .ok length →
        String.join (length.tokens.map tokenSource) = expr ∧
        List.Forall₂ (ResolvesTo ctx) (references lexemes) (length.tokens.filter isName) ∧
        ∀ name, length.sibling? = some name ↔
          name = expr ∧ IsIdentifier name.toList ∧ ∃ sibling ∈ ctx.siblings, sibling.name = name := by
  refine ⟨exists_scans expr.toList, fun lexemes hscans => ⟨?_, fun length h => ?_⟩⟩
  · simp only [exists_read_iff hscans, exists_resolvesTo_iff]
  · exact ⟨written_of_read h, resolved_of_read hscans h, fun name => sibling?_eq_some_iff h⟩

/-- The fields around an array whose length is read through a pointer. -/
def arrayContext : FieldContext :=
  { owner := "VkArray"
    kind := .member
    siblings :=
      [{ name := "pInfo", typeName := "VkInfoKHR", declarator := "*" },
       { name := "4", typeName := "uint32_t" }]
    types :=
      ⟨[⟨"VkInfo", some
          { name := "VkInfo", members := [{ name := "pCount", typeName := "uint32_t", declarator := "*" }] },
          .struct ⟨[], false, [], []⟩⟩,
        ⟨"VkInfoKHR", some { name := "VkInfoKHR", aliasOf := some "VkInfo" }, .aliasTo ⟨0⟩⟩]⟩
    constants := ⟨[⟨"VK_UUID_SIZE", "16U", some 16, none, none⟩]⟩ }

/-- A path goes through the alias of a struct, and the suffix of a number is no reference. -/
theorem lossless_arrayContext :
    ∃ lexemes length, Scans "pInfo->pCount*VK_UUID_SIZE/2U".toList lexemes ∧
      read arrayContext "pData" "pInfo->pCount*VK_UUID_SIZE/2U" = .ok length ∧
      String.join (length.tokens.map tokenSource) = "pInfo->pCount*VK_UUID_SIZE/2U" ∧
      length.tokens =
        [.field ⟨"pInfo", [(.pointee, "pCount")]⟩ true, .text "*", .constant "VK_UUID_SIZE",
         .text "/2U"] ∧
      List.Forall₂ (ResolvesTo arrayContext) (references lexemes) (length.tokens.filter isName) := by
  obtain ⟨⟨lexemes, hscans⟩, hall⟩ :=
    read_lossless arrayContext "pData" "pInfo->pCount*VK_UUID_SIZE/2U"
  have hany : (read arrayContext "pData" "pInfo->pCount*VK_UUID_SIZE/2U").toOption.any
      (·.tokens == [.field ⟨"pInfo", [(.pointee, "pCount")]⟩ true, .text "*",
        .constant "VK_UUID_SIZE", .text "/2U"]) = true := by
    decide +kernel
  obtain ⟨length, hread, htokens⟩ := Outcome.exists_ok_of_any hany
  obtain ⟨hwritten, hresolved, -⟩ := (hall lexemes hscans).2 length hread
  exact ⟨lexemes, length, hscans, hread, hwritten, beq_iff_eq.mp htokens, hresolved⟩

/-- A number is text even where a sibling has it for its name. -/
theorem numberName_not_sibling :
    ¬ ∀ length, read arrayContext "pData" "4" = .ok length →
        ∀ name, length.sibling? = some name ↔
          name = "4" ∧ ∃ sibling ∈ arrayContext.siblings, sibling.name = name := by
  intro h
  have hany : (read arrayContext "pData" "4").toOption.any (·.sibling? == none) = true := by
    decide +kernel
  obtain ⟨length, hread, hsibling⟩ := Outcome.exists_ok_of_any hany
  have hsome := (h length hread "4").mpr ⟨rfl, { name := "4", typeName := "uint32_t" }, by
    simp [arrayContext], rfl⟩
  rw [hsome] at hsibling
  cases hsibling

end LengthExpr

end VulkanRegistry
