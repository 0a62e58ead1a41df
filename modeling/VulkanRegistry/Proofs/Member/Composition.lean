/-
How the levels of a member are put together.

The levels of a member are its extents as they are written, and then its stars from the last to
the first, because the last star is the outermost.  The list of lengths (`HasLengths`) runs along
the stars in that order, and the first length that marks text ends the levels: `KeepsLevels` says
how many are left, and each of these is an array, the head of a chain or a plain pointer
(`IsStarLevel`).

`starLevels` goes through the flags of the stars, outermost first, together with the lengths
(`isLeveled_of_starLevels`).  That the flag at its place `n` is the one of the star that has `n`
stars behind it is `getElem?_pointers_reverse`.
-/
import VulkanRegistry.Member.Reading
import VulkanRegistry.Proofs.Declarator
import VulkanRegistry.Proofs.TypeTable.Lookup

namespace VulkanRegistry.Member

open Declarator (Token)

variable {ctx : FieldContext} {field : FieldDecl} {m : Member}

/-- How a field is called in messages. -/
def referrer (ctx : FieldContext) (field : FieldDecl) : String :=
  ctx.owner ++ "." ++ field.name

/-- These are the lengths of a field: those that are listed for C, without such a list those that
are listed otherwise, and none without either. -/
inductive HasLengths (field : FieldDecl) : List String → Prop
  | forC {listed : String} {lengths : List String} (hlisted : field.altlen = some listed)
      (hlengths : Text.IsCommaList listed lengths) : HasLengths field lengths
  | ordinary {listed : String} {lengths : List String} (hforC : field.altlen = none)
      (hlisted : field.len = some listed) (hlengths : Text.IsCommaList listed lengths) :
      HasLengths field lengths
  | unlisted (hforC : field.altlen = none) (hlisted : field.len = none) : HasLengths field []

/-! ### Levels -/

/-- Of so many stars this many are levels: none of them is marked as text, and the next one is,
if there is a next one. -/
def KeepsLevels (lengths : List String) (stars kept : Nat) : Prop :=
  (∀ n < kept, lengths[n]? ≠ some "null-terminated") ∧
    (kept = stars ∨ kept < stars ∧ lengths[kept]? = some "null-terminated")

/-- The field is the head of a chain: its only star has no length, and it is `void* pNext`. -/
def IsChainHead (field : FieldDecl) (lengths : List String) (stars : Nat) : Prop :=
  stars = 1 ∧ lengths = [] ∧ field.name = "pNext" ∧ field.typeName = "void"

/-- What the star at place `n` becomes, counted from the outermost. -/
inductive IsStarLevel (ctx : FieldContext) (field : FieldDecl) (lengths : List String)
    (stars n : Nat) (isConst : Bool) : Modifier → Prop
  | array {expr : String} {length : LengthExpr} (hlength : lengths[n]? = some expr)
      (hread : LengthExpr.read ctx field.name expr = .ok length) :
      IsStarLevel ctx field lengths stars n isConst (.dynamicArray length isConst)
  | chain (h : IsChainHead field lengths stars) :
      IsStarLevel ctx field lengths stars n isConst (.chainPointer isConst)
  | pointer (hlength : lengths.length ≤ n) (h : ¬ IsChainHead field lengths stars) :
      IsStarLevel ctx field lengths stars n isConst (.pointer isConst)

/-- What an extent becomes; its elements are constant if a `const` stands before all stars. -/
def IsArrayLevel (ctx : FieldContext) (field : FieldDecl) (tokens : List Token) (extent : String)
    (level : Modifier) : Prop :=
  ∃ value isConst, ctx.constants.arrayLength extent (referrer ctx field) = .ok value ∧
    (isConst = true ↔ ∃ before ∈ (tokens.splitOn .star).head?, .const ∈ before) ∧
    level = .fixedArray ⟨value, if ctx.constants.contains extent then some extent else none⟩ isConst

/-- The member's levels are `outer` and then `inner`: these are its extents and its stars, with
these lengths. -/
structure Composes (ctx : FieldContext) (field : FieldDecl) (tokens : List Token) (m : Member)
    (lengths : List String) (outer inner : List Modifier) : Prop where
  hasLengths : HasLengths field lengths
  modifiers : m.modifiers = outer ++ inner
  /-- Every extent is a level. -/
  extents : List.Forall₂ (IsArrayLevel ctx field tokens) (tokens.filterMap Token.extent?) outer
  /-- The stars end where the lengths mark text. -/
  kept : KeepsLevels lengths (tokens.count .star) inner.length
  /-- The level with `n` of these around it is that of the star with `n` stars behind it, and it
  is constant if a `const` stands between this star and the one before. -/
  stars : ∀ n level, inner[n]? = some level → ∃ between isConst,
    (tokens.splitOn .star)[tokens.count .star - 1 - n]? = some between ∧
      (isConst = true ↔ .const ∈ between) ∧
      IsStarLevel ctx field lengths (tokens.count .star) n isConst level
  /-- The type is the built-in one of text where stars are left out, and otherwise the one that
  the declared type stands for. -/
  base : (ctx.types.lookup? (if inner.length < tokens.count .star then "string"
    else field.typeName)).map ctx.types.canonical = some m.base
  builtIn : inner.length < tokens.count .star →
    ctx.types.entries.head? = some ⟨"string", none, .base none⟩ → m.base = ⟨0⟩
  isOutput : m.isOutput = true ↔
    m.modifiers.head? = some (.pointer false) ∨
      ∃ length, m.modifiers.head? = some (.dynamicArray length false)
  optional : m.optional = true ↔
    (∃ listed flags, field.optional = some listed ∧ Text.IsCommaList listed flags ∧
      flags.head? = some "true") ∨ ctx.kind = .parameter ∧ m.isOutput = true

/-! ### What is listed -/

theorem hasLengths_lengths (field : FieldDecl) : HasLengths field (lengths field) := by
  unfold lengths
  cases hforC : field.altlen with
  | some listed => exact .forC hforC (Text.map_trimmed_commaPieces_eq_iff.mp rfl)
  | none =>
      cases hlisted : field.len with
      | some listed => exact .ordinary hforC hlisted (Text.map_trimmed_commaPieces_eq_iff.mp rfl)
      | none => exact .unlisted hforC hlisted

theorem marksOptional_iff :
    marksOptional field = true ↔
      ∃ listed flags, field.optional = some listed ∧ Text.IsCommaList listed flags ∧
        flags.head? = some "true" := by
  unfold marksOptional
  cases field.optional with
  | none => simp
  | some listed => simp [← Text.map_trimmed_commaPieces_eq_iff, Option.any_eq_true]

/-! ### The levels of the stars -/

theorem KeepsLevels.succ {lengths : List String} {stars kept : Nat}
    (hhead : lengths.head? ≠ some "null-terminated") (h : KeepsLevels lengths.tail stars kept) :
    KeepsLevels lengths (stars + 1) (kept + 1) := by
  obtain ⟨hbefore, hend⟩ := h
  have htail : ∀ n, lengths.tail[n]? = lengths[n + 1]? := fun n => List.getElem?_tail
  refine ⟨fun n hn => ?_, ?_⟩
  · cases n with
    | zero => rwa [← List.head?_eq_getElem?]
    | succ n => rw [← htail]; exact hbefore n (by omega)
  · rw [← htail]
    rcases hend with hall | ⟨hlt, htext⟩
    · exact .inl (by omega)
    · exact .inr ⟨by omega, htext⟩

/-- What a star becomes where the length in its place is this one, if there is one. -/
inductive IsLevel (ctx : FieldContext) (field : FieldDecl) (lone isConst : Bool) :
    Option String → Modifier → Prop
  | array {expr : String} {length : LengthExpr}
      (hread : LengthExpr.read ctx field.name expr = .ok length) :
      IsLevel ctx field lone isConst (some expr) (.dynamicArray length isConst)
  | plain : IsLevel ctx field lone isConst none (plainLevel field lone isConst)

/-- The stars with these flags are left with these levels; `isText` says that some are left out. -/
structure IsLeveled (ctx : FieldContext) (field : FieldDecl) (lone : Bool) (flags : List Bool)
    (lengths : List String) (levels : List Modifier) (isText : Bool) : Prop where
  kept : KeepsLevels lengths flags.length levels.length
  isText_iff : isText = true ↔ levels.length < flags.length
  isLevel : ∀ (n : Nat) (level : Modifier), levels[n]? = some level →
    ∃ isConst, flags[n]? = some isConst ∧ IsLevel ctx field lone isConst lengths[n]? level

/-- One more level outside. -/
theorem IsLeveled.cons {lone isText isConst : Bool} {flags : List Bool} {lengths : List String}
    {level : Modifier} {levels : List Modifier}
    (hhead : lengths.head? ≠ some "null-terminated")
    (hlevel : IsLevel ctx field lone isConst lengths.head? level)
    (h : IsLeveled ctx field lone flags lengths.tail levels isText) :
    IsLeveled ctx field lone (isConst :: flags) lengths (level :: levels) isText where
  kept := h.kept.succ hhead
  isText_iff := by simpa using h.isText_iff
  isLevel := by
    intro n found hfound
    cases n with
    | zero =>
        obtain rfl : level = found := by simpa using hfound
        rw [List.head?_eq_getElem?] at hlevel
        exact ⟨isConst, rfl, hlevel⟩
    | succ n =>
        have htail : lengths.tail[n]? = lengths[n + 1]? := List.getElem?_tail
        rw [← htail]
        exact h.isLevel n found hfound

theorem isLeveled_of_starLevels {lone isText : Bool} {flags : List Bool} {lengths : List String}
    {levels : List Modifier} (h : starLevels ctx field lone flags lengths = .ok (levels, isText)) :
    IsLeveled ctx field lone flags lengths levels isText := by
  induction flags generalizing lengths levels isText with
  | nil =>
      rw [starLevels] at h
      cases h
      exact ⟨⟨by simp, .inl rfl⟩, by simp, by simp⟩
  | cons isConst inner ih =>
      cases lengths with
      | nil =>
          rw [starLevels, Outcome.bind_eq_ok] at h
          obtain ⟨⟨rest, isText'⟩, hrest, h⟩ := h
          cases h
          exact IsLeveled.cons (by simp) .plain (ih hrest)
      | cons length lengths =>
          rw [starLevels] at h
          split at h
          · next htext =>
              cases h
              exact ⟨⟨by simp, .inr ⟨by simp, by simp [htext, textLength]⟩⟩, by simp, by simp⟩
          · next hplain =>
              obtain ⟨read, hread, h⟩ := Outcome.bind_eq_ok.mp h
              obtain ⟨⟨rest, isText'⟩, hrest, h⟩ := Outcome.bind_eq_ok.mp h
              cases h
              exact IsLeveled.cons (by simpa [textLength] using hplain) (.array hread) (ih hrest)

theorem IsLevel.isStarLevel {lengths : List String} {stars n : Nat} {isConst : Bool}
    {level : Modifier} (h : IsLevel ctx field (stars == 1) isConst lengths[n]? level)
    (hn : n < stars) : IsStarLevel ctx field lengths stars n isConst level := by
  generalize hlength : lengths[n]? = length? at h
  cases h with
  | array hread => exact .array hlength hread
  | plain =>
      have hle : lengths.length ≤ n := List.getElem?_eq_none_iff.mp hlength
      have hchain : (stars == 1 && field.name == chainMember && field.typeName == chainElement) = true ↔
          IsChainHead field lengths stars := by
        simp only [Bool.and_eq_true, beq_iff_eq, and_assoc, IsChainHead]
        constructor
        · intro h
          obtain ⟨hstars, hfield⟩ := h
          exact ⟨hstars, List.length_eq_zero_iff.mp (by omega), hfield⟩
        · intro h
          exact ⟨h.1, h.2.2⟩
      unfold plainLevel
      split
      · next h => exact .chain (hchain.mp h)
      · next h => exact .pointer hle (hchain.not.mp h)

/-- The flag at place `n`, counted from the last star, is that of the star with `n` behind it. -/
theorem getElem?_pointers_reverse {tokens : List Token} {n : Nat} {isConst : Bool}
    (h : (Declarator.ofTokens tokens).pointers.reverse[n]? = some isConst) :
    ∃ between, (tokens.splitOn .star)[tokens.count .star - 1 - n]? = some between ∧
      (isConst = true ↔ .const ∈ between) := by
  have hn : n < (Declarator.ofTokens tokens).pointers.length := by
    simpa using (List.getElem?_eq_some_iff.mp h).1
  rw [List.getElem?_reverse hn, Declarator.length_pointers, Declarator.pointers_ofTokens,
    List.getElem?_map, Option.map_eq_some_iff] at h
  obtain ⟨between, hbetween, rfl⟩ := h
  rw [List.getElem?_dropLast] at hbetween
  split at hbetween
  · exact ⟨between, hbetween, List.contains_iff_mem⟩
  · cases hbetween

/-! ### The member as a whole -/

theorem isArrayLevel_of_extentLevel {tokens : List Token} {extent : String} {level : Modifier}
    (h : extentLevel ctx (referrer ctx field) (Declarator.ofTokens tokens).constElement extent =
      .ok level) : IsArrayLevel ctx field tokens extent level := by
  obtain ⟨value, hvalue, h⟩ := Outcome.bind_eq_ok.mp h
  cases h
  refine ⟨value, _, hvalue, ?_, rfl⟩
  rw [Declarator.constElement_ofTokens]
  cases (tokens.splitOn .star).head? <;> simp

theorem head?_any_isOutput {levels : List Modifier} :
    levels.head?.any Modifier.isOutput = true ↔
      levels.head? = some (.pointer false) ∨
        ∃ length, levels.head? = some (.dynamicArray length false) := by
  cases levels with
  | nil => simp
  | cons level levels => cases level <;> simp [Modifier.isOutput]

/-- The built-in type of text is found where a table starts with it. -/
theorem map_canonical_lookup?_string {types : TypeTable}
    (h : types.entries.head? = some ⟨"string", none, .base none⟩) :
    (types.lookup? "string").map types.canonical = some ⟨0⟩ := by
  obtain ⟨entries⟩ := types
  obtain ⟨rest, rfl⟩ := List.head?_eq_some_iff.mp h
  rfl

theorem composes_of_ofField {tokens : List Token} (h : ofField ctx field = .ok m)
    (htokens : Declarator.Spells field.declarator.toList tokens) :
    ∃ lengths outer inner, Composes ctx field tokens m lengths outer inner := by
  obtain ⟨declarator, hparse, h⟩ := Outcome.bind_eq_ok.mp h
  obtain ⟨outer, houter, h⟩ := Outcome.bind_eq_ok.mp h
  obtain ⟨⟨inner, isText⟩, hinner, h⟩ := Outcome.bind_eq_ok.mp h
  obtain ⟨base, hbase, h⟩ := Outcome.bind_eq_ok.mp h
  cases h
  obtain ⟨tokens', htokens', rfl⟩ := Declarator.parse_eq_ok_iff.mp hparse
  -- A text spells one sequence of tokens only, so these are the ones that were read.
  obtain rfl := htokens'.unique htokens
  obtain ⟨hkept, htext, hlevels⟩ := isLeveled_of_starLevels hinner
  rw [List.length_reverse, Declarator.length_pointers] at hkept htext
  refine ⟨lengths field, outer, inner, {
    hasLengths := hasLengths_lengths field
    modifiers := rfl
    extents := ?_
    kept := hkept
    stars := ?_
    base := ?_
    builtIn := ?_
    isOutput := head?_any_isOutput
    optional := ?_ }⟩
  · exact (Outcome.mapM_eq_ok_iff_forall₂.mp houter).imp fun _ _ => isArrayLevel_of_extentLevel
  · intro n level hlevel
    obtain ⟨isConst, hflag, hstar⟩ := hlevels n level hlevel
    obtain ⟨between, hbetween, hconst⟩ := getElem?_pointers_reverse hflag
    have hn : n < tokens'.count .star := by
      simpa using (List.getElem?_eq_some_iff.mp hflag).1
    rw [Declarator.length_pointers] at hstar
    exact ⟨between, isConst, hbetween, hconst, hstar.isStarLevel hn⟩
  · simp only [← htext]
    exact TypeTable.resolve_eq_ok.mp hbase
  · intro hlt hhead
    have hresolve := TypeTable.resolve_eq_ok.mp hbase
    rw [if_pos (htext.mpr hlt)] at hresolve
    exact Option.some.inj (hresolve.symm.trans (map_canonical_lookup?_string hhead))
  · simp only [Bool.or_eq_true, Bool.and_eq_true, beq_iff_eq, marksOptional_iff]

/-- Where a member is read, its declarator is a sequence of tokens, and the member is put together
from these: from extents as they are written, and from the stars, last to first, up to the one
that is marked as text. -/
theorem ofField_composes {ctx : FieldContext} {field : FieldDecl} {m : Member}
    (h : ofField ctx field = .ok m) :
    (∃ tokens, Declarator.Spells field.declarator.toList tokens) ∧
    ∀ tokens, Declarator.Spells field.declarator.toList tokens →
      ∃ lengths outer inner, Composes ctx field tokens m lengths outer inner := by
  obtain ⟨declarator, hparse, -⟩ := Outcome.bind_eq_ok.mp h
  obtain ⟨tokens, htokens, -⟩ := Declarator.parse_eq_ok_iff.mp hparse
  exact ⟨⟨tokens, htokens⟩, fun tokens htokens => composes_of_ofField h htokens⟩

/-- An array of texts, counted by the parameter in front of it. -/
def namesField : FieldDecl :=
  { name := "ppNames", typeName := "char", declarator := "* const *const * [2]"
    len := some "count, null-terminated" }

def namesContext : FieldContext :=
  { owner := "vkNames", kind := .parameter
    siblings := [{ name := "count", typeName := "uint32_t" }, namesField]
    types := ⟨[⟨"string", none, .base none⟩, ⟨"char", some { name := "char" }, .base none⟩]⟩
    constants := .empty }

/-- Of the three stars the last is counted and constant, and the two others are text. -/
theorem composes_namesField :
    ∃ m, ofField namesContext namesField = .ok m ∧ m.base = ⟨0⟩ ∧
      m.modifiers = [.fixedArray ⟨2, none⟩ false,
        .dynamicArray ⟨"count", [.field ⟨"count", []⟩ false]⟩ true] ∧
      ∃ tokens lengths outer inner, Declarator.Spells namesField.declarator.toList tokens ∧
        Composes namesContext namesField tokens m lengths outer inner := by
  have hany : (ofField namesContext namesField).toOption.any (fun m =>
      m.base == ⟨0⟩ && m.modifiers == [.fixedArray ⟨2, none⟩ false,
        .dynamicArray ⟨"count", [.field ⟨"count", []⟩ false]⟩ true]) = true := by
    decide +kernel
  obtain ⟨m, hm, hchecks⟩ := Outcome.exists_ok_of_any hany
  rw [Bool.and_eq_true, beq_iff_eq, beq_iff_eq] at hchecks
  obtain ⟨⟨tokens, htokens⟩, hall⟩ := ofField_composes hm
  obtain ⟨lengths, outer, inner, hcomposes⟩ := hall tokens htokens
  exact ⟨m, hm, hchecks.1, hchecks.2, tokens, lengths, outer, inner, htokens, hcomposes⟩

end VulkanRegistry.Member
