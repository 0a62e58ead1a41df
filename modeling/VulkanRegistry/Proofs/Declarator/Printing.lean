/-
Declarators and their texts.

A text is a declarator if and only if it spells tokens, and the parts of the declarator are
told by the tokens alone (`OfTokens`).  In the other direction, flags, extents and a width are
printed as one star, one pair of brackets or one colon each; what is printed spells the tokens
that these parts call for, so it is read as the same parts again (`parse_print`).
-/
import VulkanRegistry.Proofs.Declarator.Slicing

namespace VulkanRegistry.Declarator

open Text

/-! ### The parts -/

/-- The parts of a declarator, told by its tokens. -/
structure OfTokens (tokens : List Token) (declarator : Declarator) : Prop where
  /-- The tokens between each star and the star before it decide the flag. -/
  pointers : declarator.pointers = (tokens.splitOn .star).dropLast.map (·.contains .const)
  one_per_star : declarator.pointers.length = tokens.count .star
  extents : declarator.extents = tokens.filterMap Token.extent?
  last_width : declarator.bits = (tokens.filterMap Token.width?).getLast?
  constElement : declarator.constElement =
    declarator.pointers.head?.getD (tokens.contains .const)

theorem ofTokens_iff {tokens : List Token} {declarator : Declarator} :
    OfTokens tokens declarator ↔ ofTokens tokens = declarator := by
  constructor
  · rintro ⟨hpointers, -, hextents, hbits, hconst⟩
    rw [← pointers_ofTokens] at hpointers
    rw [hpointers] at hconst
    cases declarator
    cases hpointers
    cases hextents
    cases hbits
    cases hconst
    rfl
  · rintro rfl
    exact ⟨pointers_ofTokens tokens, length_pointers tokens, rfl, rfl, rfl⟩

theorem spells_trim_iff {cs : List Char} {tokens : List Token} :
    Spells (trim cs) tokens ↔ Spells cs tokens :=
  calc Spells (trim cs) tokens ↔ tokenize (trim cs) = .ok tokens :=
        ⟨tokenize_of_spells, spells_of_tokenize⟩
    _ ↔ Spells cs tokens := tokenize_trim_eq_ok_iff

theorem parse_eq_ok_iff_ofTokens {source owner : String} {declarator : Declarator} :
    parse source owner = .ok declarator ↔
      ∃ tokens, Spells (trim source.toList) tokens ∧ OfTokens tokens declarator := by
  simp only [parse_eq_ok_iff, spells_trim_iff, ofTokens_iff]

/-! ### Printing -/

/-- An extent that brackets can hold: no closing bracket in it, and no blanks around it. -/
structure IsExtent (extent : String) : Prop where
  no_bracket : ']' ∉ extent.toList
  no_blank_first : ∀ c ∈ extent.toList.head?, isBlank c = false
  no_blank_last : ∀ c ∈ extent.toList.getLast?, isBlank c = false

/-- The text of a star, with the flag in front of it. -/
def starText (flag : Bool) : List Char :=
  (if flag then "const".toList else []) ++ ['*']

/-- The text of an extent. -/
def extentText (extent : String) : List Char :=
  '[' :: (extent.toList ++ [']'])

/-- The text of a width. -/
def widthText (bits : Nat) : List Char :=
  ':' :: Nat.toDigits 10 bits

/-- A text for the parts of a declarator. -/
def print (flags : List Bool) (extents : List String) (bits : Option Nat) : String :=
  String.ofList
    (flags.flatMap starText ++ (extents.flatMap extentText ++ bits.toList.flatMap widthText))

/-- The tokens of a star, with the flag in front of it. -/
def starTokens (flag : Bool) : List Token :=
  (if flag then [.const] else []) ++ [.star]

/-- The tokens of what is printed for the parts of a declarator. -/
def printedTokens (flags : List Bool) (extents : List String) (bits : Option Nat) : List Token :=
  flags.flatMap starTokens ++
    (extents.map (fun extent => .extent extent.toList) ++ bits.toList.map .width)

theorem Spells.append {cs cs' : List Char} {tokens tokens' : List Token} (h : Spells cs tokens)
    (h' : Spells cs' tokens') : Spells (cs ++ cs') (tokens ++ tokens') := by
  induction h with
  | nil => exact h'
  | blank hc _ ih => exact .blank hc ih
  | token htoken _ ih =>
      rw [List.append_assoc]
      exact .token htoken ih

theorem Spells.flatMap {α : Type} {text : α → List Char} {tokens : α → List Token} {items : List α}
    (h : ∀ item ∈ items, Spells (text item) (tokens item)) :
    Spells (items.flatMap text) (items.flatMap tokens) := by
  induction items with
  | nil => exact .nil
  | cons item items ih =>
      rw [List.flatMap_cons, List.flatMap_cons]
      exact (h item (by simp)).append (ih fun other hother => h other (by simp [hother]))

theorem Token.Spelled.spells {token : Token} {text : List Char} (h : token.Spelled text) :
    Spells text [token] := by
  rw [← List.append_nil text]
  exact .token h .nil

theorem spells_starText (flag : Bool) : Spells (starText flag) (starTokens flag) := by
  cases flag with
  | false => exact Token.Spelled.star.spells
  | true => exact Token.Spelled.const.spells.append Token.Spelled.star.spells

theorem spells_extentText {extent : String} (h : IsExtent extent) :
    Spells (extentText extent) [.extent extent.toList] := by
  have hspelled := Token.Spelled.extent h.no_bracket
  rw [trim_eq_self h.no_blank_first h.no_blank_last] at hspelled
  exact hspelled.spells

theorem spells_widthText {bits : Nat} (h : bits < UInt32.size) :
    Spells (widthText bits) [.width bits] := by
  have hvalue : Nat.ofDigitChars 10 (Nat.toDigits 10 bits) 0 = bits := Nat.ofDigitChars_ten_toDigits
  have hdigits : ∀ c ∈ Nat.toDigits 10 bits, IsDigit c := fun c hc =>
    isDigit_iff.mp (Nat.isDigit_of_mem_toDigits (by decide) (by decide) hc)
  have hspelled := @Token.Spelled.width [] (Nat.toDigits 10 bits) (by simp) Nat.toDigits_ne_nil
    hdigits (by rwa [hvalue])
  rw [hvalue] at hspelled
  exact hspelled.spells

theorem spells_print {flags : List Bool} {extents : List String} {bits : Option Nat}
    (hextents : ∀ extent ∈ extents, IsExtent extent) (hbits : ∀ n ∈ bits, n < UInt32.size) :
    Spells (print flags extents bits).toList (printedTokens flags extents bits) := by
  rw [print, String.toList_ofList, printedTokens, List.map_eq_flatMap, List.map_eq_flatMap]
  refine (Spells.flatMap fun flag _ => spells_starText flag).append
    ((Spells.flatMap fun extent hextent => spells_extentText (hextents extent hextent)).append
      (Spells.flatMap fun n hn => spells_widthText (hbits n ?_)))
  simpa using hn

/-! ### Reading what is printed -/

theorem starFlags_starTokens (flags : List Bool) {tokens : List Token} (h : Token.star ∉ tokens) :
    starFlags false (flags.flatMap starTokens ++ tokens) = flags := by
  induction flags with
  | nil =>
      rw [List.flatMap_nil, List.nil_append, ← List.length_eq_zero_iff, length_starFlags]
      exact List.count_eq_zero.mpr h
  | cons flag flags ih =>
      rw [List.flatMap_cons, List.append_assoc]
      cases flag with
      | false => exact congrArg (false :: ·) ih
      | true => exact congrArg (true :: ·) ih

/-- A feature that stars do not have is that of the extents and of the width. -/
theorem filterMap_printedTokens {α : Type} {feature : Token → Option α}
    (hconst : feature .const = none) (hstar : feature .star = none) (flags : List Bool)
    (extents : List String) (bits : Option Nat) :
    (printedTokens flags extents bits).filterMap feature =
      extents.filterMap (fun extent => feature (.extent extent.toList)) ++
        bits.toList.filterMap (fun n => feature (.width n)) := by
  have hstars (flag : Bool) : (starTokens flag).filterMap feature = [] := by
    cases flag <;> simp [starTokens, hconst, hstar]
  have hflags : flags.flatMap (fun flag => (starTokens flag).filterMap feature) = [] :=
    List.flatMap_eq_nil_iff.mpr fun flag _ => hstars flag
  rw [printedTokens, List.filterMap_append, List.filterMap_flatMap, hflags, List.nil_append,
    List.filterMap_append, List.filterMap_map, List.filterMap_map]
  rfl

theorem ofTokens_printedTokens (flags : List Bool) (extents : List String) (bits : Option Nat) :
    ofTokens (printedTokens flags extents bits) =
      { pointers := flags, extents, constElement := flags.head?.getD false, bits } := by
  have hpointers : starFlags false (printedTokens flags extents bits) = flags :=
    starFlags_starTokens flags (by simp)
  have hextents : (printedTokens flags extents bits).filterMap Token.extent? = extents := by
    rw [filterMap_printedTokens rfl rfl]
    simp [Token.extent?]
  have hbits : (printedTokens flags extents bits).filterMap Token.width? = bits.toList := by
    rw [filterMap_printedTokens rfl rfl]
    simp [Token.width?]
  -- Only the flag of a star is printed as `const`.
  have hconst : flags.head?.getD ((printedTokens flags extents bits).contains .const) =
      flags.head?.getD false := by
    cases flags with
    | nil => simp [printedTokens]
    | cons flag flags => rfl
  rw [ofTokens]
  simp only [hpointers, hextents, hbits, hconst]
  cases bits <;> rfl

/-- What is printed is read as the same parts again. -/
theorem parse_print {flags : List Bool} {extents : List String} {bits : Option Nat}
    (hextents : ∀ extent ∈ extents, IsExtent extent) (hbits : ∀ n ∈ bits, n < UInt32.size)
    (owner : String) :
    parse (print flags extents bits) owner =
      .ok { pointers := flags, extents, constElement := flags.head?.getD false, bits } :=
  parse_eq_ok_iff.mpr
    ⟨_, spells_print hextents hbits, ofTokens_printedTokens flags extents bits⟩

/-- A text is cut into tokens between characters only, it is a declarator if and only if it spells
tokens within blanks, its parts are those that its tokens tell, and parts that are printed are read
again. -/
theorem parse_spec (source owner : String) :
    slicedTokens (trim source.toList) = some (tokenize (trim source.toList)) ∧
    ((∃ declarator, parse source owner = .ok declarator) ↔
      ∃ tokens, Spells (trim source.toList) tokens) ∧
    (∀ declarator, parse source owner = .ok declarator ↔
      ∃ tokens, Spells (trim source.toList) tokens ∧ OfTokens tokens declarator) ∧
    ∀ flags extents bits, (∀ extent ∈ extents, IsExtent extent) → (∀ n ∈ bits, n < UInt32.size) →
      parse (print flags extents bits) owner =
        .ok { pointers := flags, extents, constElement := flags.head?.getD false, bits } := by
  refine ⟨slicedTokens_trim _, ?_, fun _ => parse_eq_ok_iff_ofTokens, fun _ _ _ hextents hbits =>
    parse_print hextents hbits owner⟩
  constructor
  · rintro ⟨declarator, h⟩
    obtain ⟨tokens, htokens, -⟩ := parse_eq_ok_iff_ofTokens.mp h
    exact ⟨tokens, htokens⟩
  · rintro ⟨tokens, htokens⟩
    exact ⟨_, parse_eq_ok_iff_ofTokens.mpr ⟨tokens, htokens, ofTokens_iff.mpr rfl⟩⟩

/-- A declarator with blanks in it, and characters of two bytes in its brackets. -/
def fieldText : String :=
  " const struct*const *[ Größe]\t: 024"

/-- The parts of `fieldText` are read, and those of another declarator printed and read again. -/
theorem parse_spec_fieldText :
    (∃ tokens, Spells (trim fieldText.toList) tokens ∧
      slicedTokens (trim fieldText.toList) = some (.ok tokens) ∧
      OfTokens tokens ⟨[true, true], ["Größe"], true, some 24⟩) ∧
    (∀ extent ∈ ["3", "VK_UUID_SIZE"], IsExtent extent) ∧ (∀ n ∈ some 8, n < UInt32.size) ∧
    print [true, false] ["3", "VK_UUID_SIZE"] (some 8) = "const**[3][VK_UUID_SIZE]:8" ∧
    parse "const**[3][VK_UUID_SIZE]:8" "VkInfo.name" =
      .ok ⟨[true, false], ["3", "VK_UUID_SIZE"], true, some 8⟩ := by
  obtain ⟨hsliced, -, hparse, hprint⟩ := parse_spec fieldText "VkInfo.name"
  have hfield : parse fieldText "VkInfo.name" =
      .ok ⟨[true, true], ["Größe"], true, some 24⟩ := by decide +kernel
  obtain ⟨tokens, hspells, hparts⟩ := (hparse _).mp hfield
  rw [tokenize_of_spells hspells] at hsliced
  have hextents : ∀ extent ∈ ["3", "VK_UUID_SIZE"], IsExtent extent := by
    intro extent hmem
    simp only [List.mem_cons, List.not_mem_nil, or_false] at hmem
    rcases hmem with rfl | rfl
    · exact ⟨by decide, by rintro c ⟨⟩; decide, by rintro c ⟨⟩; decide⟩
    · exact ⟨by decide, by rintro c ⟨⟩; decide, by rintro c ⟨⟩; decide⟩
  have hbits : ∀ n ∈ some 8, n < UInt32.size := by
    rintro n ⟨⟩
    decide
  have htext : print [true, false] ["3", "VK_UUID_SIZE"] (some 8) =
      "const**[3][VK_UUID_SIZE]:8" := by decide +kernel
  refine ⟨⟨tokens, hspells, hsliced, hparts⟩, hextents, hbits, htext, ?_⟩
  rw [← htext]
  exact hprint [true, false] ["3", "VK_UUID_SIZE"] (some 8) hextents hbits

end VulkanRegistry.Declarator
