/-
How the numbers in integer literals are written.

A number is written by decimal digits, or by `0x` and hexadecimal digits, with a minus sign in
front and letters of a suffix behind where wanted (`Plain`).  Reading goes beyond this in one
place.  Decimal digits are digits and nothing else, but behind `0x` a sign may stand in front of
the hexadecimal digits (`InnerSigned`).  So `0x-5` has a value although it is no number, and only
where there is such a sign can the negative of a value leave the range.

What is read is one or the other (`number?_eq_some_iff`), and never both: a number has no sign
behind a letter `x` (`not_hasInnerSign_of_plain`).
-/
import Mathlib.Algebra.Group.Nat.Defs
import Mathlib.Tactic.MkIffOfInductiveProp
import VulkanRegistry.Constant.Literal
import VulkanRegistry.Proofs.Numeral
import VulkanRegistry.Proofs.Outcome

namespace VulkanRegistry.Literal

open Text

/-- A letter of a suffix. -/
def IsSuffixLetter (c : Char) : Prop :=
  c = 'u' ∨ c = 'U' ∨ c = 'l' ∨ c = 'L'

/-- Decimal digits, and the number that they make. -/
@[mk_iff]
structure DecimalDigits (digits : List Char) (number : Nat) : Prop where
  ne_nil : digits ≠ []
  isDigit : ∀ c ∈ digits, IsDigit c
  number_eq : Nat.ofDigitChars 10 digits 0 = number

/-- Hexadecimal digits, and the number that they make. -/
@[mk_iff]
structure HexDigits (digits : List Char) (number : Nat) : Prop where
  ne_nil : digits ≠ []
  isHexDigit : ∀ c ∈ digits, IsHexDigit c
  number_eq : numberOf 16 0 (digits.map hexDigitNumber) = number

/-- The text writes this number without sign and suffix. -/
inductive Magnitude : List Char → Nat → Prop
  | decimal {digits : List Char} {number : Nat} (h : DecimalDigits digits number) :
      Magnitude digits number
  | hexadecimal {x : Char} {digits : List Char} {number : Nat} (hx : x = 'x' ∨ x = 'X')
      (h : HexDigits digits number) : Magnitude ('0' :: x :: digits) number

/-- The text is a number: an optional minus sign, digits and a suffix. -/
inductive Plain : List Char → Int → Prop
  | positive {text suffix : List Char} {number : Nat} (htext : Magnitude text number)
      (hfits : number < 2 ^ 127) (hsuffix : ∀ c ∈ suffix, IsSuffixLetter c) :
      Plain (text ++ suffix) number
  | negative {text suffix : List Char} {number : Nat} (htext : Magnitude text number)
      (hfits : number < 2 ^ 127) (hsuffix : ∀ c ∈ suffix, IsSuffixLetter c) :
      Plain ('-' :: (text ++ suffix)) (-number)

/-- The text is a hexadecimal number with a sign behind the `x`, of 128 bits with that sign. -/
inductive SignedHex : List Char → Int → Prop
  | plus {x : Char} {digits : List Char} {number : Nat} (hx : x = 'x' ∨ x = 'X')
      (h : HexDigits digits number) (hfits : number < 2 ^ 127) :
      SignedHex ('0' :: x :: '+' :: digits) number
  | minus {x : Char} {digits : List Char} {number : Nat} (hx : x = 'x' ∨ x = 'X')
      (h : HexDigits digits number) (hfits : number ≤ 2 ^ 127) :
      SignedHex ('0' :: x :: '-' :: digits) (-number)

/-- The text is no number, but is read like one: its hexadecimal digits have a sign of their own.
The negative of the least value wraps around. -/
inductive InnerSigned : List Char → Int → Prop
  | positive {text suffix : List Char} {value : Int} (htext : SignedHex text value)
      (hsuffix : ∀ c ∈ suffix, IsSuffixLetter c) : InnerSigned (text ++ suffix) value
  | negative {text suffix : List Char} {value : Int} (htext : SignedHex text value)
      (hsuffix : ∀ c ∈ suffix, IsSuffixLetter c) :
      InnerSigned ('-' :: (text ++ suffix)) (negate value)

/-! ### Digits -/

theorem isSuffixLetter_iff {c : Char} : isSuffixLetter c = true ↔ IsSuffixLetter c := by
  simp [isSuffixLetter, IsSuffixLetter, or_assoc]

theorem not_isSuffixLetter_of_isHexDigit {c : Char} (h : IsHexDigit c) :
    isSuffixLetter c = false := by
  rw [← Bool.not_eq_true, isSuffixLetter_iff]
  rintro (rfl | rfl | rfl | rfl) <;> exact absurd h (by decide)

theorem valueLimit_eq : valueLimit = 2 ^ 127 := by
  decide

/-- A decimal number is read if it stays below the limit. -/
theorem map_readNumeral_ten_eq_some_iff {limit : Nat} (hlimit : 0 < limit) {cs : List Char}
    {f : Nat → Int} {value : Int} :
    (readNumeral 10 limit cs).toOption.map f = some value ↔
      ∃ number, DecimalDigits cs number ∧ number < limit ∧ f number = value := by
  simp only [Option.map_eq_some_iff, Outcome.toOption_eq_some_iff, and_assoc, decimalDigits_iff,
    readNumeral_eq_ok_iff (fun _ _ => digitValue?_ten_eq_some_iff) (by decide) hlimit, numberOf_ten]

/-- A hexadecimal number is read if it stays below the limit. -/
theorem map_readNumeral_sixteen_eq_some_iff {limit : Nat} (hlimit : 0 < limit) {cs : List Char}
    {f : Nat → Int} {value : Int} :
    (readNumeral 16 limit cs).toOption.map f = some value ↔
      ∃ number, HexDigits cs number ∧ number < limit ∧ f number = value := by
  simp only [Option.map_eq_some_iff, Outcome.toOption_eq_some_iff, and_assoc, hexDigits_iff,
    readNumeral_eq_ok_iff (fun _ _ => digitValue?_sixteen_eq_some_iff) (by decide) hlimit]

/-- What `signedHex?` reads behind a minus sign is negated after it has been read. -/
theorem signedHex?_minus (digits : List Char) :
    signedHex? ('-' :: digits) =
      (readNumeral 16 (valueLimit + 1) digits).toOption.map
        fun number : Nat => -(number : Int) := by
  simp only [signedHex?]
  cases readNumeral 16 (valueLimit + 1) digits <;> rfl

theorem signedHex?_plus (digits : List Char) :
    signedHex? ('+' :: digits) = (readNumeral 16 valueLimit digits).toOption.map Int.ofNat := rfl

theorem signedHex?_of_no_sign {hex : List Char} (hminus : ∀ digits, hex ≠ '-' :: digits)
    (hplus : ∀ digits, hex ≠ '+' :: digits) :
    signedHex? hex = (readNumeral 16 valueLimit hex).toOption.map Int.ofNat := by
  unfold signedHex?
  split
  · exact absurd rfl (hminus _)
  · exact absurd rfl (hplus _)
  · rfl

/-- Behind `0x` stand digits, or digits with a sign of their own. -/
theorem signedHex?_eq_some_iff {x : Char} (hx : x = 'x' ∨ x = 'X') {hex : List Char} {value : Int} :
    signedHex? hex = some value ↔
      (∃ number : Nat, HexDigits hex number ∧ number < 2 ^ 127 ∧ number = value) ∨
        SignedHex ('0' :: x :: hex) value := by
  constructor
  · intro h
    by_cases hminus : ∃ digits, hex = '-' :: digits
    · obtain ⟨digits, rfl⟩ := hminus
      rw [signedHex?_minus, map_readNumeral_sixteen_eq_some_iff (Nat.succ_pos _)] at h
      obtain ⟨number, hdigits, hlt, rfl⟩ := h
      exact .inr (.minus hx hdigits (valueLimit_eq ▸ Nat.lt_succ_iff.mp hlt))
    by_cases hplus : ∃ digits, hex = '+' :: digits
    · obtain ⟨digits, rfl⟩ := hplus
      rw [signedHex?_plus, map_readNumeral_sixteen_eq_some_iff (by decide)] at h
      obtain ⟨number, hdigits, hlt, rfl⟩ := h
      exact .inr (.plus hx hdigits (valueLimit_eq ▸ hlt))
    · rw [signedHex?_of_no_sign (not_exists.mp hminus) (not_exists.mp hplus),
        map_readNumeral_sixteen_eq_some_iff (by decide), valueLimit_eq] at h
      exact .inl h
  · rintro (⟨number, hdigits, hlt, rfl⟩ | h)
    · have hsign (sign : Char) (hsign : ¬ IsHexDigit sign) (digits : List Char) :
          hex ≠ sign :: digits := by
        rintro rfl
        exact hsign (hdigits.isHexDigit sign (by simp))
      rw [signedHex?_of_no_sign (hsign '-' (by decide)) (hsign '+' (by decide)),
        map_readNumeral_sixteen_eq_some_iff (by decide), valueLimit_eq]
      exact ⟨number, hdigits, hlt, rfl⟩
    · cases h with
      | plus _ hdigits hlt =>
          rw [signedHex?_plus, map_readNumeral_sixteen_eq_some_iff (by decide), valueLimit_eq]
          exact ⟨_, hdigits, hlt, rfl⟩
      | minus _ hdigits hle =>
          rw [signedHex?_minus, map_readNumeral_sixteen_eq_some_iff (Nat.succ_pos _), valueLimit_eq]
          exact ⟨_, hdigits, Nat.lt_succ_iff.mpr hle, rfl⟩

/-- Reads a text without sign and suffix. -/
def digits? (cs : List Char) : Option Int :=
  match cs with
  | '0' :: 'x' :: hex => signedHex? hex
  | '0' :: 'X' :: hex => signedHex? hex
  | digits => (readNumeral 10 valueLimit digits).toOption.map Int.ofNat

theorem digits?_of_hex {x : Char} (hx : x = 'x' ∨ x = 'X') (hex : List Char) :
    digits? ('0' :: x :: hex) = signedHex? hex := by
  rcases hx with rfl | rfl <;> rfl

theorem digits?_of_no_hex {cs : List Char}
    (h : ∀ x hex, x = 'x' ∨ x = 'X' → cs ≠ '0' :: x :: hex) :
    digits? cs = (readNumeral 10 valueLimit cs).toOption.map Int.ofNat := by
  unfold digits?
  split
  · exact absurd rfl (h _ _ (.inl rfl))
  · exact absurd rfl (h _ _ (.inr rfl))
  · rfl

/-- The text is read as this value where it has no sign in front and no suffix. -/
def Unsigned (cs : List Char) (value : Int) : Prop :=
  (∃ number : Nat, Magnitude cs number ∧ number < 2 ^ 127 ∧ number = value) ∨ SignedHex cs value

theorem digits?_eq_some_iff {cs : List Char} {value : Int} :
    digits? cs = some value ↔ Unsigned cs value := by
  by_cases hhex : ∃ x hex, (x = 'x' ∨ x = 'X') ∧ cs = '0' :: x :: hex
  · obtain ⟨x, hex, hx, rfl⟩ := hhex
    have hmagnitude {number : Nat} : Magnitude ('0' :: x :: hex) number ↔ HexDigits hex number := by
      constructor
      · intro h
        cases h with
        | decimal h =>
            have hdigit : IsDigit x := h.isDigit x (by simp)
            rcases hx with rfl | rfl <;> exact absurd hdigit (by decide)
        | hexadecimal _ h => exact h
      · exact Magnitude.hexadecimal hx
    simp only [digits?_of_hex hx, signedHex?_eq_some_iff hx, Unsigned, hmagnitude]
  · have hno : ∀ x hex, x = 'x' ∨ x = 'X' → cs ≠ '0' :: x :: hex :=
      fun x hex hx heq => hhex ⟨x, hex, hx, heq⟩
    have hmagnitude {number : Nat} : Magnitude cs number ↔ DecimalDigits cs number := by
      constructor
      · intro h
        cases h with
        | decimal h => exact h
        | hexadecimal hx _ => exact absurd rfl (hno _ _ hx)
      · exact Magnitude.decimal
    have hsigned : ¬ SignedHex cs value := by
      intro h
      cases h with
      | plus hx => exact hno _ _ hx rfl
      | minus hx => exact hno _ _ hx rfl
    rw [digits?_of_no_hex hno, map_readNumeral_ten_eq_some_iff (by decide), valueLimit_eq]
    simp [Unsigned, hmagnitude, hsigned]

theorem Unsigned.exists_cons {cs : List Char} {value : Int} (h : Unsigned cs value) :
    ∃ c rest, cs = c :: rest ∧ IsDigit c := by
  rcases h with ⟨number, hnumber, -⟩ | h
  · cases hnumber with
    | decimal h =>
        obtain ⟨c, rest, rfl⟩ := List.exists_cons_of_ne_nil h.ne_nil
        exact ⟨c, rest, rfl, h.isDigit c (by simp)⟩
    | hexadecimal => exact ⟨'0', _, rfl, by decide⟩
  · cases h with
    | plus => exact ⟨'0', _, rfl, by decide⟩
    | minus => exact ⟨'0', _, rfl, by decide⟩

theorem HexDigits.getLast? {digits : List Char} {number : Nat} (h : HexDigits digits number)
    (front : List Char) : ∀ c ∈ (front ++ digits).getLast?, IsHexDigit c := by
  intro c hc
  rw [List.getLast?_append, List.getLast?_eq_some_getLast h.ne_nil] at hc
  cases hc
  exact h.isHexDigit _ (List.getLast_mem h.ne_nil)

theorem Unsigned.getLast? {cs : List Char} {value : Int} (h : Unsigned cs value) :
    ∀ c ∈ cs.getLast?, IsHexDigit c := by
  rcases h with ⟨number, hnumber, -⟩ | h
  · cases hnumber with
    | decimal h => exact fun c hc => .inl (h.isDigit c (List.mem_of_getLast? hc))
    | @hexadecimal x digits _ _ h => exact h.getLast? ['0', x]
  · cases h with
    | @plus x digits _ _ h => exact h.getLast? ['0', x, '+']
    | @minus x digits _ _ h => exact h.getLast? ['0', x, '-']

/-- Without a sign, digits are read and the suffix is not. -/
theorem magnitude?_eq_some_iff {cs : List Char} {value : Int} :
    magnitude? cs = some value ↔
      ∃ text suffix, cs = text ++ suffix ∧ Unsigned text value ∧
        ∀ c ∈ suffix, IsSuffixLetter c := by
  have heq : magnitude? cs = digits? (trimEnd isSuffixLetter cs) := rfl
  rw [heq]
  constructor
  · intro h
    obtain ⟨suffix, hcs, hsuffix⟩ := exists_trimEnd isSuffixLetter cs
    exact ⟨_, suffix, hcs, digits?_eq_some_iff.mp h,
      fun c hc => isSuffixLetter_iff.mp (hsuffix c hc)⟩
  · rintro ⟨text, suffix, rfl, htext, hsuffix⟩
    have hlast : ∀ c ∈ text.getLast?, isSuffixLetter c = false :=
      fun c hc => not_isSuffixLetter_of_isHexDigit (htext.getLast? c hc)
    rw [trimEnd_append_of_notBehind hlast fun c hc => isSuffixLetter_iff.mpr (hsuffix c hc)]
    exact digits?_eq_some_iff.mpr htext

/-! ### Signs -/

/-- Reads what is inside of blanks, parentheses and complements. -/
def number? (cs : List Char) : Option Int :=
  match cs with
  | '-' :: rest => (magnitude? rest).map negate
  | digits => magnitude? digits

theorem negate_of_lt {number : Nat} (h : number < 2 ^ 127) : negate number = -number := by
  have hlimit := valueLimit_eq
  refine Int.bmod_eq_of_le ?_ ?_ <;> omega

theorem number?_of_isDigit {c : Char} (hc : IsDigit c) (cs : List Char) :
    number? (c :: cs) = magnitude? (c :: cs) := by
  unfold number?
  split
  · next heq =>
      cases heq
      exact absurd hc (by decide)
  · rfl

theorem number?_eq_some_iff {cs : List Char} {value : Int} :
    number? cs = some value ↔ Plain cs value ∨ InnerSigned cs value := by
  constructor
  · intro h
    unfold number? at h
    split at h
    · next rest =>
        obtain ⟨positive, hrest, rfl⟩ := Option.map_eq_some_iff.mp h
        obtain ⟨text, suffix, rfl, htext, hsuffix⟩ := magnitude?_eq_some_iff.mp hrest
        rcases htext with ⟨number, hnumber, hlt, rfl⟩ | htext
        · rw [negate_of_lt hlt]
          exact .inl (.negative hnumber hlt hsuffix)
        · exact .inr (.negative htext hsuffix)
    · obtain ⟨text, suffix, rfl, htext, hsuffix⟩ := magnitude?_eq_some_iff.mp h
      rcases htext with ⟨number, hnumber, hlt, rfl⟩ | htext
      · exact .inl (.positive hnumber hlt hsuffix)
      · exact .inr (.positive htext hsuffix)
  · have hpositive {text suffix : List Char} {value : Int} (htext : Unsigned text value)
        (hsuffix : ∀ c ∈ suffix, IsSuffixLetter c) : number? (text ++ suffix) = some value := by
      obtain ⟨c, rest, rfl, hc⟩ := htext.exists_cons
      rw [List.cons_append, number?_of_isDigit hc, ← List.cons_append, magnitude?_eq_some_iff]
      exact ⟨_, suffix, rfl, htext, hsuffix⟩
    have hnegative {text suffix : List Char} {value : Int} (htext : Unsigned text value)
        (hsuffix : ∀ c ∈ suffix, IsSuffixLetter c) :
        number? ('-' :: (text ++ suffix)) = some (negate value) :=
      Option.map_eq_some_iff.mpr
        ⟨value, magnitude?_eq_some_iff.mpr ⟨text, suffix, rfl, htext, hsuffix⟩, rfl⟩
    rintro (h | h)
    · cases h with
      | positive hnumber hlt hsuffix => exact hpositive (.inl ⟨_, hnumber, hlt, rfl⟩) hsuffix
      | negative hnumber hlt hsuffix =>
          rw [← negate_of_lt hlt]
          exact hnegative (.inl ⟨_, hnumber, hlt, rfl⟩) hsuffix
    · cases h with
      | positive htext hsuffix => exact hpositive (.inr htext) hsuffix
      | negative htext hsuffix => exact hnegative (.inr htext) hsuffix

theorem Unsigned.not_isBlank {cs : List Char} {value : Int} (h : Unsigned cs value) :
    ∀ c ∈ cs, isBlank c = false := by
  have hhex {digits : List Char} {number : Nat} (h : HexDigits digits number) :
      ∀ c ∈ digits, isBlank c = false := fun c hc => (h.isHexDigit c hc).not_isBlank
  rcases h with ⟨number, hnumber, -⟩ | h
  · cases hnumber with
    | decimal h => exact fun c hc => (h.isDigit c hc).not_isBlank
    | hexadecimal hx h => rcases hx with rfl | rfl <;> simpa using ⟨rfl, rfl, hhex h⟩
  · cases h with
    | plus hx h => rcases hx with rfl | rfl <;> simpa using ⟨rfl, rfl, rfl, hhex h⟩
    | minus hx h => rcases hx with rfl | rfl <;> simpa using ⟨rfl, rfl, rfl, hhex h⟩

theorem not_isBlank_of_magnitude? {cs : List Char} {value : Int} (h : magnitude? cs = some value) :
    ∀ c ∈ cs, isBlank c = false := by
  obtain ⟨text, suffix, rfl, htext, hsuffix⟩ := magnitude?_eq_some_iff.mp h
  intro c hc
  rcases List.mem_append.mp hc with hc | hc
  · exact htext.not_isBlank c hc
  · rcases hsuffix c hc with rfl | rfl | rfl | rfl <;> rfl

/-! ### Inner signs -/

/-- A sign stands behind a letter `x` in the text. -/
def HasInnerSign (cs : List Char) : Prop :=
  ∃ x sign, (x = 'x' ∨ x = 'X') ∧ (sign = '+' ∨ sign = '-') ∧ [x, sign] <:+: cs

theorem HasInnerSign.mono {cs ds : List Char} (h : HasInnerSign cs) (hle : cs <:+: ds) :
    HasInnerSign ds := by
  obtain ⟨x, sign, hx, hsign, hin⟩ := h
  exact ⟨x, sign, hx, hsign, hin.trans hle⟩

theorem hasInnerSign_of_cons {c : Char} {cs : List Char} (h : HasInnerSign (c :: cs))
    (hne : c ≠ 'x' ∧ c ≠ 'X') : HasInnerSign cs := by
  obtain ⟨x, sign, hx, hsign, hin⟩ := h
  refine ⟨x, sign, hx, hsign, infix_of_infix_cons hin ?_⟩
  rintro rfl
  exact hx.elim hne.1 hne.2

theorem hasInnerSign_of_concat {c : Char} {cs : List Char} (h : HasInnerSign (cs ++ [c]))
    (hne : c ≠ '+' ∧ c ≠ '-') : HasInnerSign cs := by
  obtain ⟨x, sign, hx, hsign, hin⟩ := h
  refine ⟨x, sign, hx, hsign, infix_of_infix_append hin ?_⟩
  rw [List.mem_singleton]
  rintro rfl
  exact hsign.elim hne.1 hne.2

theorem hasInnerSign_of_innerSigned {cs : List Char} {value : Int} (h : InnerSigned cs value) :
    HasInnerSign cs := by
  have hsigned {text : List Char} {value : Int} (h : SignedHex text value) : HasInnerSign text := by
    cases h with
    | @plus x digits _ hx => exact ⟨x, '+', hx, .inl rfl, ['0'], digits, rfl⟩
    | @minus x digits _ hx => exact ⟨x, '-', hx, .inr rfl, ['0'], digits, rfl⟩
  cases h with
  | positive htext => exact (hsigned htext).mono (List.prefix_append _ _).isInfix
  | negative htext =>
      exact (hsigned htext).mono
        ((List.prefix_append _ _).isInfix.trans (List.suffix_cons _ _).isInfix)

theorem no_sign_of_magnitude {cs : List Char} {number : Nat} (h : Magnitude cs number) :
    ∀ c ∈ cs, c ≠ '+' ∧ c ≠ '-' := by
  have hhex {c : Char} (h : IsHexDigit c) : c ≠ '+' ∧ c ≠ '-' := by
    constructor <;> (rintro rfl; exact absurd h (by decide))
  cases h with
  | decimal h => exact fun c hc => hhex (.inl (h.isDigit c hc))
  | hexadecimal hx h =>
      refine List.forall_mem_cons.mpr ⟨by decide, List.forall_mem_cons.mpr ⟨?_, ?_⟩⟩
      · rcases hx with rfl | rfl <;> decide
      · exact fun c hc => hhex (h.isHexDigit c hc)

theorem not_hasInnerSign_of_plain {cs : List Char} {value : Int} (h : Plain cs value) :
    ¬ HasInnerSign cs := by
  have hno {text suffix : List Char} {number : Nat} (htext : Magnitude text number)
      (hsuffix : ∀ c ∈ suffix, IsSuffixLetter c) : ¬ HasInnerSign (text ++ suffix) := by
    rintro ⟨x, sign, -, hsign, hin⟩
    rcases List.mem_append.mp (hin.subset (by simp : sign ∈ [x, sign])) with hmem | hmem
    · exact hsign.elim (no_sign_of_magnitude htext sign hmem).1
        (no_sign_of_magnitude htext sign hmem).2
    · rcases hsuffix sign hmem with rfl | rfl | rfl | rfl <;> simp at hsign
  cases h with
  | positive htext _ hsuffix => exact hno htext hsuffix
  | negative htext _ hsuffix =>
      exact fun h => hno htext hsuffix (hasInnerSign_of_cons h (by decide))

end VulkanRegistry.Literal
