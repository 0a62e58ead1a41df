/-
Which numbers declarations give, and which are computed for them.

A declaration gives a number of unbounded size: that of a literal, a power of two, or a place in
the range of an extension, which is found in a few steps.  Computing it with 64 bits is exact if
what is computed is the number that is given, and if nothing on the way to it leaves the signed
numbers of 64 bits (`ComputedExactly`).

This goes wrong in three ways, and in no other (`computedExactly_iff`).  Bit 63 passes the test
of the position, but it is the sign.  The places of extensions are computed without any test, so
they wrap around (`placeWord`) where a step does not fit.  And whatever is read like a literal
without being one is taken for it, wherever a declaration has a literal.
-/
import Mathlib.Algebra.Group.Int.Defs
import VulkanRegistry.Enumeration.Value
import VulkanRegistry.Proofs.Constant.Literal

namespace VulkanRegistry

open Literal (Denotes Plain InnerSigned)

/-- The number has 64 bits with its sign. -/
def Fits64 (value : Int) : Prop :=
  -2 ^ 63 ≤ value ∧ value < 2 ^ 63

instance : DecidablePred Fits64 :=
  fun _ => inferInstanceAs (Decidable (_ ∧ _))

/-! ### What is written -/

/-- The text is a literal of the value. -/
def IsLiteral (text : String) (value : Int) : Prop :=
  Denotes Plain text.toList value

/-- The text is a literal, or like one but for a sign behind `0x`, and its value has 64 bits. -/
def ReadsAs (text : String) (value : Int) : Prop :=
  (IsLiteral text value ∨ Denotes InnerSigned text.toList value) ∧ Fits64 value

/-- The text is a decimal number with blanks around it, and a plus sign in front if it likes. -/
def IsPosition (text : String) (bit : Nat) : Prop :=
  ∃ before sign digits behind, text.toList = before ++ (sign ++ digits) ++ behind ∧
    (∀ c ∈ before, Text.isBlank c = true) ∧ (∀ c ∈ behind, Text.isBlank c = true) ∧
    (sign = [] ∨ sign = ['+']) ∧ Literal.DecimalDigits digits bit

/-! ### What is given -/

/-- The number that the declaration gives. -/
inductive ValueDecl.Gives (decl : ValueDecl) : Int → Prop
  | bit {text : String} {bit : Nat} (halias : decl.aliasOf = none)
      (htext : decl.bitpos = some text) (h : IsPosition text bit) : Gives decl (2 ^ bit)
  | literal {text : String} {value : Int} (halias : decl.aliasOf = none)
      (hbit : decl.bitpos = none) (htext : decl.value = some text) (h : IsLiteral text value) :
      Gives decl value

/-- The number at a place of an extension's range, or its negative. -/
def placeNumber (negative : Bool) (extension offset : Int) : Int :=
  (if negative then -1 else 1) * (1000000000 + (extension - 1) * 1000 + offset)

/-- All numbers on the way to a place, from the operands on. -/
def placeSteps (negative : Bool) (extension offset : Int) : List Int :=
  [offset, extension, extension - 1, (extension - 1) * 1000,
    1000000000 + (extension - 1) * 1000, 1000000000 + (extension - 1) * 1000 + offset,
    placeNumber negative extension offset]

/-- The directive means the place at an offset of the range of an extension, where operands are
written as `Written` says. -/
structure ValueDirective.Places (Written : String → Int → Prop) (d : ValueDirective)
    (holder : Option Nat) (extension offset : Int) : Prop where
  no_alias : d.aliasOf = none
  no_value : d.value = none
  no_bitpos : d.bitpos = none
  offset : ∃ text, d.offset = some text ∧ Written text offset
  extension : (∃ text, d.extnumber = some text ∧ Written text extension) ∨
    d.extnumber = none ∧ ∃ held : Nat, holder = some held ∧ extension = held

/-- The number that the directive gives, where the extension of number `holder` has it, and the
numbers on the way to it. -/
inductive ValueDirective.Gives (d : ValueDirective) (holder : Option Nat) : List Int → Int → Prop
  | literal {text : String} {value : Int} (halias : d.aliasOf = none)
      (htext : d.value = some text) (h : IsLiteral text value) : Gives d holder [value] value
  | bit {text : String} {bit : Nat} (halias : d.aliasOf = none) (hvalue : d.value = none)
      (htext : d.bitpos = some text) (h : IsPosition text bit) :
      Gives d holder [2 ^ bit] (2 ^ bit)
  | place {extension offset : Int} (h : d.Places IsLiteral holder extension offset) :
      Gives d holder (placeSteps d.negative extension offset)
        (placeNumber d.negative extension offset)

/-! ### What is computed -/

/-- A number is computed if and only if the declaration gives it and it has 64 bits. -/
def ValueDecl.ComputedExactly (decl : ValueDecl) : Prop :=
  ∀ value, ValueSpec.ofBlock decl = .ok (.number value) ↔ decl.Gives value ∧ Fits64 value

/-- A number is computed if and only if the directive gives it and all numbers on the way to it
have 64 bits. -/
def ValueDirective.ComputedExactly (d : ValueDirective) (holder : Option Nat) : Prop :=
  ∀ value, ValueSpec.ofDirective d holder = .ok (some (.number value)) ↔
    ∃ steps, d.Gives holder steps value ∧ ∀ step ∈ steps, Fits64 step

/-- How a number can be wrong that is computed for a declaration. -/
inductive ValueDecl.Slips (decl : ValueDecl) : Prop
  | signBit {text : String} (halias : decl.aliasOf = none) (htext : decl.bitpos = some text)
      (h : IsPosition text 63)
  | innerSign {text : String} {value : Int} (halias : decl.aliasOf = none)
      (hbit : decl.bitpos = none) (htext : decl.value = some text)
      (h : Denotes InnerSigned text.toList value) (hfits : Fits64 value)

/-- How a number can be wrong that is computed for a directive. -/
inductive ValueDirective.Slips (d : ValueDirective) (holder : Option Nat) : Prop
  | signBit {text : String} (halias : d.aliasOf = none) (hvalue : d.value = none)
      (htext : d.bitpos = some text) (h : IsPosition text 63)
  | innerSign {text : String} {value : Int} (halias : d.aliasOf = none)
      (htext : d.value = some text) (h : Denotes InnerSigned text.toList value)
      (hfits : Fits64 value)
  | innerOperand {extension offset : Int} (h : d.Places ReadsAs holder extension offset)
      (hno : ¬ d.Places IsLiteral holder extension offset)
  | overflow {extension offset : Int} (h : d.Places ReadsAs holder extension offset)
      (hstep : ∃ step ∈ placeSteps d.negative extension offset, ¬ Fits64 step)

/-- The answer is a number of 64 bits, or a fault of the declaration of `name`. -/
def Answers {α : Type} (name : String) (number : Int → α) (answer : Outcome α) : Prop :=
  (∃ value, Fits64 value ∧ answer = .ok (number value)) ∨
    ∃ fault, answer = ValueSpec.Fault.of name fault

/-- The directive has a number of its own. -/
def ValueDirective.GivesNumber (d : ValueDirective) : Prop :=
  d.value.isSome ∨ d.bitpos.isSome ∨ d.offset.isSome

/-- The number at a place, computed with 64 bits in every step. -/
def placeWord (negative : Bool) (extension offset : Int64) : Int64 :=
  let place := 1000000000 + (extension - 1) * 1000 + offset
  if negative then -place else place

/-! ### Numbers of 64 bits -/

theorem wrap64_eq (value : Int) : ValueSpec.wrap64 value = (Int64.ofInt value).toInt :=
  Int64.toInt_ofInt.symm

theorem wrap64_of_fits {value : Int} (h : Fits64 value) : ValueSpec.wrap64 value = value := by
  have hsize : ((UInt64.size : Nat) : Int) = 2 ^ 64 := rfl
  obtain ⟨hlow, hhigh⟩ := h
  exact Int.bmod_eq_of_le (by omega) (by omega)

/-- To wrap around once in the end is to wrap around in every step. -/
theorem inRange_eq_placeWord (negative : Bool) (extension offset : Int) :
    ValueSpec.inRange negative extension offset =
      (placeWord negative (.ofInt extension) (.ofInt offset)).toInt := by
  have hplace : Int64.ofInt (1000000000 + (extension - 1) * 1000 + offset) =
      1000000000 + (.ofInt extension - 1) * 1000 + .ofInt offset := by
    rw [Int64.ofInt_add, Int64.ofInt_add, Int64.ofInt_mul, Int64.ofInt_sub]
    rfl
  unfold ValueSpec.inRange placeWord
  dsimp only
  split
  · rw [wrap64_eq, wrap64_eq, Int64.ofInt_neg, Int64.ofInt_toInt, ← hplace]
    rfl
  · rw [wrap64_eq, ← hplace]
    rfl

/-- Where all numbers on the way fit, the place is found. -/
theorem inRange_of_fits {negative : Bool} {extension offset : Int}
    (h : ∀ step ∈ placeSteps negative extension offset, Fits64 step) :
    ValueSpec.inRange negative extension offset = placeNumber negative extension offset := by
  have hplace : ValueSpec.wrap64 (1000000000 + (extension - 1) * 1000 + offset) =
      1000000000 + (extension - 1) * 1000 + offset := wrap64_of_fits (h _ (by simp [placeSteps]))
  have hlast : Fits64 (placeNumber negative extension offset) := h _ (by simp [placeSteps])
  unfold ValueSpec.inRange ValueSpec.extensionBase ValueSpec.extensionRange
  dsimp only
  rw [hplace]
  cases negative with
  | false => simp [placeNumber]
  | true =>
      have hnegative : placeNumber true extension offset =
          -(1000000000 + (extension - 1) * 1000 + offset) := by simp [placeNumber]
      rw [if_pos rfl, ← hnegative, wrap64_of_fits hlast]

theorem fits64_two_pow_iff {bit : Nat} : Fits64 (2 ^ bit) ↔ bit < 63 := by
  have hcast : ((2 ^ bit : Nat) : Int) = 2 ^ bit := by push_cast; rfl
  constructor
  · rintro ⟨-, hlt⟩
    have hlt : 2 ^ bit < 2 ^ 63 := by
      rw [← hcast] at hlt
      omega
    exact (Nat.pow_lt_pow_iff_right (by decide)).mp hlt
  · intro hbit
    have hlt : 2 ^ bit < 2 ^ 63 := Nat.pow_lt_pow_right (by decide) hbit
    have hpos : 0 ≤ ((2 ^ bit : Nat) : Int) := Int.natCast_nonneg _
    rw [hcast] at hpos
    exact ⟨by omega, by rw [← hcast]; omega⟩

/-! ### How texts are read -/

theorem toInt?_of_isLiteral {text : String} {value : Int} (h : IsLiteral text value) :
    Literal.toInt? text = some value :=
  Literal.read?_eq_some_iff.mpr (.inl h)

theorem toInt?_of_readsAs {text : String} {value : Int} (h : ReadsAs text value) :
    Literal.toInt? text = some value :=
  Literal.read?_eq_some_iff.mpr h.1

theorem ofLiteral_eq_ok_iff {name text : String} {value : Int} :
    ValueSpec.ofLiteral name text = .ok value ↔ ReadsAs text value := by
  have hread : (Literal.toInt? text).bind Literal.signed64? = some value ↔ ReadsAs text value := by
    have hmin : Int64.minValue.toInt = -2 ^ 63 := rfl
    have hmax : Int64.maxValue.toInt = 2 ^ 63 - 1 := rfl
    simp only [Option.bind_eq_some_iff, Literal.signed64?, Option.ite_none_right_eq_some,
      Option.some.injEq, hmin, hmax]
    constructor
    · rintro ⟨value, hvalue, hfits, rfl⟩
      exact ⟨Literal.read?_eq_some_iff.mp hvalue, hfits.1, by omega⟩
    · rintro ⟨hvalue, hlow, hhigh⟩
      exact ⟨value, Literal.read?_eq_some_iff.mpr hvalue, ⟨hlow, by omega⟩, rfl⟩
  rw [← hread, ValueSpec.ofLiteral]
  cases (Literal.toInt? text).bind Literal.signed64? with
  | none => exact ⟨nofun, nofun⟩
  | some found => rw [Except.ok.injEq, Option.some.injEq]

/-- A number of 32 bits may have a plus sign in front. -/
theorem toNat32?_eq_some_iff {cs : List Char} {number : Nat} :
    Text.toNat32? cs = some number ↔
      ∃ sign digits, cs = sign ++ digits ∧ (sign = [] ∨ sign = ['+']) ∧
        Literal.DecimalDigits digits number ∧ number < 2 ^ 32 := by
  have hread {digits : List Char} :
      (Text.readNumeral 10 Text.limit32 digits).toOption = some number ↔
        Literal.DecimalDigits digits number ∧ number < 2 ^ 32 := by
    rw [Outcome.toOption_eq_some_iff, Literal.decimalDigits_iff,
      Text.readNumeral_eq_ok_iff (fun _ _ => Text.digitValue?_ten_eq_some_iff) (by decide)
        (by decide), Text.numberOf_ten, and_assoc, and_assoc]
    rfl
  unfold Text.toNat32?
  cases hplus : Text.afterStart? ['+'] cs with
  | some rest =>
      rw [Text.afterStart?_eq_some_iff] at hplus
      rw [Option.getD_some, hread]
      constructor
      · intro h
        exact ⟨['+'], rest, hplus, .inr rfl, h⟩
      · rintro ⟨sign, digits, heq, rfl | rfl, hdigits, hlt⟩
        · have hmem : '+' ∈ digits := by
            rw [← List.nil_append digits, ← heq, hplus]
            exact List.mem_cons_self
          exact absurd (hdigits.isDigit '+' hmem) (by decide)
        · rw [List.append_cancel_left (hplus.symm.trans heq)]
          exact ⟨hdigits, hlt⟩
  | none =>
      rw [Option.getD_none, hread]
      constructor
      · intro h
        exact ⟨[], cs, rfl, .inl rfl, h⟩
      · rintro ⟨sign, digits, rfl, rfl | rfl, h⟩
        · exact h
        · rw [Text.afterStart?_eq_some_iff.mpr rfl] at hplus
          cases hplus

/-- Neither sign nor digits are blanks, so the blanks around them come off. -/
theorem isPosition_iff {text : String} {bit : Nat} :
    IsPosition text bit ↔
      ∃ sign digits, Text.trim text.toList = sign ++ digits ∧ (sign = [] ∨ sign = ['+']) ∧
        Literal.DecimalDigits digits bit := by
  constructor
  · rintro ⟨before, sign, digits, behind, heq, hbefore, hbehind, hsign, hdigits⟩
    refine ⟨sign, digits, ?_, hsign, hdigits⟩
    have hvisible : ∀ c ∈ sign ++ digits, Text.isBlank c = false := by
      intro c hc
      rcases List.mem_append.mp hc with hc | hc
      · rcases hsign with rfl | rfl
        · cases hc
        · rw [List.mem_singleton.mp hc]
          rfl
      · exact (hdigits.isDigit c hc).not_isBlank
    rw [heq, Text.trim_of_visible hbefore hvisible hbehind]
  · rintro ⟨sign, digits, heq, hsign, hdigits⟩
    obtain ⟨before, behind, htext, hbefore, hbehind⟩ := Text.exists_trim text.toList
    rw [heq] at htext
    exact ⟨before, sign, digits, behind, htext, hbefore, hbehind, hsign, hdigits⟩

theorem toNat32?_trim_eq_some_iff {text : String} {bit : Nat} (hbit : bit < 2 ^ 32) :
    Text.toNat32? (Text.trim text.toList) = some bit ↔ IsPosition text bit := by
  simp only [toNat32?_eq_some_iff, isPosition_iff, hbit, and_true]

theorem ofBit_eq_ok_iff {name text : String} {value : Int} :
    ValueSpec.ofBit name text = .ok value ↔
      ∃ bit, IsPosition text bit ∧ bit < 64 ∧ ValueSpec.wrap64 (2 ^ bit) = value := by
  have hshift (bit : Nat) : ((1 <<< bit : Nat) : Int) = 2 ^ bit := by
    rw [Nat.one_shiftLeft]
    push_cast
    rfl
  constructor
  · intro h
    unfold ValueSpec.ofBit at h
    split at h
    · cases h
    · next bit hbit =>
        split at h
        · next hlt =>
            rw [Except.ok.injEq, hshift] at h
            exact ⟨bit, (toNat32?_trim_eq_some_iff (by omega)).mp hbit, hlt, h⟩
        · cases h
  · rintro ⟨bit, hbit, hlt, rfl⟩
    rw [ValueSpec.ofBit, (toNat32?_trim_eq_some_iff (by omega)).mpr hbit, ← hshift]
    exact if_pos hlt

theorem fits64_wrap64 (value : Int) : Fits64 (ValueSpec.wrap64 value) := by
  rw [wrap64_eq]
  exact ⟨Int64.le_toInt _, Int64.toInt_lt _⟩

theorem fits64_inRange (negative : Bool) (extension offset : Int) :
    Fits64 (ValueSpec.inRange negative extension offset) := by
  rw [inRange_eq_placeWord]
  exact ⟨Int64.le_toInt _, Int64.toInt_lt _⟩

/-! ### Which numbers are computed -/

variable {decl : ValueDecl} {d : ValueDirective} {holder : Option Nat} {value : Int}

theorem ofBlock_eq_number_iff :
    ValueSpec.ofBlock decl = .ok (.number value) ↔
      decl.aliasOf = none ∧
        ((∃ text bit, decl.bitpos = some text ∧ IsPosition text bit ∧ bit < 64 ∧
            ValueSpec.wrap64 (2 ^ bit) = value) ∨
          decl.bitpos = none ∧ ∃ text, decl.value = some text ∧ ReadsAs text value) := by
  unfold ValueSpec.ofBlock
  split
  · next name halias => simp [halias]
  · next bitText halias hbit => simp [halias, hbit, Outcome.map_eq_ok, ofBit_eq_ok_iff]
  · next text halias hbit htext =>
      simp [halias, hbit, htext, Outcome.map_eq_ok, ofLiteral_eq_ok_iff]
  · next halias hbit htext => simp [halias, hbit, htext, ValueSpec.Fault.of]

theorem rangeOwner_eq_ok_iff {extension : Int} :
    ValueSpec.rangeOwner d holder = .ok extension ↔
      (∃ text, d.extnumber = some text ∧ ReadsAs text extension) ∨
        d.extnumber = none ∧ ∃ held : Nat, holder = some held ∧ extension = held := by
  unfold ValueSpec.rangeOwner
  split
  · next text hnumber => simp [hnumber, ofLiteral_eq_ok_iff]
  · next held hnumber => simp [hnumber, eq_comm]
  · next hnumber => simp [hnumber, ValueSpec.Fault.of]

theorem places_iff {extension offset : Int} :
    d.Places ReadsAs holder extension offset ↔
      (d.aliasOf = none ∧ d.value = none ∧ d.bitpos = none) ∧
        (∃ text, d.offset = some text ∧ ReadsAs text offset) ∧
        ValueSpec.rangeOwner d holder = .ok extension := by
  rw [rangeOwner_eq_ok_iff]
  exact ⟨fun h => ⟨⟨h.no_alias, h.no_value, h.no_bitpos⟩, h.offset, h.extension⟩,
    fun ⟨⟨halias, hvalue, hbit⟩, hoffset, hextension⟩ =>
      ⟨halias, hvalue, hbit, hoffset, hextension⟩⟩

theorem ofDirective_eq_number_iff :
    ValueSpec.ofDirective d holder = .ok (some (.number value)) ↔
      d.aliasOf = none ∧
        ((∃ text, d.value = some text ∧ ReadsAs text value) ∨
          (d.value = none ∧ ∃ text bit, d.bitpos = some text ∧ IsPosition text bit ∧ bit < 64 ∧
            ValueSpec.wrap64 (2 ^ bit) = value) ∨
          ∃ extension offset, d.Places ReadsAs holder extension offset ∧
            ValueSpec.inRange d.negative extension offset = value) := by
  simp only [places_iff]
  unfold ValueSpec.ofDirective
  split
  · next name halias => simp [halias]
  · next text halias htext => simp [halias, htext, Outcome.map_eq_ok, ofLiteral_eq_ok_iff]
  · next bitText halias htext hbit =>
      simp [halias, htext, hbit, Outcome.map_eq_ok, ofBit_eq_ok_iff]
  · next place halias htext hbit hplace =>
      simp only [halias, htext, hbit, hplace, Outcome.bind_eq_ok, Outcome.pure_eq_ok,
        ofLiteral_eq_ok_iff, Option.some.injEq, ValueSpec.number.injEq, reduceCtorEq, false_and,
        and_false, exists_false, false_or, true_and, exists_eq_left']
      rw [exists_comm]
      simp only [and_assoc, exists_and_left]
  · next halias htext hbit hplace => simp [halias, htext, hbit, hplace]

/-- What the operands of a place are read as. -/
theorem toInt?_of_places {Written : String → Int → Prop}
    (hwritten : ∀ {text value}, Written text value → Literal.toInt? text = some value)
    {extension offset : Int} (h : d.Places Written holder extension offset) :
    d.offset.bind Literal.toInt? = some offset ∧
      d.extnumber.elim (holder.map Int.ofNat) Literal.toInt? = some extension := by
  obtain ⟨text, htext, hoffset⟩ := h.offset
  refine ⟨by rw [htext, Option.bind_some, hwritten hoffset], ?_⟩
  rcases h.extension with ⟨text, htext, hextension⟩ | ⟨hnone, held, hheld, rfl⟩
  · rw [htext]
    exact hwritten hextension
  · rw [hnone, hheld]
    rfl

theorem places_unique {extension offset extension' offset' : Int}
    (h : d.Places ReadsAs holder extension offset)
    (h' : d.Places IsLiteral holder extension' offset') :
    extension' = extension ∧ offset' = offset := by
  obtain ⟨hoffset, hextension⟩ := toInt?_of_places toInt?_of_readsAs h
  obtain ⟨hoffset', hextension'⟩ := toInt?_of_places toInt?_of_isLiteral h'
  rw [hoffset', Option.some.injEq] at hoffset
  rw [hextension', Option.some.injEq] at hextension
  exact ⟨hextension, hoffset⟩

/-- Literals that fit are read as what they are. -/
theorem places_of_fits {extension offset : Int} (h : d.Places IsLiteral holder extension offset)
    (hfits : ∀ step ∈ placeSteps d.negative extension offset, Fits64 step) :
    d.Places ReadsAs holder extension offset := by
  refine { h with offset := ?_, extension := h.extension.imp_left ?_ }
  · obtain ⟨text, htext, hoffset⟩ := h.offset
    exact ⟨text, htext, .inl hoffset, hfits _ (by simp [placeSteps])⟩
  · rintro ⟨text, htext, hextension⟩
    exact ⟨text, htext, .inl hextension, hfits _ (by simp [placeSteps])⟩

theorem not_isLiteral_of_innerSigned {text : String} {value other : Int}
    (h : Denotes InnerSigned text.toList value) : ¬ IsLiteral text other :=
  fun hliteral => Literal.not_hasInnerSign_of_denotes hliteral (Literal.hasInnerSign_of_denotes h)

/-- Of the bits that pass, all but the last are numbers of 64 bits. -/
theorem fits64_of_ne_signBit {bit : Nat} (hlt : bit < 64) (hne : bit ≠ 63) : Fits64 (2 ^ bit) :=
  fits64_two_pow_iff.mpr (by omega)

/-- Bit 63 is the sign, so what is computed for it is no power of two. -/
theorem wrap64_signBit_ne (bit : Nat) : ValueSpec.wrap64 (2 ^ 63) ≠ 2 ^ bit := by
  have hsign : ValueSpec.wrap64 (2 ^ 63) = -2 ^ 63 := by decide +kernel
  have hpos : (0 : Int) < 2 ^ bit := Int.pow_pos (by decide)
  omega

/-! ### Which numbers are given -/

variable {text : String} {steps : List Int}

theorem ValueDecl.Gives.two_pow (htext : decl.bitpos = some text) (h : decl.Gives value) :
    ∃ bit : Nat, value = 2 ^ bit := by
  cases h with
  | bit _ _ _ => exact ⟨_, rfl⟩
  | literal _ hbit _ _ =>
      rw [htext] at hbit
      cases hbit

theorem ValueDecl.Gives.isLiteral (hbit : decl.bitpos = none) (htext : decl.value = some text)
    (h : decl.Gives value) : IsLiteral text value := by
  cases h with
  | bit _ hsome _ =>
      rw [hbit] at hsome
      cases hsome
  | literal _ _ hsome h =>
      rw [htext] at hsome
      cases hsome
      exact h

theorem ValueDirective.Gives.isLiteral (htext : d.value = some text)
    (h : d.Gives holder steps value) : IsLiteral text value := by
  cases h with
  | literal _ hsome h =>
      rw [htext] at hsome
      cases hsome
      exact h
  | bit _ hvalue _ _ =>
      rw [htext] at hvalue
      cases hvalue
  | place h =>
      have hvalue := h.no_value
      rw [htext] at hvalue
      cases hvalue

theorem ValueDirective.Gives.two_pow (hvalue : d.value = none) (htext : d.bitpos = some text)
    (h : d.Gives holder steps value) : ∃ bit : Nat, value = 2 ^ bit := by
  cases h with
  | literal _ hsome _ =>
      rw [hvalue] at hsome
      cases hsome
  | bit _ _ _ _ => exact ⟨_, rfl⟩
  | place h =>
      have hbit := h.no_bitpos
      rw [htext] at hbit
      cases hbit

theorem ValueDirective.Gives.places (hvalue : d.value = none) (hbit : d.bitpos = none)
    (h : d.Gives holder steps value) :
    ∃ extension offset, d.Places IsLiteral holder extension offset ∧
      steps = placeSteps d.negative extension offset := by
  cases h with
  | literal _ hsome _ =>
      rw [hvalue] at hsome
      cases hsome
  | bit _ _ hsome _ =>
      rw [hbit] at hsome
      cases hsome
  | place h => exact ⟨_, _, h, rfl⟩

/-! ### Where the computed numbers are the given ones -/

theorem ValueDecl.Slips.not_computedExactly (hslip : decl.Slips) : ¬ decl.ComputedExactly := by
  intro hexact
  cases hslip with
  | signBit halias htext h =>
      obtain ⟨bit, hword⟩ := ((hexact _).mp (ofBlock_eq_number_iff.mpr
        ⟨halias, .inl ⟨_, _, htext, h, by decide, rfl⟩⟩)).1.two_pow htext
      exact wrap64_signBit_ne bit hword
  | innerSign halias hbit htext h hfits =>
      have hliteral := ((hexact _).mp (ofBlock_eq_number_iff.mpr
        ⟨halias, .inr ⟨hbit, _, htext, .inr h, hfits⟩⟩)).1.isLiteral hbit htext
      exact not_isLiteral_of_innerSigned h hliteral

theorem ValueDecl.computedExactly_of_not_slips (hno : ¬ decl.Slips) : decl.ComputedExactly := by
  intro value
  rw [ofBlock_eq_number_iff]
  constructor
  · rintro ⟨halias, ⟨text, bit, htext, hbit, hlt, rfl⟩ | ⟨hbit, text, htext, hread, hfits⟩⟩
    · have hfits : Fits64 (2 ^ bit) := fits64_of_ne_signBit hlt fun h => hno <| by
        rw [h] at hbit
        exact .signBit halias htext hbit
      rw [wrap64_of_fits hfits]
      exact ⟨.bit halias htext hbit, hfits⟩
    · rcases hread with hread | hread
      · exact ⟨.literal halias hbit htext hread, hfits⟩
      · exact absurd (.innerSign halias hbit htext hread hfits) hno
  · rintro ⟨hgives, hfits⟩
    cases hgives with
    | bit halias htext h =>
        have hlt := fits64_two_pow_iff.mp hfits
        exact ⟨halias, .inl ⟨_, _, htext, h, by omega, wrap64_of_fits hfits⟩⟩
    | literal halias hbit htext h => exact ⟨halias, .inr ⟨hbit, _, htext, .inl h, hfits⟩⟩

theorem ValueDirective.Slips.not_computedExactly (hslip : d.Slips holder) :
    ¬ d.ComputedExactly holder := by
  intro hexact
  cases hslip with
  | signBit halias hvalue htext h =>
      obtain ⟨steps, hgives, -⟩ := (hexact _).mp (ofDirective_eq_number_iff.mpr
        ⟨halias, .inr (.inl ⟨hvalue, _, _, htext, h, by decide, rfl⟩)⟩)
      obtain ⟨bit, hword⟩ := hgives.two_pow hvalue htext
      exact wrap64_signBit_ne bit hword
  | innerSign halias htext h hfits =>
      obtain ⟨steps, hgives, -⟩ := (hexact _).mp (ofDirective_eq_number_iff.mpr
        ⟨halias, .inl ⟨_, htext, .inr h, hfits⟩⟩)
      exact not_isLiteral_of_innerSigned h (hgives.isLiteral htext)
  | innerOperand h hno =>
      obtain ⟨steps, hgives, -⟩ := (hexact _).mp (ofDirective_eq_number_iff.mpr
        ⟨h.no_alias, .inr (.inr ⟨_, _, h, rfl⟩)⟩)
      obtain ⟨extension, offset, hplaces, -⟩ := hgives.places h.no_value h.no_bitpos
      obtain ⟨rfl, rfl⟩ := places_unique h hplaces
      exact hno hplaces
  | overflow h hstep =>
      obtain ⟨step, hstep, hover⟩ := hstep
      obtain ⟨steps, hgives, hfits⟩ := (hexact _).mp (ofDirective_eq_number_iff.mpr
        ⟨h.no_alias, .inr (.inr ⟨_, _, h, rfl⟩)⟩)
      obtain ⟨extension, offset, hplaces, rfl⟩ := hgives.places h.no_value h.no_bitpos
      obtain ⟨rfl, rfl⟩ := places_unique h hplaces
      exact hover (hfits step hstep)

theorem ValueDirective.computedExactly_of_not_slips (hno : ¬ d.Slips holder) :
    d.ComputedExactly holder := by
  intro value
  rw [ofDirective_eq_number_iff]
  constructor
  · rintro ⟨halias, ⟨text, htext, hread, hfits⟩ | ⟨hvalue, text, bit, htext, hbit, hlt, rfl⟩ |
      ⟨extension, offset, hplaces, rfl⟩⟩
    · rcases hread with hread | hread
      · exact ⟨_, .literal halias htext hread, by simpa using hfits⟩
      · exact absurd (.innerSign halias htext hread hfits) hno
    · have hfits : Fits64 (2 ^ bit) := fits64_of_ne_signBit hlt fun h => hno <| by
        rw [h] at hbit
        exact .signBit halias hvalue htext hbit
      rw [wrap64_of_fits hfits]
      exact ⟨_, .bit halias hvalue htext hbit, by simpa using hfits⟩
    · have hliteral : d.Places IsLiteral holder extension offset :=
        not_not.mp fun hinner => hno (.innerOperand hplaces hinner)
      have hfits : ∀ step ∈ placeSteps d.negative extension offset, Fits64 step :=
        fun step hstep => not_not.mp fun hover => hno (.overflow hplaces ⟨step, hstep, hover⟩)
      rw [inRange_of_fits hfits]
      exact ⟨_, .place hliteral, hfits⟩
  · rintro ⟨steps, hgives, hfits⟩
    cases hgives with
    | literal halias htext h => exact ⟨halias, .inl ⟨_, htext, .inl h, hfits _ (by simp)⟩⟩
    | @bit text bit halias hvalue htext h =>
        have hfits : Fits64 (2 ^ bit) := hfits _ (by simp)
        have hlt := fits64_two_pow_iff.mp hfits
        exact ⟨halias, .inr (.inl ⟨hvalue, _, _, htext, h, by omega, wrap64_of_fits hfits⟩)⟩
    | place h =>
        exact ⟨h.no_alias, .inr (.inr ⟨_, _, places_of_fits h hfits, inRange_of_fits hfits⟩)⟩

/-! ### What is answered -/

theorem Answers.map {α : Type} {name : String} {outcome : Outcome Int} {number : Int → α}
    (h : Answers name id outcome) : Answers name number (outcome.map number) := by
  rcases h with ⟨value, hfits, rfl⟩ | ⟨fault, rfl⟩
  · exact .inl ⟨value, hfits, rfl⟩
  · exact .inr ⟨fault, rfl⟩

theorem answers_ofLiteral (name text : String) :
    Answers name id (ValueSpec.ofLiteral name text) := by
  cases h : ValueSpec.ofLiteral name text with
  | ok value => exact .inl ⟨value, (ofLiteral_eq_ok_iff.mp h).2, rfl⟩
  | error failure =>
      unfold ValueSpec.ofLiteral at h
      split at h
      · cases h
      · exact .inr ⟨_, h.symm⟩

theorem answers_ofBit (name text : String) : Answers name id (ValueSpec.ofBit name text) := by
  cases h : ValueSpec.ofBit name text with
  | ok value =>
      obtain ⟨bit, -, -, hword⟩ := ofBit_eq_ok_iff.mp h
      exact .inl ⟨value, hword ▸ fits64_wrap64 _, rfl⟩
  | error failure =>
      unfold ValueSpec.ofBit at h
      split at h
      · exact .inr ⟨_, h.symm⟩
      · split at h
        · cases h
        · exact .inr ⟨_, h.symm⟩

theorem rangeOwner_or_fault (d : ValueDirective) (holder : Option Nat) :
    (∃ extension, ValueSpec.rangeOwner d holder = .ok extension) ∨
      ∃ fault, ValueSpec.rangeOwner d holder = ValueSpec.Fault.of d.name fault := by
  unfold ValueSpec.rangeOwner
  split
  · next text _ =>
      rcases answers_ofLiteral d.name text with ⟨extension, -, h⟩ | h
      · exact .inl ⟨extension, h⟩
      · exact .inr h
  · exact .inl ⟨_, rfl⟩
  · exact .inr ⟨_, rfl⟩

theorem answers_ofBlock (halias : decl.aliasOf = none) :
    Answers decl.name .number (ValueSpec.ofBlock decl) := by
  unfold ValueSpec.ofBlock
  split
  · next name hsome => cases halias.symm.trans hsome
  · exact (answers_ofBit _ _).map
  · exact (answers_ofLiteral _ _).map
  · exact .inr ⟨_, rfl⟩

theorem answers_ofDirective (halias : d.aliasOf = none) (hgiven : d.GivesNumber) :
    Answers d.name (some ∘ .number) (ValueSpec.ofDirective d holder) := by
  unfold ValueSpec.ofDirective
  split
  · next name hsome => cases halias.symm.trans hsome
  · exact (answers_ofLiteral _ _).map
  · exact (answers_ofBit _ _).map
  · next place _ _ _ _ =>
      rcases answers_ofLiteral d.name place with ⟨offset, -, hoffset⟩ | ⟨fault, hoffset⟩
      · rcases rangeOwner_or_fault d holder with ⟨extension, hextension⟩ | ⟨fault, hextension⟩
        · exact .inl ⟨_, fits64_inRange d.negative extension offset, by
            rw [hoffset, hextension]
            rfl⟩
        · exact .inr ⟨fault, by
            rw [hoffset, hextension]
            rfl⟩
      · exact .inr ⟨fault, by
          rw [hoffset]
          rfl⟩
  · next hvalue hbit hoffset => simp [ValueDirective.GivesNumber, hvalue, hbit, hoffset] at hgiven

/-! ### Exact values -/

/-- The computed numbers are the given ones unless one of the slips happens; what is computed for
a place is the number of 64 bits at which every step wraps around.  In any case the answer is a
number of 64 bits or an error that names the declaration. -/
theorem computedExactly_iff (decl : ValueDecl) (d : ValueDirective) (holder : Option Nat) :
    (decl.ComputedExactly ↔ ¬ decl.Slips) ∧ (d.ComputedExactly holder ↔ ¬ d.Slips holder) ∧
    (∀ extension offset, d.Places ReadsAs holder extension offset →
      ValueSpec.ofDirective d holder = .ok (some (.number
        (placeWord d.negative (.ofInt extension) (.ofInt offset)).toInt))) ∧
    (decl.aliasOf = none → Answers decl.name .number (ValueSpec.ofBlock decl)) ∧
    (d.aliasOf = none → d.GivesNumber →
      Answers d.name (some ∘ .number) (ValueSpec.ofDirective d holder)) := by
  refine ⟨⟨fun h hslip => hslip.not_computedExactly h, ValueDecl.computedExactly_of_not_slips⟩,
    ⟨fun h hslip => hslip.not_computedExactly h, ValueDirective.computedExactly_of_not_slips⟩,
    ?_, answers_ofBlock, answers_ofDirective⟩
  intro extension offset h
  rw [ofDirective_eq_number_iff, ← inRange_eq_placeWord]
  exact ⟨h.no_alias, .inr (.inr ⟨extension, offset, h, rfl⟩)⟩

/-- The highest bit that is no sign. -/
def highBit : ValueDecl :=
  { name := "VK_ACCESS_MAX_BIT", bitpos := some " +62 " }

/-- A place below zero in the range of another extension than the one that holds the directive. -/
def lostDevice : ValueDirective :=
  { name := "VK_ERROR_DEVICE_LOST_EXT", offset := some "3", negative := true,
    extnumber := some "2" }

/-- The bit behind the highest one. -/
def signBit : ValueDecl :=
  { name := "VK_ACCESS_SIGN_BIT", bitpos := some "63" }

/-- A place behind all numbers of 64 bits. -/
def farAway : ValueDirective :=
  { name := "VK_ERROR_FAR_AWAY_EXT", offset := some "9223372036854775807" }

theorem isLiteral_of_digits {digits : String} {number : Nat}
    (h : Literal.DecimalDigits digits.toList number) (hfits : number < 2 ^ 127) :
    IsLiteral digits number := by
  have hplain : Plain (digits.toList ++ []) number := .positive (.decimal h) hfits (by simp)
  rw [List.append_nil] at hplain
  exact .inside hplain

/-- The extension of the directive comes before the one that holds it. -/
theorem places_lostDevice : lostDevice.Places IsLiteral (some 7) 2 3 where
  no_alias := rfl
  no_value := rfl
  no_bitpos := rfl
  offset :=
    ⟨"3", rfl, isLiteral_of_digits ⟨by decide, by simp [Text.IsDigit], rfl⟩ (by decide)⟩
  extension := .inl
    ⟨"2", rfl, isLiteral_of_digits ⟨by decide, by simp [Text.IsDigit], rfl⟩ (by decide)⟩

/-- Bit 62 of a block, and a number of the second extension that the seventh one declares. -/
theorem computedExactly_highBit :
    highBit.aliasOf = none ∧ highBit.ComputedExactly ∧
    ValueSpec.ofBlock highBit = .ok (.number 4611686018427387904) ∧
    Answers highBit.name .number (ValueSpec.ofBlock highBit) ∧
    lostDevice.aliasOf = none ∧ lostDevice.GivesNumber ∧
    lostDevice.Places ReadsAs (some 7) 2 3 ∧ lostDevice.ComputedExactly (some 7) ∧
    ValueSpec.ofDirective lostDevice (some 7) = .ok (some (.number (-1000001003))) ∧
    Answers lostDevice.name (some ∘ .number) (ValueSpec.ofDirective lostDevice (some 7)) := by
  obtain ⟨hblock, hdirective, hplace, hanswer, hanswer'⟩ :=
    computedExactly_iff highBit lostDevice (some 7)
  have hfits : ∀ step ∈ placeSteps lostDevice.negative 2 3, Fits64 step := by decide
  have hreads : lostDevice.Places ReadsAs (some 7) 2 3 := places_of_fits places_lostDevice hfits
  have hbit : IsPosition " +62 " 62 := (toNat32?_trim_eq_some_iff (by decide)).mp (by decide)
  have hblock : highBit.ComputedExactly := hblock.mpr fun hslip => by
    cases hslip with
    | signBit _ htext h =>
        cases htext
        have hsign := (toNat32?_trim_eq_some_iff (by decide)).mpr h
        revert hsign
        decide
    | innerSign _ hnone _ _ _ => cases hnone
  have hdirective : lostDevice.ComputedExactly (some 7) := hdirective.mpr fun hslip => by
    cases hslip with
    | signBit _ _ htext _ => cases htext
    | innerSign _ htext _ _ => cases htext
    | innerOperand h hno =>
        obtain ⟨rfl, rfl⟩ := places_unique h places_lostDevice
        exact hno places_lostDevice
    | overflow h hstep =>
        obtain ⟨rfl, rfl⟩ := places_unique h places_lostDevice
        obtain ⟨step, hstep, hover⟩ := hstep
        exact hover (hfits step hstep)
  have hgiven : lostDevice.GivesNumber := .inr (.inr rfl)
  exact ⟨rfl, hblock, (hblock _).mpr ⟨.bit rfl rfl hbit, by decide⟩, hanswer rfl, rfl, hgiven,
    hreads, hdirective, hplace 2 3 hreads, hanswer' rfl hgiven⟩

/-- Bit 63 turns out below zero, and so does a place that lies above all other numbers. -/
theorem not_computedExactly_signBit :
    ValueSpec.ofBlock signBit = .ok (.number (-9223372036854775808)) ∧
    ¬ signBit.ComputedExactly ∧
    ValueSpec.ofDirective farAway (some 1) = .ok (some (.number (-9223372035854775809))) ∧
    ¬ farAway.ComputedExactly (some 1) := by
  have hbit : IsPosition "63" 63 := (toNat32?_trim_eq_some_iff (by decide)).mp (by decide)
  have hoffset : IsLiteral "9223372036854775807" (9223372036854775807 : Nat) :=
    isLiteral_of_digits ⟨by decide, by simp [Text.IsDigit], rfl⟩ (by decide)
  have hplaces : farAway.Places ReadsAs (some 1) 1 9223372036854775807 :=
    ⟨rfl, rfl, rfl, ⟨_, rfl, .inl hoffset, by decide⟩, .inr ⟨rfl, 1, rfl, rfl⟩⟩
  have hslip : signBit.Slips := .signBit rfl rfl hbit
  have hslip' : farAway.Slips (some 1) := .overflow hplaces (by decide)
  exact ⟨by decide +kernel, hslip.not_computedExactly, by decide +kernel,
    hslip'.not_computedExactly⟩

end VulkanRegistry
