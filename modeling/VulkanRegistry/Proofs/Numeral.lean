/-
The value of a number.

Digits are read into a number that has to stay below a limit all the way.  As a number only
grows by further digits, that is the same as to ask whether the whole number stays below it.
-/
import VulkanRegistry.Proofs.Text
import VulkanRegistry.Text.Numeral

namespace VulkanRegistry.Text

/-- The number that digits of any base continue. -/
def numberOf (base : Nat) : Nat → List Nat → Nat :=
  List.foldl fun number digit => number * base + digit

theorem le_numberOf {base : Nat} (hbase : 0 < base) (digits : List Nat) (number : Nat) :
    number ≤ numberOf base number digits := by
  induction digits generalizing number with
  | nil => exact Nat.le_refl _
  | cons digit digits ih =>
      calc number ≤ number * base := Nat.le_mul_of_pos_right _ hbase
        _ ≤ number * base + digit := Nat.le_add_right _ _
        _ ≤ numberOf base number (digit :: digits) := ih _

/-- A text continues a number if and only if all its characters are digits and the number that
they make stays below the limit. -/
theorem readDigits_eq_ok_iff {base limit : Nat} (hbase : 0 < base) {cs : List Char}
    {number value : Nat} (hnumber : number < limit) :
    readDigits base limit number cs = .ok value ↔
      ∃ digits, cs.mapM (digitValue? base) = some digits ∧ numberOf base number digits = value ∧
        value < limit := by
  induction cs generalizing number with
  | nil =>
      constructor
      · intro h
        cases h
        exact ⟨[], rfl, rfl, hnumber⟩
      · intro h
        obtain ⟨digits, hdigits, rfl, -⟩ := h
        cases hdigits
        rfl
  | cons c cs ih =>
      rw [readDigits]
      cases hdigit : digitValue? base c with
      | none => simp [hdigit]
      | some digit =>
          have hcons : ∀ all, (c :: cs).mapM (digitValue? base) = some all ↔
              ∃ digits, cs.mapM (digitValue? base) = some digits ∧ digit :: digits = all := by
            simp [hdigit, Option.bind_eq_some_iff]
          simp only [hcons]
          split
          · next hlt =>
              rw [ih hlt]
              constructor
              · intro h
                obtain ⟨digits, hdigits, hvalue⟩ := h
                exact ⟨digit :: digits, ⟨digits, hdigits, rfl⟩, hvalue⟩
              · intro h
                obtain ⟨-, ⟨digits, hdigits, rfl⟩, hvalue⟩ := h
                exact ⟨digits, hdigits, hvalue⟩
          · next hge =>
              constructor
              · intro h
                cases h
              · intro h
                obtain ⟨-, ⟨digits, -, rfl⟩, rfl, hvalue⟩ := h
                exact absurd (Nat.lt_of_le_of_lt (le_numberOf hbase digits _) hvalue) hge

/-! ### Digits -/

theorem toNat_le_toNat {c d : Char} : c.toNat ≤ d.toNat ↔ c ≤ d :=
  UInt32.le_iff_toNat_le.symm.trans Char.le_def.symm

/-- A hexadecimal digit of ASCII, in either letter case. -/
def IsHexDigit (c : Char) : Prop :=
  IsDigit c ∨ ('a' ≤ c ∧ c ≤ 'f') ∨ ('A' ≤ c ∧ c ≤ 'F')

instance : DecidablePred IsHexDigit :=
  fun _ => inferInstanceAs (Decidable (_ ∨ _))

theorem IsHexDigit.not_isBlank {c : Char} (h : IsHexDigit c) : isBlank c = false := by
  rcases h with h | ⟨hlow, hhigh⟩ | ⟨hlow, hhigh⟩
  · exact h.not_isBlank
  · exact not_isBlank_of_visible (Char.le_trans (by decide) hlow) (Char.le_trans hhigh (by decide))
  · exact not_isBlank_of_visible (Char.le_trans (by decide) hlow) (Char.le_trans hhigh (by decide))

/-- The number that a hexadecimal digit stands for. -/
def hexDigitNumber (c : Char) : Nat :=
  if IsDigit c then c.toNat - '0'.toNat
  else if 'a' ≤ c then c.toNat - 'a'.toNat + 10
  else c.toNat - 'A'.toNat + 10

theorem digitValue?_ten_eq_some_iff {c : Char} {digit : Nat} :
    digitValue? 10 c = some digit ↔ IsDigit c ∧ c.toNat - '0'.toNat = digit := by
  have h0 : '0'.toNat = 48 := rfl
  have h9 : '9'.toNat = 57 := rfl
  simp only [digitValue?, isDigit_iff, Option.filter_eq_some_iff, decide_eq_true_eq]
  constructor
  · rintro ⟨hvalue, hlt⟩
    -- A letter stands for ten at least.
    split_ifs at hvalue with hdigit hlower hupper
    · exact ⟨hdigit, Option.some.inj hvalue⟩
    · have := Option.some.inj hvalue
      omega
    · have := Option.some.inj hvalue
      omega
  · rintro ⟨hdigit, rfl⟩
    have hle := toNat_le_toNat.mpr hdigit.2
    exact ⟨if_pos hdigit, by omega⟩

theorem digitValue?_sixteen_eq_some_iff {c : Char} {digit : Nat} :
    digitValue? 16 c = some digit ↔ IsHexDigit c ∧ hexDigitNumber c = digit := by
  have h0 : '0'.toNat = 48 := rfl
  have h9 : '9'.toNat = 57 := rfl
  have hA : 'A'.toNat = 65 := rfl
  have hF : 'F'.toNat = 70 := rfl
  have hZ : 'Z'.toNat = 90 := rfl
  have ha : 'a'.toNat = 97 := rfl
  have hf : 'f'.toNat = 102 := rfl
  have hz : 'z'.toNat = 122 := rfl
  simp only [digitValue?, isDigit_iff, Option.filter_eq_some_iff, decide_eq_true_eq, IsHexDigit,
    hexDigitNumber, IsDigit, ← toNat_le_toNat]
  grind

section Classes

variable {base : Nat} {p : Char → Prop} {number : Char → Nat}

/-- All characters are digits of the base if all are in the class of its digits. -/
theorem mapM_digitValue?_eq_some_iff
    (hdigit : ∀ c digit, digitValue? base c = some digit ↔ p c ∧ number c = digit) {cs : List Char}
    {digits : List Nat} :
    cs.mapM (digitValue? base) = some digits ↔ (∀ c ∈ cs, p c) ∧ cs.map number = digits := by
  induction cs generalizing digits with
  | nil => simp
  | cons c cs ih =>
      simp only [List.mapM_cons, Option.bind_eq_bind, Option.bind_eq_some_iff, hdigit, ih,
        Option.pure_def, Option.some.injEq, List.forall_mem_cons, List.map_cons]
      constructor
      · rintro ⟨digit, ⟨hc, rfl⟩, digits', ⟨hcs, rfl⟩, rfl⟩
        exact ⟨⟨hc, hcs⟩, rfl⟩
      · rintro ⟨⟨hc, hcs⟩, rfl⟩
        exact ⟨number c, ⟨hc, rfl⟩, cs.map number, ⟨hcs, rfl⟩, rfl⟩

/-- A number is read if it has a digit, has nothing but digits, and is below the limit. -/
theorem readNumeral_eq_ok_iff
    (hdigit : ∀ c digit, digitValue? base c = some digit ↔ p c ∧ number c = digit)
    (hbase : 0 < base) {limit value : Nat} (hlimit : 0 < limit) {cs : List Char} :
    readNumeral base limit cs = .ok value ↔
      cs ≠ [] ∧ (∀ c ∈ cs, p c) ∧ numberOf base 0 (cs.map number) = value ∧ value < limit := by
  rw [readNumeral]
  split
  · next hnil => simp [List.isEmpty_iff.mp hnil]
  · next hne =>
      rw [List.isEmpty_iff] at hne
      rw [readDigits_eq_ok_iff hbase hlimit]
      simp only [mapM_digitValue?_eq_some_iff hdigit]
      constructor
      · rintro ⟨digits, ⟨hcs, rfl⟩, hvalue, hlt⟩
        exact ⟨hne, hcs, hvalue, hlt⟩
      · rintro ⟨-, hcs, hvalue, hlt⟩
        exact ⟨_, ⟨hcs, rfl⟩, hvalue, hlt⟩

end Classes

theorem numberOf_ten (cs : List Char) (number : Nat) :
    numberOf 10 number (cs.map (·.toNat - '0'.toNat)) = Nat.ofDigitChars 10 cs number := by
  simp only [numberOf, Nat.ofDigitChars, List.foldl_map, Nat.mul_comm]

/-- A decimal number is read if it has a digit and is below the limit. -/
theorem readNumeral_ten_eq_ok_iff {limit value : Nat} {cs : List Char} (hlimit : 0 < limit)
    (hcs : ∀ c ∈ cs, IsDigit c) :
    readNumeral 10 limit cs = .ok value ↔
      cs ≠ [] ∧ Nat.ofDigitChars 10 cs 0 = value ∧ value < limit := by
  rw [readNumeral_eq_ok_iff (fun _ _ => digitValue?_ten_eq_some_iff) (by decide) hlimit,
    numberOf_ten]
  exact ⟨fun h => ⟨h.1, h.2.2⟩, fun h => ⟨h.1, hcs, h.2⟩⟩

end VulkanRegistry.Text
