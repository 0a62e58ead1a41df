/-
Reading unsigned numbers of a bounded size.

Digits are read from left to right into a number that must stay below a limit, and
the first thing that goes wrong is the answer: a character that is no digit of the
base, or a digit that would pass the limit.  So `4294967296x` is too large and not
a bad digit, because the limit is passed before the letter is met.
-/
import VulkanRegistry.Text.Pieces

namespace VulkanRegistry.Text

/-- Why a text is not a number. -/
inductive NumeralFault
  | empty
  | badDigit
  | tooLarge
  deriving DecidableEq, Repr, Inhabited

/-- The value of a digit in either letter case, if the base has it. -/
def digitValue? (base : Nat) (c : Char) : Option Nat :=
  let value? :=
    if c.isDigit then some (c.toNat - '0'.toNat)
    else if 'a' ≤ c ∧ c ≤ 'z' then some (c.toNat - 'a'.toNat + 10)
    else if 'A' ≤ c ∧ c ≤ 'Z' then some (c.toNat - 'A'.toNat + 10)
    else none
  value?.filter (· < base)

/-- Continues the number `acc` with further digits; the result must be below `limit`. -/
def readDigits (base limit : Nat) : Nat → List Char → Except NumeralFault Nat
  | acc, [] => .ok acc
  | acc, c :: cs =>
      match digitValue? base c with
      | none => .error .badDigit
      | some d =>
          if acc * base + d < limit then readDigits base limit (acc * base + d) cs
          else .error .tooLarge

/-- Reads a number that has at least one digit. -/
def readNumeral (base limit : Nat) (cs : List Char) : Except NumeralFault Nat :=
  if cs.isEmpty then .error .empty else readDigits base limit 0 cs

/-- One more than the largest number of 32 bits. -/
def limit32 : Nat := UInt32.size

/-- A decimal number of 32 bits; a plus sign in front is allowed. -/
def toNat32? (cs : List Char) : Option Nat :=
  let digits := (afterStart? ['+'] cs).getD cs
  (readNumeral 10 limit32 digits).toOption

end VulkanRegistry.Text
