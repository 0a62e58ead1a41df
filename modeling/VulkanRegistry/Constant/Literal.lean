/-
Integer literals of C.

A literal is decimal or hexadecimal, may carry a minus sign and a suffix of the letters
u and l, and may stand in parentheses; `~` in front takes the complement within 32 bits,
or within 64 if the operand is written with the suffix ll.  The hexadecimal digits may
carry a sign of their own.  Values fit 128 bits; a negation that leaves that range wraps
around.  Anything else is not an integer, which is no fault: constants may be floats or
strings.
-/
import VulkanRegistry.Text.Numeral

namespace VulkanRegistry.Literal

open Text

/-- One more than the largest value: values have 128 bits, one of them for the sign. -/
def valueLimit : Nat := 1 <<< 127

/-- What is written between an outer pair of parentheses. -/
def betweenParens? : List Char → Option (List Char)
  | '(' :: cs => if cs.getLast? = some ')' then some cs.dropLast else none
  | _ => none

theorem length_of_betweenParens? {cs inner : List Char} (h : betweenParens? cs = some inner) :
    inner.length < cs.length := by
  unfold betweenParens? at h
  split at h
  · split at h
    · simp only [Option.some.injEq] at h
      subst h
      simp only [List.length_dropLast, List.length_cons]
      omega
    · simp at h
  · simp at h

/-- Takes blanks and parentheses away from around a literal. -/
def peel (cs : List Char) : List Char :=
  match _h : betweenParens? (trim cs) with
  | some inner => peel inner
  | none => trim cs
  termination_by cs.length
  decreasing_by exact Nat.lt_of_lt_of_le (length_of_betweenParens? ‹_›) (length_trim_le cs)

theorem length_peel_le (cs : List Char) : (peel cs).length ≤ cs.length := by
  fun_induction peel cs with
  | case1 cs inner h ih =>
      have := length_of_betweenParens? h
      have := length_trim_le cs
      omega
  | case2 cs h => exact length_trim_le cs

/-- The letters of a suffix. -/
def isSuffixLetter (c : Char) : Bool :=
  c == 'u' || c == 'U' || c == 'l' || c == 'L'

/-- Reads hexadecimal digits with a sign of their own. -/
def signedHex? (cs : List Char) : Option Int :=
  match cs with
  | '-' :: digits => (readNumeral 16 (valueLimit + 1) digits).toOption.map fun n => -(n : Int)
  | '+' :: digits => (readNumeral 16 valueLimit digits).toOption.map Int.ofNat
  | digits => (readNumeral 16 valueLimit digits).toOption.map Int.ofNat

/-- Reads a literal without sign, complement and parentheses. -/
def magnitude? (cs : List Char) : Option Int :=
  match trimEnd isSuffixLetter cs with
  | '0' :: 'x' :: hex => signedHex? hex
  | '0' :: 'X' :: hex => signedHex? hex
  | digits => (readNumeral 10 valueLimit digits).toOption.map Int.ofNat

/-- The negative of a value, within 128 bits. -/
def negate (value : Int) : Int :=
  (-value).bmod (2 * valueLimit)

/-- Whether an operand is written as a value of 64 bits. -/
def isWide (operand : List Char) : Bool :=
  isInfix ['L', 'L'] (operand.map Char.toUpper)

/-- The complement of a value within 64 or 32 bits. -/
def complement (wide : Bool) (value : Int) : Int :=
  (-value - 1) % (if wide then UInt64.size else UInt32.size : Nat)

/-- Reads a literal. -/
def read? (cs : List Char) : Option Int :=
  match _h : peel cs with
  | '~' :: operand => (read? operand).map (complement (isWide operand))
  | '-' :: rest => (magnitude? rest).map negate
  | digits => magnitude? digits
  termination_by cs.length
  decreasing_by
    have := length_peel_le cs
    simp only [‹peel cs = _›, List.length_cons] at this
    omega

/-- The integer that a text is a literal of. -/
def toInt? (s : String) : Option Int :=
  read? s.toList

/-- A value that fits a signed number of 64 bits. -/
def signed64? (value : Int) : Option Int :=
  if Int64.minValue.toInt ≤ value ∧ value ≤ Int64.maxValue.toInt then some value else none

/-- A value that fits an unsigned number of 64 bits. -/
def unsigned64? (value : Int) : Option Nat :=
  if 0 ≤ value ∧ value < UInt64.size then some value.toNat else none

end VulkanRegistry.Literal
