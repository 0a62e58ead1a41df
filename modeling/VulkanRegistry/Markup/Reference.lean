/-
References in text and attribute values.

An ampersand starts a reference, which ends at the next semicolon; another ampersand
before it means that the semicolon is missing.  There are five named references and
two numeric forms, decimal and hexadecimal.  Everything else stands for itself.
-/
import VulkanRegistry.Markup.Fault

namespace VulkanRegistry.Markup

open Text

/-- The named references. -/
def namedReferences : List (String × Char) :=
  [("lt", '<'), ("gt", '>'), ("amp", '&'), ("apos", '\x27'), ("quot", '"')]

/-- The character with a code, if the code is that of a character. -/
def characterOfCode (code : Nat) : Except EscapeFault Char :=
  if code = 0 then .error .zero
  else if code.isValidChar then .ok (Char.ofNat code)
  else .error (.noCharacter code)

/-- The character of a numeric reference, given what follows the number sign. -/
def characterOfNumber (cs : List Char) : Except EscapeFault Char :=
  let (base, digits) := match cs with
    | 'x' :: hex => (16, hex)
    | _ => (10, cs)
  if digits.head? = some '+' ∨ digits.head? = some '-' then .error .signedNumber
  else match readNumeral base limit32 digits with
    | .error fault => .error (.badNumber fault)
    | .ok code => characterOfCode code

/-- The character of a reference, given what stands between ampersand and semicolon.
The first argument is the offset at which that body starts. -/
def characterOfReference (start : Nat) (body : List Char) : Except EscapeFault Char :=
  match body with
  | '#' :: number => characterOfNumber number
  | _ =>
      let name := String.ofList body
      match namedReferences.lookup name with
      | some c => .ok c
      | none => .error (.unknownEntity start (start + byteLength body) name)

/-- Where the body of a reference stops. -/
def isReferenceEnd (c : Char) : Bool :=
  c == '&' || c == ';'

/-- Expands the references of what is left of a run.  The run has `size` bytes, of
which `offset` have been read. -/
def expandFrom (size offset : Nat) : List Char → Except EscapeFault (List Char)
  | [] => .ok []
  | c :: cs =>
      if c = '&' then
        let body := cs.takeWhile (!isReferenceEnd ·)
        match h : cs.dropWhile (!isReferenceEnd ·) with
        | ';' :: rest => do
            let decoded ← characterOfReference (offset + 1) body
            let tail ← expandFrom size (offset + byteLength body + 2) rest
            return decoded :: tail
        | _ => .error (.unterminated offset size)
      else do
        let tail ← expandFrom size (offset + c.utf8Size) cs
        return c :: tail
  termination_by cs => cs.length
  decreasing_by
    · have := (List.dropWhile_sublist (l := cs) (!isReferenceEnd ·)).length_le
      rw [h] at this
      simp only [List.length_cons] at this ⊢
      omega
    · simp

/-- Expands every reference of a run of text or of an attribute value. -/
def expand (raw : List Char) : Except EscapeFault (List Char) :=
  expandFrom (byteLength raw) 0 raw

end VulkanRegistry.Markup
