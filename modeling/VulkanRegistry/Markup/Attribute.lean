/-
The attributes of a tag.

After the name a tag holds attributes: a key, an equals sign and a value in quotes,
with blanks allowed anywhere between these parts and not even needed between two
attributes.  The first character of a key is taken as it comes, so a key may start
with an equals sign; it then runs to the next equals sign or blank.  A key may occur
once.  Attributes are read and their values expanded one by one, and the first fault
is the answer.
-/
import VulkanRegistry.Markup.Reference

namespace VulkanRegistry.Markup

open Text

/-- An attribute as the tag writes it, with the offset of its key. -/
structure RawAttribute where
  key : List Char
  value : List Char
  offset : Nat
  deriving DecidableEq, Repr, Inhabited

/-- Whether a key stops in front of this character. -/
def isKeyEnd (c : Char) : Bool :=
  c == '=' || isMarkupBlank c

/-- Splits what follows a key into the number of bytes up to and including the equals
sign and the rest.  The arguments are the size of the tag and the offset at which the
key ended. -/
def afterEquals (size offset : Nat) (cs : List Char) : Except AttributeFault (Nat × List Char) :=
  let blanks := cs.takeWhile isMarkupBlank
  match cs.dropWhile isMarkupBlank with
  | [] => .error (.keyUnfinished size)
  | '=' :: rest => .ok (offset + byteLength blanks + 1, rest)
  | _ => .error (.keyUnfinished (offset + byteLength blanks))

/-- Reads a quoted value: the value, the offset behind the closing quote and the rest. -/
def quotedValue (size offset : Nat) (cs : List Char) :
    Except AttributeFault (List Char × Nat × List Char) :=
  let blanks := cs.takeWhile isMarkupBlank
  match cs.dropWhile isMarkupBlank with
  | [] => .error (.valueMissing size)
  | quote :: rest =>
      if quote = '"' ∨ quote = '\x27' then
        let value := rest.takeWhile (· != quote)
        match rest.dropWhile (· != quote) with
        | [] => .error (.quoteMissing size quote)
        | _ :: rest => .ok (value, offset + byteLength blanks + byteLength value + 2, rest)
      else .error (.valueUnquoted (offset + byteLength blanks))

theorem length_of_afterEquals {size offset next : Nat} {cs rest : List Char}
    (h : afterEquals size offset cs = .ok (next, rest)) : rest.length < cs.length := by
  have hle := (List.dropWhile_sublist (l := cs) isMarkupBlank).length_le
  unfold afterEquals at h
  dsimp only at h
  split at h
  · simp at h
  · next heq =>
      simp only [Except.ok.injEq, Prod.mk.injEq] at h
      obtain ⟨-, rfl⟩ := h
      rw [heq, List.length_cons] at hle
      omega
  · simp at h

theorem length_of_quotedValue {size offset next : Nat} {cs value rest : List Char}
    (h : quotedValue size offset cs = .ok (value, next, rest)) : rest.length < cs.length := by
  have hle := (List.dropWhile_sublist (l := cs) isMarkupBlank).length_le
  unfold quotedValue at h
  dsimp only at h
  split at h
  · simp at h
  · next quote tail heq =>
      rw [heq] at hle
      have hle2 := (List.dropWhile_sublist (l := tail) (· != quote)).length_le
      split at h
      · split at h
        · simp at h
        · next last rest2 heq2 =>
            rw [heq2] at hle2
            simp only [Except.ok.injEq, Prod.mk.injEq] at h
            obtain ⟨-, -, rfl⟩ := h
            simp only [List.length_cons] at hle hle2
            omega
      · simp at h

/-- The attribute of a key among those read already. -/
def keyOffset? (key : List Char) (seen : List RawAttribute) : Option Nat :=
  (seen.find? (·.key == key)).map (·.offset)

/-- One attribute that has been read, and where reading goes on. -/
structure AttributeStep where
  written : RawAttribute
  expanded : List Char
  next : Nat
  rest : List Char

/-- Reads one attribute from what is left of a tag of `size` bytes, if anything is left.
The attributes `seen` came before and `offset` is the offset of what is left. -/
def nextAttribute (size : Nat) (seen : List RawAttribute) (offset : Nat) (cs : List Char) :
    Except Fault (Option AttributeStep) :=
  let start := offset + byteLength (cs.takeWhile isMarkupBlank)
  match cs.dropWhile isMarkupBlank with
  | [] => .ok none
  | first :: rest =>
      let key := first :: rest.takeWhile (!isKeyEnd ·)
      match afterEquals size (start + byteLength key) (rest.dropWhile (!isKeyEnd ·)) with
      | .error fault => .error (.ofAttribute fault)
      | .ok (valueOffset, afterKey) =>
          match keyOffset? key seen with
          | some earlier => .error (.ofAttribute (.duplicated start earlier))
          | none =>
              match quotedValue size valueOffset afterKey with
              | .error fault => .error (.ofAttribute fault)
              | .ok (value, next, remaining) =>
                  match expand value with
                  | .error fault => .error (.ofEscape fault)
                  | .ok expanded => .ok (some ⟨⟨key, value, start⟩, expanded, next, remaining⟩)

theorem length_of_nextAttribute {size offset : Nat} {seen : List RawAttribute} {cs : List Char}
    {step : AttributeStep} (h : nextAttribute size seen offset cs = .ok (some step)) :
    step.rest.length < cs.length := by
  have h0 := (List.dropWhile_sublist (l := cs) isMarkupBlank).length_le
  unfold nextAttribute at h
  dsimp only at h
  split at h
  · simp at h
  · next first rest hcs =>
      have h1 := (List.dropWhile_sublist (l := rest) (!isKeyEnd ·)).length_le
      rw [hcs] at h0
      simp only [List.length_cons] at h0
      split at h
      · simp at h
      · next hkey =>
          have := length_of_afterEquals hkey
          split at h
          · simp at h
          · split at h
            · simp at h
            · next hvalue =>
                have := length_of_quotedValue hvalue
                split at h
                · simp at h
                · simp only [Except.ok.injEq, Option.some.injEq] at h
                  subst h
                  dsimp only
                  omega

/-- Reads the attributes of what is left of a tag of `size` bytes. -/
def readAttributes (size : Nat) (seen : List RawAttribute) (offset : Nat) (cs : List Char) :
    Except Fault (List (String × String)) :=
  match _h : nextAttribute size seen offset cs with
  | .error fault => .error fault
  | .ok none => .ok []
  | .ok (some step) => do
      let others ← readAttributes size (seen ++ [step.written]) step.next step.rest
      return (String.ofList step.written.key, String.ofList step.expanded) :: others
  termination_by cs.length
  decreasing_by exact length_of_nextAttribute ‹_›

/-- The name of a tag: everything up to the first blank. -/
def tagName (content : List Char) : List Char :=
  content.takeWhile (!isMarkupBlank ·)

/-- The attributes of a tag, given everything between its angle brackets. -/
def tagAttributes (content : List Char) : Except Fault (List (String × String)) :=
  readAttributes (byteLength content) [] (byteLength (tagName content))
    (content.dropWhile (!isMarkupBlank ·))

end VulkanRegistry.Markup
