/-
C declarators.

Without its type and its name, a field of C is a sequence of stars, bracketed extents, a
width in bits and the words `const` and `struct`, with blanks between them.  The text is
cut into these tokens first; a declarator is then read off the token list, which never
fails.  A `const` belongs to the next star behind it, and to the element type if there is
no star at all; behind the last star it says that the pointer itself is constant, which
is not recorded.
-/
import VulkanRegistry.Diagnostic
import VulkanRegistry.Text.Numeral

namespace VulkanRegistry

open Text

/-- A declarator by its parts. -/
structure Declarator where
  /-- One entry per star, in textual order: whether the pointee is constant. -/
  pointers : List Bool
  /-- The extents in textual order, without blanks around them. -/
  extents : List String
  /-- Whether the elements of an array are constant. -/
  constElement : Bool
  /-- The width in bits. -/
  bits : Option Nat
  deriving DecidableEq, Repr, Inhabited

namespace Declarator

/-- A word or sign of a declarator. -/
inductive Token
  | star
  | extent (text : List Char)
  | width (bits : Nat)
  | const
  | struct
  deriving DecidableEq, Repr, Inhabited

/-- Why a text is no declarator. -/
inductive Fault
  | bracketOpen
  | widthNotNumber
  | unexpected (c : Char)
  deriving DecidableEq, Repr, Inhabited

/-- The wording of a fault. -/
def Fault.message : Fault → String
  | bracketOpen => "unclosed `[`"
  | widthNotNumber => "bitfield width is not a number"
  | unexpected c => s!"unexpected `{c}`"

/-- Reads a word behind which anything may follow. -/
def wordToken (cs : List Char) : Option (Token × List Char) :=
  match afterStart? "const".toList cs with
  | some rest => some (.const, rest)
  | none => (afterStart? "struct".toList cs).map fun rest => (.struct, rest)

/-- Reads the token at the front of a text that starts with `c`. -/
def nextToken (c : Char) (cs : List Char) : Except Fault (Token × List Char) :=
  match c with
  | '*' => .ok (.star, cs)
  | '[' =>
      match cs.dropWhile (· != ']') with
      | [] => .error .bracketOpen
      | _ :: rest => .ok (.extent (trim (cs.takeWhile (· != ']'))), rest)
  | ':' =>
      let behind := trimStart isBlank cs
      match readNumeral 10 limit32 (behind.takeWhile Char.isDigit) with
      | .ok bits => .ok (.width bits, behind.dropWhile Char.isDigit)
      | .error _ => .error .widthNotNumber
  | _ =>
      match wordToken (c :: cs) with
      | some found => .ok found
      | none => .error (.unexpected c)

theorem length_of_wordToken {c : Char} {cs rest : List Char} {token : Token}
    (h : wordToken (c :: cs) = some (token, rest)) : rest.length ≤ cs.length := by
  unfold wordToken at h
  split at h
  · next behind hconst =>
      simp only [Option.some.injEq, Prod.mk.injEq] at h
      obtain ⟨-, rfl⟩ := h
      have := congrArg List.length (afterStart?_eq_some_iff.mp hconst)
      simp at this
      omega
  · cases hstruct : afterStart? "struct".toList (c :: cs) with
    | none => rw [hstruct] at h; simp at h
    | some behind =>
        rw [hstruct] at h
        simp only [Option.map_some, Option.some.injEq, Prod.mk.injEq] at h
        obtain ⟨-, rfl⟩ := h
        have := congrArg List.length (afterStart?_eq_some_iff.mp hstruct)
        simp at this
        omega

theorem length_of_nextToken {c : Char} {cs rest : List Char} {token : Token}
    (h : nextToken c cs = .ok (token, rest)) : rest.length ≤ cs.length := by
  unfold nextToken at h
  split at h
  · simp only [Except.ok.injEq, Prod.mk.injEq] at h
    obtain ⟨-, rfl⟩ := h
    exact Nat.le_refl _
  · have hle := (List.dropWhile_sublist (l := cs) (· != ']')).length_le
    split at h
    · simp at h
    · next hdrop =>
        rw [hdrop] at hle
        simp only [Except.ok.injEq, Prod.mk.injEq] at h
        obtain ⟨-, rfl⟩ := h
        simp only [List.length_cons] at hle
        omega
  · have hle := length_trimStart_le isBlank cs
    have hle2 := (List.dropWhile_sublist (l := trimStart isBlank cs) Char.isDigit).length_le
    dsimp only at h
    split at h
    · simp only [Except.ok.injEq, Prod.mk.injEq] at h
      obtain ⟨-, rfl⟩ := h
      omega
    · simp at h
  · split at h
    · next hword =>
        simp only [Except.ok.injEq] at h
        subst h
        exact length_of_wordToken hword
    · simp at h

/-- Cuts a text into tokens. -/
def tokenize (cs : List Char) : Except Fault (List Token) :=
  match _hcs : trimStart isBlank cs with
  | [] => .ok []
  | c :: behind =>
      match _h : nextToken c behind with
      | .error fault => .error fault
      | .ok (token, rest) => do
          let tokens ← tokenize rest
          return token :: tokens
  termination_by cs.length
  decreasing_by
    have hle := length_trimStart_le isBlank cs
    have := length_of_nextToken ‹_›
    simp only [‹trimStart isBlank cs = _›, List.length_cons] at hle
    omega

/-- One flag per star: whether a `const` stands between it and the star before it.  The
argument says whether a `const` has been met already. -/
def starFlags (pending : Bool) : List Token → List Bool
  | [] => []
  | .star :: rest => pending :: starFlags false rest
  | .const :: rest => starFlags true rest
  | _ :: rest => starFlags pending rest

/-- The extent that a token holds. -/
def Token.extent? : Token → Option String
  | .extent text => some (String.ofList text)
  | _ => none

/-- The width that a token holds. -/
def Token.width? : Token → Option Nat
  | .width bits => some bits
  | _ => none

/-- The declarator of a sequence of tokens; the last width counts. -/
def ofTokens (tokens : List Token) : Declarator :=
  let pointers := starFlags false tokens
  { pointers
    extents := tokens.filterMap Token.extent?
    constElement := pointers.head?.getD (tokens.contains .const)
    bits := (tokens.filterMap Token.width?).getLast? }

/-- Reads the declarator of a field; `owner` names the field in messages. -/
def parse (source owner : String) : Outcome Declarator :=
  match tokenize (trim source.toList) with
  | .ok tokens => .ok (ofTokens tokens)
  | .error fault =>
      .error (.malformed 0 s!"malformed declarator `{source}` on `{owner}`: {fault.message}")

end Declarator

end VulkanRegistry
