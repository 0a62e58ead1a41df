/-
Reading the length of an array.

An identifier in a length is a reference, together with the steps that follow it; a
number swallows the letters and dots behind it, so that a suffix is no reference; all
else is text.  The head of a reference has to be a sibling and each step a member of the
struct that the field before it refers to.  A single identifier that is no sibling may
also be a constant.
-/
import VulkanRegistry.Constant.Table
import VulkanRegistry.TypeTable.Basic

namespace VulkanRegistry

/-- Whether a field is a struct member or a command parameter. -/
inductive FieldKind
  | member
  | parameter
  deriving DecidableEq, Repr, Inhabited

/-- What surrounds a field. -/
structure FieldContext where
  /-- The struct or the command. -/
  owner : String
  kind : FieldKind
  /-- All fields of the owner, the one in question included. -/
  siblings : List FieldDecl
  types : TypeTable
  constants : ConstantTable

/-- The first field of a name. -/
def findField? (fields : List FieldDecl) (name : String) : Option FieldDecl :=
  fields.find? (·.name == name)

namespace LengthExpr

/-! ### Cutting an expression -/

/-- A character that may start an identifier. -/
def startsIdentifier (c : Char) : Bool :=
  c.isAlpha || c == '_'

/-- A character of an identifier. -/
def inIdentifier (c : Char) : Bool :=
  c.isAlphanum || c == '_'

/-- A character of a number with its suffix. -/
def inNumber (c : Char) : Bool :=
  c.isAlphanum || c == '.'

/-- The step at the front of a text, if an identifier follows its sign: the step, and the
text from that identifier on. -/
def pathStep? : List Char → Option (PathStep × List Char)
  | '-' :: '>' :: c :: cs => if startsIdentifier c then some (.pointee, c :: cs) else none
  | '[' :: ']' :: '.' :: c :: cs => if startsIdentifier c then some (.element, c :: cs) else none
  | _ => none

theorem length_of_pathStep? {cs rest : List Char} {step : PathStep}
    (h : pathStep? cs = some (step, rest)) : rest.length < cs.length := by
  unfold pathStep? at h
  split at h
  · split at h
    · simp only [Option.some.injEq, Prod.mk.injEq] at h
      obtain ⟨-, rfl⟩ := h
      simp only [List.length_cons]
      omega
    · simp at h
  · split at h
    · simp only [Option.some.injEq, Prod.mk.injEq] at h
      obtain ⟨-, rfl⟩ := h
      simp only [List.length_cons]
      omega
    · simp at h
  · simp at h

/-- The steps at the front of a text, and the rest. -/
def pathSteps (cs : List Char) : List (PathStep × String) × List Char :=
  match _h : pathStep? cs with
  | none => ([], cs)
  | some (step, named) =>
      let name := String.ofList (named.takeWhile inIdentifier)
      let (steps, rest) := pathSteps (named.dropWhile inIdentifier)
      ((step, name) :: steps, rest)
  termination_by cs.length
  decreasing_by
    have := length_of_pathStep? ‹_›
    have := (List.dropWhile_sublist (l := named) inIdentifier).length_le
    omega

theorem length_pathSteps_le (cs : List Char) : (pathSteps cs).2.length ≤ cs.length := by
  fun_induction pathSteps cs with
  | case1 cs h => exact Nat.le_refl _
  | case2 cs step named h name steps rest heq ih =>
      have := length_of_pathStep? h
      have := (List.dropWhile_sublist (l := named) inIdentifier).length_le
      simp only [heq] at ih
      dsimp only
      omega

/-- A part of an expression whose references are not resolved. -/
inductive Piece
  | text (text : List Char)
  | reference (path : FieldPath)
  deriving DecidableEq, Repr, Inhabited

/-- Puts text in front of pieces; adjacent texts are one. -/
def consText (text : List Char) : List Piece → List Piece
  | .text behind :: pieces => .text (text ++ behind) :: pieces
  | pieces => .text text :: pieces

/-- Cuts an expression into text and references. -/
def cut (cs : List Char) : List Piece :=
  match cs with
  | [] => []
  | c :: cs =>
      if startsIdentifier c then
        let head := c :: cs.takeWhile inIdentifier
        let behind := pathSteps (cs.dropWhile inIdentifier)
        have := length_pathSteps_le (cs.dropWhile inIdentifier)
        have := (List.dropWhile_sublist (l := cs) inIdentifier).length_le
        .reference ⟨String.ofList head, behind.1⟩ :: cut behind.2
      else if c.isDigit then
        have := (List.dropWhile_sublist (l := cs) inNumber).length_le
        consText (c :: cs.takeWhile inNumber) (cut (cs.dropWhile inNumber))
      else consText [c] (cut cs)
  termination_by cs.length

/-! ### Resolving the references -/

/-- The field that one more step leads to. -/
def stepInto (ctx : FieldContext) (unresolved : RegistryError) (field : FieldDecl)
    (name : String) : Outcome FieldDecl := do
  let id ← ctx.types.resolve field.typeName ctx.owner
  match (ctx.types.decl? id).bind (findField? ·.members name) with
  | some found => return found
  | none => throw unresolved

/-- Resolves a reference in the length `expr` of the field `member`. -/
def resolveReference (ctx : FieldContext) (expr member : String) (path : FieldPath) :
    Outcome LengthToken :=
  let unresolved := RegistryError.unresolvedLength ctx.owner member expr path.toString
  match findField? ctx.siblings path.head with
  | some sibling => do
      let field ← path.steps.foldlM (fun field (_, name) => stepInto ctx unresolved field name) sibling
      return .field path (field.declarator.toList.contains '*')
  | none =>
      if path.steps.isEmpty && ctx.constants.contains path.head then .ok (.constant path.head)
      else .error unresolved

/-- Resolves a piece. -/
def resolvePiece (ctx : FieldContext) (expr member : String) : Piece → Outcome LengthToken
  | .text text => .ok (.text (String.ofList text))
  | .reference path => resolveReference ctx expr member path

/-- Reads the length `expr` of the field `member`. -/
def read (ctx : FieldContext) (member expr : String) : Outcome LengthExpr := do
  let tokens ← (cut expr.toList).mapM (resolvePiece ctx expr member)
  return ⟨expr, tokens⟩

end LengthExpr

end VulkanRegistry
