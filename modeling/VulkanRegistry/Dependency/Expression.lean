/-
Dependency expressions.

A block of directives may depend on versions and extensions.  In its expression a comma
means that one side is enough, a plus sign binds tighter and means that both sides are
needed, and parentheses group; blanks may stand around names and parentheses.  An
expression is parsed to a tree first.  Its value under a choice of names, and the names
it asks about, are then read off the tree, so every name is asked about once per mention
and from left to right, whatever the others say.

Alternatives are written `any ::= all ("," all)*` and `all ::= atom ("+" atom)*`; the
parser recurses to the right of a sign, which changes neither the value nor the order of
the names.
-/
import VulkanRegistry.Diagnostic
import VulkanRegistry.Text.Pieces

namespace VulkanRegistry.Dependency

open Text

/-- A dependency. -/
inductive Expr
  | name (name : String)
  | all (left : Expr) (right : Expr)
  | any (left : Expr) (right : Expr)
  deriving DecidableEq, Repr, Inhabited

namespace Expr

/-- The value of a dependency where `ask` tells of a name whether it holds; it is asked about
every mention of a name, from left to right. -/
def evalM {m : Type → Type} [Monad m] (ask : String → m Bool) : Expr → m Bool
  | name n => ask n
  | all left right => do
      let l ← left.evalM ask
      let r ← right.evalM ask
      return l && r
  | any left right => do
      let l ← left.evalM ask
      let r ← right.evalM ask
      return l || r

/-- Whether a dependency holds where `active` says which names do. -/
def eval (active : String → Bool) (e : Expr) : Bool :=
  Id.run (e.evalM fun n => pure (active n))

/-- Every mention of a name, from left to right. -/
def mentions : Expr → List String
  | name n => [n]
  | all left right => left.mentions ++ right.mentions
  | any left right => left.mentions ++ right.mentions

variable {active : String → Bool} {left right : Expr}

@[simp] theorem eval_name {n : String} : (name n).eval active = active n := rfl

@[simp] theorem eval_all :
    (all left right).eval active = (left.eval active && right.eval active) := rfl

@[simp] theorem eval_any :
    (any left right).eval active = (left.eval active || right.eval active) := rfl

end Expr

/-! ### Parsing -/

/-- What is wrong with an expression. -/
inductive Cause
  | expectedClose
  | expectedName
  | unexpected
  deriving DecidableEq, Repr, Inhabited

/-- The wording of a cause. -/
def Cause.message : Cause → String
  | expectedClose => "expected `)`"
  | expectedName => "expected a name"
  | unexpected => "unexpected character"

/-- A cause, and the text from the place where it was found. -/
structure Fault where
  cause : Cause
  rest : List Char
  deriving DecidableEq, Repr, Inhabited

/-- The characters of a name. -/
def inName (c : Char) : Bool :=
  c.isAlphanum || c == '_' || c == ':'

/-- A dependency parsed from the front of a text, and the shorter text behind it. -/
structure Parsed (cs : List Char) where
  expr : Expr
  rest : List Char
  shorter : rest.length < cs.length

/-- Skips blanks. -/
def skip (cs : List Char) : List Char :=
  cs.dropWhile isAsciiBlank

theorem length_skip_le (cs : List Char) : (skip cs).length ≤ cs.length :=
  (List.dropWhile_sublist isAsciiBlank).length_le

/-- A name takes at least its first character. -/
theorem length_behind_name_lt (c : Char) (behind : List Char) :
    (skip (behind.dropWhile inName)).length < (c :: behind).length := by
  have := length_skip_le (behind.dropWhile inName)
  have := (List.dropWhile_sublist (l := behind) inName).length_le
  rw [List.length_cons]
  omega

/-- Parses a name and the blanks behind it; no blanks stand in front. -/
def parseName (cs : List Char) : Except Fault (Parsed cs) :=
  match cs with
  | [] => .error ⟨.expectedName, []⟩
  | c :: behind =>
      if inName c then
        .ok ⟨.name (String.ofList (c :: behind.takeWhile inName)),
          skip (behind.dropWhile inName), length_behind_name_lt c behind⟩
      else .error ⟨.expectedName, c :: behind⟩

/-- The text behind a sign, if it starts with that sign. -/
def afterSign? (sign : Char) : List Char → Option (List Char)
  | [] => none
  | c :: cs => if c = sign then some cs else none

theorem length_of_afterSign? {sign : Char} {cs rest : List Char}
    (h : afterSign? sign cs = some rest) : rest.length < cs.length := by
  unfold afterSign? at h
  split at h
  · simp at h
  · split at h
    · simp only [Option.some.injEq] at h
      subst h
      simp
    · simp at h

mutual

/-- Parses alternatives. -/
def parseAny (cs : List Char) : Except Fault (Parsed cs) :=
  match parseAll cs with
  | .error fault => .error fault
  | .ok left =>
      match hsign : afterSign? ',' left.rest with
      | none => .ok left
      | some behind =>
          have hle := Nat.lt_trans (length_of_afterSign? hsign) left.shorter
          match parseAny behind with
          | .error fault => .error fault
          | .ok right =>
              .ok ⟨.any left.expr right.expr, right.rest, Nat.lt_trans right.shorter hle⟩
  termination_by 3 * cs.length + 2

/-- Parses what is needed together. -/
def parseAll (cs : List Char) : Except Fault (Parsed cs) :=
  match parseAtom cs with
  | .error fault => .error fault
  | .ok left =>
      match hsign : afterSign? '+' left.rest with
      | none => .ok left
      | some behind =>
          have hle := Nat.lt_trans (length_of_afterSign? hsign) left.shorter
          match parseAll behind with
          | .error fault => .error fault
          | .ok right =>
              .ok ⟨.all left.expr right.expr, right.rest, Nat.lt_trans right.shorter hle⟩
  termination_by 3 * cs.length + 1

/-- Parses a name or a group, with blanks around it. -/
def parseAtom (cs : List Char) : Except Fault (Parsed cs) :=
  match hopen : afterSign? '(' (skip cs) with
  | none =>
      match parseName (skip cs) with
      | .error fault => .error fault
      | .ok found =>
          .ok ⟨found.expr, found.rest, Nat.lt_of_lt_of_le found.shorter (length_skip_le cs)⟩
  | some inner =>
      have hle := Nat.lt_of_lt_of_le (length_of_afterSign? hopen) (length_skip_le cs)
      match parseAny inner with
      | .error fault => .error fault
      | .ok found =>
          match hclose : afterSign? ')' found.rest with
          | none => .error ⟨.expectedClose, found.rest⟩
          | some behind =>
              .ok ⟨found.expr, skip behind, by
                have := length_skip_le behind
                have := length_of_afterSign? hclose
                have := found.shorter
                omega⟩
  termination_by 3 * cs.length

end

/-- Parses a whole text. -/
def parseChars (cs : List Char) : Except Fault Expr :=
  match parseAny cs with
  | .error fault => .error fault
  | .ok found =>
      if found.rest.isEmpty then .ok found.expr else .error ⟨.unexpected, found.rest⟩

/-- Parses an expression; a fault is told by its offset in bytes. -/
def parse (expr : String) : Outcome Expr :=
  match parseChars expr.toList with
  | .ok parsed => .ok parsed
  | .error fault =>
      let offset := byteLength expr.toList - byteLength fault.rest
      .error (.malformed 0
        s!"dependency expression `{expr}`: {fault.cause.message} at offset {offset}")

/-- Whether an expression holds where `ask` tells of a name whether it does. -/
def evaluateM {m : Type → Type} [Monad m] (expr : String) (ask : String → m Bool) :
    m (Outcome Bool) :=
  match parse expr with
  | .error fault => return .error fault
  | .ok parsed => do
      let value ← parsed.evalM ask
      return .ok value

/-- Whether an expression holds where `active` says which names do. -/
def evaluate (expr : String) (active : String → Bool) : Outcome Bool :=
  Id.run (evaluateM expr fun name => pure (active name))

theorem evaluate_eq_map (expr : String) (active : String → Bool) :
    evaluate expr active = (parse expr).map (·.eval active) := by
  unfold evaluate evaluateM
  cases parse expr <;> rfl

end VulkanRegistry.Dependency
