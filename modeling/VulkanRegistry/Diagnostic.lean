/-
Why reading a registry can fail, and how a failure is reported.

A build stops at its first failure: there is no recovery and no partial registry.
Every failure is one `RegistryError`, and three things are read off it: the code
that scripts match on, the message for the person who edits the document, and the
phase of the work it belongs to.  All wording that does not depend on a module of
its own stands in `RegistryError.message`; the layers below that name finer causes
(`Markup.Fault`, `Declarator.Fault`) word them beside their own definitions and
hand over the text with a position.
-/
namespace VulkanRegistry

/-- What kind of entity a directive names. -/
inductive EntityKind
  | type
  | command
  | value
  deriving DecidableEq, Repr, Inhabited

/-- The word for the kind in a message; values are the document's enums. -/
def EntityKind.label : EntityKind → String
  | .type => "type"
  | .command => "command"
  | .value => "enum"

/-- The part of the work a failure belongs to. -/
inductive Phase
  | document
  | names
  | directives
  | internal
  deriving DecidableEq, Repr, Inhabited

/-- The leading digit of the codes of a phase. -/
def Phase.digit : Phase → Nat
  | .document => 1
  | .names => 2
  | .directives => 3
  | .internal => 9

/-- A stable code: a phase and a running number within it. -/
structure ErrorCode where
  phase : Phase
  serial : Nat
  deriving DecidableEq, Repr, Inhabited

/-- Codes are written with the letter E, the digit of the phase and three digits. -/
def ErrorCode.toString (code : ErrorCode) : String :=
  let digits := Nat.toDigits 10 (code.phase.digit * 1000 + code.serial)
  String.ofList ('E' :: digits)

/-- A fatal failure. -/
inductive RegistryError
  /-- The text is not well formed, or breaks a rule of the vocabulary. -/
  | malformed (position : Nat) (what : String)
  /-- The document could not be read at all. -/
  | unreadable (path : String) (reason : String)
  /-- A top-level section that every registry has is absent. -/
  | missingSection (name : String)
  /-- A type name was never declared, or has been removed. -/
  | unknownType (name : String) (referrer : String)
  /-- A command name was never declared, or has been removed. -/
  | unknownCommand (name : String) (referrer : String)
  /-- A value name that its enumeration never declares. -/
  | unknownEnumValue (name : String) (enumeration : String)
  /-- An array length or an alias names no constant. -/
  | unknownConstant (name : String) (referrer : String)
  /-- An extension names a platform that the document does not declare. -/
  | unknownPlatform (platform : String) (extension : String)
  /-- Following aliases came back to a name already on the path. -/
  | cyclicAlias (path : List String)
  /-- A length mentions something that is neither a sibling field nor a constant. -/
  | unresolvedLength (owner : String) (member : String) (expr : String) (reference : String)
  /-- A directive names an entity that the document does not declare. -/
  | unresolvedRequire (source : String) (kind : EntityKind) (name : String)
  /-- No rule says how a command is dispatched. -/
  | ambiguousDispatch (command : String) (reason : String)
  deriving DecidableEq, Repr, Inhabited

/-- The outcome of a step that can fail. -/
abbrev Outcome := Except RegistryError

namespace RegistryError

/-- The code of a failure; it depends on the cause alone, not on the names in it. -/
def code : RegistryError → ErrorCode
  | malformed .. => ⟨.document, 1⟩
  | missingSection .. => ⟨.document, 2⟩
  | unreadable .. => ⟨.document, 3⟩
  | unknownType .. => ⟨.names, 1⟩
  | unknownCommand .. => ⟨.names, 2⟩
  | cyclicAlias .. => ⟨.names, 3⟩
  | unresolvedLength .. => ⟨.names, 4⟩
  | unknownEnumValue .. => ⟨.names, 5⟩
  | unknownConstant .. => ⟨.names, 6⟩
  | unknownPlatform .. => ⟨.names, 7⟩
  | unresolvedRequire .. => ⟨.directives, 1⟩
  | ambiguousDispatch .. => ⟨.internal, 1⟩

/-- The text that explains a failure. -/
def message : RegistryError → String
  | malformed position what => s!"malformed registry document at byte {position}: {what}"
  | unreadable path reason => s!"cannot read registry document `{path}`: {reason}"
  | missingSection name => s!"registry document has no <{name}> section"
  | unknownType name referrer => s!"unknown type `{name}` referenced from `{referrer}`"
  | unknownCommand name referrer => s!"unknown command `{name}` referenced from `{referrer}`"
  | unknownEnumValue name enumeration => s!"unknown value `{name}` in enumeration `{enumeration}`"
  | unknownConstant name referrer => s!"unknown API constant `{name}` referenced from `{referrer}`"
  | unknownPlatform platform extension =>
      s!"extension `{extension}` names unknown platform `{platform}`"
  | cyclicAlias path => "alias cycle: " ++ String.intercalate " -> " path
  | unresolvedLength owner member expr reference =>
      s!"length `{expr}` of `{owner}.{member}` references unknown name `{reference}`"
  | unresolvedRequire source kind name =>
      "`" ++ source ++ "` requires unknown " ++ kind.label ++ " `" ++ name ++ "`"
  | ambiguousDispatch command reason =>
      s!"cannot classify dispatch of command `{command}`: {reason}"

/-- The line a front end prints: the code in brackets, then the message. -/
def render (e : RegistryError) : String :=
  "error[" ++ e.code.toString ++ "]: " ++ e.message

/-- The fault lies in the document itself. -/
def isDocumentError (e : RegistryError) : Bool :=
  e.code.phase == .document

/-- The fault lies in a rule of this library that does not cover the document. -/
def isInternal (e : RegistryError) : Bool :=
  e.code.phase == .internal

end RegistryError

end VulkanRegistry
