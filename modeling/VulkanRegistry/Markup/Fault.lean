/-
What can be wrong with the markup of a document, and how it is worded.

The causes fall into four families, by the layer that finds them: where a construct
ends (`SyntaxFault`), how tags nest (`NestingFault`), the attributes of a tag (`AttributeFault`) and
the references inside text and attribute values (`EscapeFault`).  Offsets of the last two
count bytes within the tag or the run of text; the position in the document is
added when a fault becomes a `RegistryError`.
-/
import VulkanRegistry.Diagnostic
import VulkanRegistry.Text.Numeral

namespace VulkanRegistry.Markup

/-- A construct is of no known kind, or is not closed before the input ends. -/
inductive SyntaxFault
  | unknownMarkup
  | instructionUnclosed
  | commentUnclosed
  | doctypeUnclosed
  | cdataUnclosed
  | tagUnclosed
  deriving DecidableEq, Repr, Inhabited

/-- The wording of a syntax fault. -/
def SyntaxFault.message : SyntaxFault → String
  | unknownMarkup => "unknown or missed symbol in markup"
  | instructionUnclosed =>
      "processing instruction or xml declaration not closed: `?>` not found before end of input"
  | commentUnclosed => "comment not closed: `-->` not found before end of input"
  | doctypeUnclosed => "DOCTYPE not closed: `>` not found before end of input"
  | cdataUnclosed => "CDATA not closed: `]]>` not found before end of input"
  | tagUnclosed => "tag not closed: `>` not found before end of input"

/-- Tags do not nest, or the document is not a single element. -/
inductive NestingFault
  | closeOfNothing (found : String)
  | closeOfOther (expected : String) (found : String)
  | doctypeNameless
  | closeOutside
  | secondRoot (tag : String)
  | unclosed (tag : String)
  | noRoot
  deriving DecidableEq, Repr, Inhabited

/-- The wording of a nesting fault. -/
def NestingFault.message : NestingFault → String
  | closeOfNothing found =>
      "ill-formed document: close tag `</" ++ found ++ ">` does not match any open tag"
  | closeOfOther expected found =>
      "ill-formed document: expected `</" ++ expected ++ ">`, but `</" ++ found ++ ">` was found"
  | doctypeNameless =>
      "ill-formed document: `<!DOCTYPE>` declaration does not contain a name of a document type"
  | closeOutside => "end tag without matching start tag"
  | secondRoot tag => "second root element <" ++ tag ++ ">"
  | unclosed tag => "unclosed element <" ++ tag ++ ">"
  | noRoot => "document has no root element"

/-- An attribute is not a key, an equals sign and a quoted value. -/
inductive AttributeFault
  | keyUnfinished (offset : Nat)
  | duplicated (offset : Nat) (earlier : Nat)
  | valueMissing (offset : Nat)
  | valueUnquoted (offset : Nat)
  | quoteMissing (offset : Nat) (quote : Char)
  deriving DecidableEq, Repr, Inhabited

/-- The wording of an attribute fault. -/
def AttributeFault.message : AttributeFault → String
  | keyUnfinished offset =>
      s!"position {offset}: attribute key must be directly followed by `=` or space"
  | duplicated offset earlier =>
      s!"position {offset}: duplicated attribute, previous declaration at position {earlier}"
  | valueMissing offset => s!"position {offset}: `=` must be followed by an attribute value"
  | valueUnquoted offset =>
      s!"position {offset}: attribute value must be enclosed in `\"` or `\x27`"
  | quoteMissing offset quote =>
      s!"position {offset}: missing closing quote `{quote}` in attribute value"

/-- A character is not written as a reference allows. -/
inductive EscapeFault
  | unterminated (start : Nat) (stop : Nat)
  | unknownEntity (start : Nat) (stop : Nat) (name : String)
  | signedNumber
  | badNumber (fault : Text.NumeralFault)
  | zero
  | noCharacter (code : Nat)
  deriving DecidableEq, Repr, Inhabited

/-- The wording of an escape fault. -/
def EscapeFault.message : EscapeFault → String
  | unterminated start stop =>
      s!"Error while escaping character at range {start}..{stop}: Cannot find \x27;\x27 after \x27&\x27"
  | unknownEntity start stop name => s!"at {start}..{stop}: unrecognized entity `{name}`"
  | signedNumber => "invalid character reference: unexpected number sign"
  | badNumber .empty => "invalid character reference: cannot parse integer from empty string"
  | badNumber .badDigit => "invalid character reference: invalid digit found in string"
  | badNumber .tooLarge => "invalid character reference: number too large to fit in target type"
  | zero => "invalid character reference: 0x0 character is not permitted in XML"
  | noCharacter code => s!"invalid character reference: `{code}` is not a valid codepoint"

/-- Any fault of the markup. -/
inductive Fault
  | ofSyntax (cause : SyntaxFault)
  | ofNesting (cause : NestingFault)
  | ofAttribute (cause : AttributeFault)
  | ofEscape (cause : EscapeFault)
  deriving DecidableEq, Repr, Inhabited

/-- The wording of a fault, without its place in the document. -/
def Fault.message : Fault → String
  | ofSyntax cause => "syntax error: " ++ cause.message
  | ofNesting cause => cause.message
  | ofAttribute cause => cause.message
  | ofEscape cause => cause.message

/-- The failure of a document that has this fault at a byte position. -/
def Fault.located (position : Nat) (fault : Fault) : RegistryError :=
  .malformed position fault.message

end VulkanRegistry.Markup
