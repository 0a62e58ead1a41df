/-
Events: the tokens with their attributes and references read.

A tree is built from events alone, so a tree can also be built from events that come
from elsewhere.  Reading a token can fail, and whether it is read at all is up to the
builder: text outside the root has no place in a tree and is never looked at.
-/
import VulkanRegistry.Markup.Token

namespace VulkanRegistry.Markup

/-- A step of the walk through a document. -/
inductive Event
  | opening (name : String) (attributes : List (String × String))
  | empty (name : String) (attributes : List (String × String))
  | closing
  | text (content : String)
  | cdata (content : String)
  | aside
  deriving DecidableEq, Repr, Inhabited

/-- Reads a token. -/
def Event.ofToken : Token → Except Fault Event
  | .openTag content => do
      let attributes ← tagAttributes content
      return .opening (String.ofList (tagName content)) attributes
  | .emptyTag content => do
      let attributes ← tagAttributes content
      return .empty (String.ofList (tagName content)) attributes
  | .closeTag _ => .ok .closing
  | .text raw =>
      match expand raw with
      | .error fault => .error (.ofEscape fault)
      | .ok content => .ok (.text (String.ofList content))
  | .cdata content => .ok (.cdata (String.ofList content))
  | .aside => .ok .aside

end VulkanRegistry.Markup
