/-
The tree of a document.

The vocabulary mixes markup and C text inside one element, so a tree keeps runs of text
in document order next to child elements.  An `Element` is a node that is known to be an
element; the accessors below look at its children only, never deeper, except for
`text`, which gathers all runs below it.
-/
import VulkanRegistry.Text.Pieces

namespace VulkanRegistry.Markup

/-- What the opening tag of an element says, and where it stands. -/
structure Tag where
  name : String
  attributes : List (String × String)
  position : Nat
  deriving DecidableEq, Repr, Inhabited

/-- An element with its children, or a run of text. -/
inductive Node
  | element (tag : Tag) (children : List Node)
  | text (content : String)
  deriving Repr, Inhabited

/-- An element and the nodes inside it, in document order. -/
structure Element extends Tag where
  children : List Node
  deriving Repr, Inhabited

/-- The node that an element is. -/
def Element.toNode (e : Element) : Node :=
  .element e.toTag e.children

/-- The element that a node is, if it is one. -/
def Node.element? : Node → Option Element
  | .element tag children => some { tag with children }
  | .text _ => none

@[simp] theorem Node.element?_toNode (e : Element) : e.toNode.element? = some e := rfl

mutual

/-- The text of a node: its own, or that of everything inside it. -/
def Node.content : Node → String
  | .text content => content
  | .element _ children => contentOf children

/-- The text of several nodes, one behind the other. -/
def contentOf : List Node → String
  | [] => ""
  | node :: nodes => node.content ++ contentOf nodes

end

namespace Element

/-- The value of an attribute. -/
def attr? (e : Element) (key : String) : Option String :=
  e.attributes.lookup key

/-- An attribute that is a list with commas; empty pieces do not count. -/
def attrList (e : Element) (key : String) : List String :=
  match e.attr? key with
  | none => []
  | some value => (Text.commaPieces value).filter (· ≠ "")

/-- Whether an attribute has exactly this value. -/
def hasAttr (e : Element) (key value : String) : Bool :=
  e.attr? key == some value

/-- The child elements. -/
def elements (e : Element) : List Element :=
  e.children.filterMap Node.element?

/-- The child elements of a name. -/
def childrenNamed (e : Element) (name : String) : List Element :=
  e.elements.filter (·.name == name)

/-- The first child element of a name. -/
def child? (e : Element) (name : String) : Option Element :=
  e.elements.find? (·.name == name)

/-- All text inside an element. -/
def text (e : Element) : String :=
  contentOf e.children

/-- The text of the first child element of a name, without blanks around it. -/
def childText? (e : Element) (name : String) : Option String :=
  (e.child? name).map (Text.trimmed ·.text)

end Element

end VulkanRegistry.Markup
