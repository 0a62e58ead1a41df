/-
Building the tree of a document.

A builder holds the elements that are still open, innermost first, and the root once it
is closed.  Every event changes it in one step (`Builder.step`); a document is
well formed if no step fails, everything has been closed and there is a root
(`Builder.finish`).  `Element.ofEvents` runs these steps over a list of events, and
`Element.ofScan` over the tokens of a document, reading each token when its turn comes, so
that of two faults the one that stands first in the document is reported.
-/
import VulkanRegistry.Markup.Event
import VulkanRegistry.Markup.Node

namespace VulkanRegistry.Markup

/-- An element that is still open, with its children so far, last one first. -/
structure Frame where
  tag : Tag
  reversed : List Node
  deriving Repr, Inhabited

/-- The element that closing a frame makes. -/
def Frame.close (frame : Frame) : Element :=
  { frame.tag with children := frame.reversed.reverse }

/-- Adds a child. -/
def Frame.push (frame : Frame) (node : Node) : Frame :=
  { frame with reversed := node :: frame.reversed }

/-- A tree under construction. -/
structure Builder where
  opened : List Frame
  root : Option Element
  deriving Repr, Inhabited

namespace Builder

/-- Nothing has been read. -/
def empty : Builder := ⟨[], none⟩

/-- Adds a run of text to the innermost open element; text outside the root is dropped. -/
def addText (b : Builder) (content : String) : Builder :=
  match b.opened with
  | [] => b
  | frame :: outer => { b with opened := frame.push (.text content) :: outer }

/-- Adds a finished element to the innermost open one, or makes it the root. -/
def attach (b : Builder) (e : Element) : Outcome Builder :=
  match b.opened with
  | frame :: outer => .ok { b with opened := frame.push e.toNode :: outer }
  | [] =>
      match b.root with
      | some _ => .error (Fault.located e.position (.ofNesting (.secondRoot e.name)))
      | none => .ok { b with root := some e }

/-- Takes one event into account. -/
def step (b : Builder) (event : Located Event) : Outcome Builder :=
  match event.item with
  | .opening name attributes =>
      .ok { b with opened := ⟨⟨name, attributes, event.position⟩, []⟩ :: b.opened }
  | .empty name attributes =>
      b.attach { name, attributes, position := event.position, children := [] }
  | .closing =>
      match b.opened with
      | [] => .error (Fault.located event.position (.ofNesting .closeOutside))
      | frame :: outer => ({ b with opened := outer }).attach frame.close
  | .text content => .ok (b.addText content)
  | .cdata content => .ok (b.addText content)
  | .aside => .ok b

/-- The tree, if the document is complete. -/
def finish (b : Builder) : Outcome Element :=
  match b.opened with
  | frame :: _ => .error (Fault.located frame.tag.position (.ofNesting (.unclosed frame.tag.name)))
  | [] =>
      match b.root with
      | some root => .ok root
      | none => .error (Fault.located 0 (.ofNesting .noRoot))

/-- Reads a token and takes it into account.  Text outside the root is not read. -/
def readToken (b : Builder) (token : Located Token) : Outcome Builder :=
  match b.opened, token.item with
  | [], .text _ => .ok b
  | _, item =>
      match Event.ofToken item with
      | .error fault => .error (fault.located token.position)
      | .ok event => b.step ⟨token.position, event⟩

end Builder

/-- The root element of a sequence of events. -/
def Element.ofEvents (events : List (Located Event)) : Outcome Element := do
  let b ← events.foldlM Builder.step Builder.empty
  b.finish

/-- The root element of a document that has been scanned. -/
def Element.ofScan (scan : Scan) : Outcome Element := do
  let b ← scan.tokens.foldlM Builder.readToken Builder.empty
  match scan.fault with
  | some fault => throw (fault.item.located fault.position)
  | none => b.finish

/-- The root element of a document. -/
def Element.parse (source : String) : Outcome Element :=
  Element.ofScan (scan source)

end VulkanRegistry.Markup
