/-
Tokens: a document cut at its angle brackets.

Outside markup there is text, which runs to the next opening bracket.  Behind the
bracket the first character says what kind of markup follows, the kind says at which
closing bracket it ends, and the kind and the content together say which token it is.
Only closing tags need more: their name has to be that of the innermost tag still
open, so the scan carries the names of the open tags along.

Attributes and references are left as they stand.  A scan yields the tokens up to the
first fault, since a reader may have reason to stop at one of them before it gets
there.  `markup` takes at least one character (`length_of_markup`), which is why a
scan ends.
-/
import VulkanRegistry.Markup.Attribute

namespace VulkanRegistry.Markup

open Text

/-- Something at a byte position of the document. -/
structure Located (α : Type) where
  position : Nat
  item : α
  deriving DecidableEq, Repr, Inhabited

/-- A piece of the document. -/
inductive Token
  /-- A tag that opens an element: everything between its brackets. -/
  | openTag (content : List Char)
  /-- A tag that is an element of its own, without its final slash. -/
  | emptyTag (content : List Char)
  /-- A tag that closes the innermost open element. -/
  | closeTag (name : List Char)
  /-- A run between two pieces of markup, with its references. -/
  | text (raw : List Char)
  /-- Text that is to be taken literally. -/
  | cdata (content : List Char)
  /-- A comment, an instruction or a document type: nothing that a tree shows. -/
  | aside
  deriving DecidableEq, Repr, Inhabited

/-! ### Where markup ends -/

/-- The kinds of markup, told apart by the first characters. -/
inductive Kind
  | cdata
  | comment
  | doctype
  | instruction
  | closeTag
  | tag
  deriving DecidableEq, Repr, Inhabited

/-- The kind of the markup that starts behind an opening bracket. -/
def kindOf : List Char → Except SyntaxFault Kind
  | '!' :: '[' :: _ => .ok .cdata
  | '!' :: '-' :: _ => .ok .comment
  | '!' :: 'D' :: _ => .ok .doctype
  | '!' :: 'd' :: _ => .ok .doctype
  | '!' :: _ => .error .unknownMarkup
  | '?' :: _ => .ok .instruction
  | '/' :: _ => .ok .closeTag
  | [] => .error .tagUnclosed
  | _ => .ok .tag

/-- The quotation mark that is open after one more character of a tag. -/
def openQuote (quote : Option Char) (c : Char) : Option Char :=
  match quote with
  | some q => if c = q then none else some q
  | none => if c = '"' ∨ c = '\x27' then some c else none

/-- Whether a closing bracket behind this content ends the markup. -/
def Kind.closes : Kind → List Char → Bool
  | .cdata, content => "]]".toList.isSuffixOf content
  | .comment, content => content.length > 4 && "--".toList.isSuffixOf content
  | .doctype, content => content.count '<' == content.count '>'
  | .instruction, content => content.getLast? == some '?'
  | .closeTag, content => (content.foldl openQuote none).isNone
  | .tag, content => (content.foldl openQuote none).isNone

/-- The fault of markup that does not end, or does not hold what its kind promises. -/
def Kind.unclosed : Kind → SyntaxFault
  | .cdata => .cdataUnclosed
  | .comment => .commentUnclosed
  | .doctype => .doctypeUnclosed
  | .instruction => .instructionUnclosed
  | .closeTag => .tagUnclosed
  | .tag => .tagUnclosed

/-- Cuts at the first closing bracket that ends the markup.  `seen` is what has been
passed already, last character first. -/
def cutAtClose (closes : List Char → Bool) (seen : List Char) :
    List Char → Option (List Char × List Char)
  | [] => none
  | c :: cs =>
      if c = '>' ∧ closes seen.reverse then some (seen.reverse, cs)
      else cutAtClose closes (c :: seen) cs

/-- A cut loses nothing but the bracket, and it is made where the markup closes. -/
theorem cutAtClose_eq_some {closes : List Char → Bool} {seen cs content rest : List Char}
    (h : cutAtClose closes seen cs = some (content, rest)) :
    closes content = true ∧ seen.reverse ++ cs = content ++ '>' :: rest := by
  induction cs generalizing seen with
  | nil => simp [cutAtClose] at h
  | cons c cs ih =>
      rw [cutAtClose] at h
      split at h
      · next hc =>
          simp only [Option.some.injEq, Prod.mk.injEq] at h
          obtain ⟨rfl, rfl⟩ := h
          exact ⟨hc.2, by rw [hc.1]⟩
      · have := ih h
        simpa using this

/-! ### What markup is -/

/-- The token of a piece of markup, given the names of the open tags and the content
between the brackets.  An error comes with its offset from the opening bracket. -/
def Kind.token (opened : List (List Char)) (content : List Char) :
    Kind → Except (Nat × Fault) Token
  | .cdata =>
      match afterStart? "![CDATA[".toList content with
      | some inner => .ok (.cdata (inner.take (inner.length - 2)))
      | none => .error (0, .ofSyntax .cdataUnclosed)
  | .comment =>
      if "!--".toList.isPrefixOf content then .ok .aside
      else .error (0, .ofSyntax .commentUnclosed)
  | .doctype =>
      if (content.take 8).map Char.toUpper = "!DOCTYPE".toList then
        if (content.drop 8).all isMarkupBlank then
          .error (byteLength content + 1, .ofNesting .doctypeNameless)
        else .ok .aside
      else .error (0, .ofSyntax .doctypeUnclosed)
  | .instruction =>
      if content.length > 1 then .ok .aside
      else .error (0, .ofSyntax .instructionUnclosed)
  | .closeTag =>
      let name := closedName (content.drop 1)
      match opened with
      | [] => .error (0, .ofNesting (.closeOfNothing (String.ofList name)))
      | expected :: _ =>
          if name = expected then .ok (.closeTag name)
          else .error (0, .ofNesting (.closeOfOther (String.ofList expected) (String.ofList name)))
  | .tag =>
      if content.getLast? = some '/' then .ok (.emptyTag content.dropLast)
      else .ok (.openTag content)
where
  /-- The name in a closing tag, whose trailing blanks do not count unless there is nothing else. -/
  closedName (cs : List Char) : List Char :=
    if cs.all isMarkupBlank then cs else trimEnd isMarkupBlank cs

/-- The names of the open tags after a token. -/
def Token.openedAfter (opened : List (List Char)) : Token → List (List Char)
  | .openTag content => tagName content :: opened
  | .closeTag _ => opened.tail
  | _ => opened

/-- One piece of markup: its token, the number of bytes between its brackets, and the
text behind it. -/
structure MarkupPiece where
  token : Token
  size : Nat
  rest : List Char

/-- Reads the markup that starts behind an opening bracket.  An error comes with its
offset from that bracket. -/
def markup (opened : List (List Char)) (cs : List Char) : Except (Nat × Fault) MarkupPiece :=
  match kindOf cs with
  | .error fault => .error (0, .ofSyntax fault)
  | .ok kind =>
      match cutAtClose kind.closes [] cs with
      | none => .error (0, .ofSyntax kind.unclosed)
      | some (content, rest) => do
          let token ← kind.token opened content
          return ⟨token, byteLength content, rest⟩

theorem length_of_markup {opened : List (List Char)} {cs : List Char} {m : MarkupPiece}
    (h : markup opened cs = .ok m) : m.rest.length < cs.length := by
  unfold markup at h
  split at h
  · simp at h
  · split at h
    · simp at h
    · next kind _ _ content rest hcut =>
        cases htoken : kind.token opened content with
        | error e => simp [htoken, bind, Except.bind] at h
        | ok token =>
            simp only [htoken, bind, Except.bind, pure, Except.pure, Except.ok.injEq] at h
            subst h
            have := congrArg List.length (cutAtClose_eq_some hcut).2
            simp at this
            dsimp only
            omega

/-! ### The whole document -/

/-- The tokens of a document up to its end or to the first fault. -/
structure Scan where
  tokens : List (Located Token)
  fault : Option (Located Fault)
  deriving DecidableEq, Repr, Inhabited

/-- Puts a token in front of a scan. -/
def Scan.cons (position : Nat) (token : Token) (scan : Scan) : Scan :=
  { scan with tokens := ⟨position, token⟩ :: scan.tokens }

/-- Scans what is left of a document at a position, with these tags open. -/
def scanFrom (opened : List (List Char)) (position : Nat) (cs : List Char) : Scan :=
  match cs with
  | [] => ⟨[], none⟩
  | c :: cs =>
      if c = '<' then
        match h : markup opened cs with
        | .error (offset, fault) => ⟨[], some ⟨position + offset, fault⟩⟩
        | .ok m =>
            (scanFrom (m.token.openedAfter opened) (position + m.size + 2) m.rest).cons
              position m.token
      else
        let raw := c :: cs.takeWhile (· != '<')
        (scanFrom opened (position + byteLength raw) (cs.dropWhile (· != '<'))).cons
          position (.text raw)
  termination_by cs.length
  decreasing_by
    · have := length_of_markup h
      simp only [List.length_cons]
      omega
    · have := (List.dropWhile_sublist (l := cs) (· != '<')).length_le
      simp only [List.length_cons]
      omega

/-- The mark that may stand in front of a document to tell its byte order. -/
def byteOrderMark : Char := '\ufeff'

/-- Scans a document.  A byte order mark in front is dropped and has no position. -/
def scan (source : String) : Scan :=
  scanFrom [] 0 ((afterStart? [byteOrderMark] source.toList).getD source.toList)

end VulkanRegistry.Markup
