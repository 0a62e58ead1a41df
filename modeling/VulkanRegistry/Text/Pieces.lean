/-
Cutting text into pieces.

Lists in attributes are separated by commas and may be empty, hold empty pieces or
blanks around a piece; which of these are kept differs from list to list, so the
cut itself keeps everything and each reader drops what its list does not want.
Offsets in messages count the bytes of the UTF-8 form.
-/
import VulkanRegistry.Text.Blank

namespace VulkanRegistry.Text

/-- The size of the UTF-8 form. -/
def byteLength (cs : List Char) : Nat :=
  cs.foldr (fun c n => c.utf8Size + n) 0

@[simp] theorem byteLength_nil : byteLength [] = 0 := rfl

@[simp] theorem byteLength_cons (c : Char) (cs : List Char) :
    byteLength (c :: cs) = c.utf8Size + byteLength cs := rfl

@[simp] theorem byteLength_append (a b : List Char) :
    byteLength (a ++ b) = byteLength a + byteLength b := by
  induction a with
  | nil => simp
  | cons c a ih => simp [ih, Nat.add_assoc]

/-- The pieces between the separators, empty ones included: one more than there are separators. -/
def pieces (isSeparator : Char → Bool) (s : String) : List String :=
  (s.toList.splitOnP isSeparator).map String.ofList

/-- The pieces between commas. -/
def commaPieces (s : String) : List String :=
  pieces (· == ',') s

/-- Whether `part` stands somewhere in `whole`. -/
def isInfix (part : List Char) : List Char → Bool
  | [] => part.isEmpty
  | c :: cs => part.isPrefixOf (c :: cs) || isInfix part cs

/-- Whether the text of `part` stands somewhere in `whole`. -/
def contains (whole part : String) : Bool :=
  isInfix part.toList whole.toList

/-- Whether `whole` begins with `start`. -/
def startsWith (whole start : String) : Bool :=
  start.toList.isPrefixOf whole.toList

/-- Whether `whole` ends with `tail`. -/
def endsWith (whole tail : String) : Bool :=
  tail.toList.isSuffixOf whole.toList

/-- What follows `start`, if the text begins with it. -/
def afterStart? : List Char → List Char → Option (List Char)
  | [], cs => some cs
  | _ :: _, [] => none
  | d :: ds, c :: cs => if d = c then afterStart? ds cs else none

theorem afterStart?_eq_some_iff {start cs rest : List Char} :
    afterStart? start cs = some rest ↔ cs = start ++ rest := by
  induction start generalizing cs with
  | nil => simp [afterStart?]
  | cons d ds ih =>
      cases cs with
      | nil => simp [afterStart?]
      | cons c cs =>
          by_cases h : d = c
          · simp [afterStart?, h, ih]
          · simp [afterStart?, h, Ne.symm h]

end VulkanRegistry.Text
