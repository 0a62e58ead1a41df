/-
How a declaration gives a value.

A value is a literal, a single bit, a place in the number range of an extension, or the
value of another name.  Values are signed numbers of 64 bits: a literal that does not fit
is refused, while bit 63 is the sign and arithmetic on places wraps around.

Extension `n` owns the thousand numbers from `1000000000 + (n - 1) * 1000` on; a
directive may count downwards from their negatives instead.
-/
import VulkanRegistry.Constant.Literal
import VulkanRegistry.Diagnostic
import VulkanRegistry.Document.Declaration

namespace VulkanRegistry

/-- Where a value comes from. -/
inductive ValueSpec
  | number (value : Int)
  /-- The value of another name of the same enumeration. -/
  | aliasTo (name : String)
  deriving DecidableEq, Repr, Inhabited

/-- The name that a value is taken from. -/
def ValueSpec.link? : ValueSpec → Option String
  | aliasTo name => some name
  | number _ => none

/-- The value, if it is given directly. -/
def ValueSpec.direct? : ValueSpec → Option Int
  | number v => some v
  | aliasTo _ => none

namespace ValueSpec

/-- Why a declaration gives no value. -/
inductive Fault
  | notInteger (text : String)
  | badBit (text : String)
  | bitOutOfRange (bit : Nat)
  | nothingGiven
  | offsetWithoutExtension
  deriving DecidableEq, Repr, Inhabited

/-- The wording of a fault. -/
def Fault.message : Fault → String
  | notInteger text => s!"`{text}` is not an integer"
  | badBit text => s!"bad bitpos `{text}`"
  | bitOutOfRange bit => s!"bitpos {bit} out of range"
  | nothingGiven => "no value, bitpos or alias"
  | offsetWithoutExtension => "offset without an extension number"

/-- The failure of the declaration of `name`. -/
def Fault.of {α : Type} (name : String) (fault : Fault) : Outcome α :=
  .error (.malformed 0 s!"enum value `{name}`: {fault.message}")

/-- The signed number of 64 bits that has the same bits as an integer. -/
def wrap64 (value : Int) : Int :=
  value.bmod UInt64.size

/-- The value of a literal. -/
def ofLiteral (name text : String) : Outcome Int :=
  match (Literal.toInt? text).bind Literal.signed64? with
  | some value => .ok value
  | none => Fault.of name (.notInteger text)

/-- The value of the bit at a position. -/
def ofBit (name text : String) : Outcome Int :=
  match Text.toNat32? (Text.trim text.toList) with
  | none => Fault.of name (.badBit text)
  | some bit => if bit < 64 then .ok (wrap64 (1 <<< bit : Nat)) else Fault.of name (.bitOutOfRange bit)

/-- The first number of the ranges of extensions. -/
def extensionBase : Int := 1000000000

/-- The size of the range of one extension. -/
def extensionRange : Int := 1000

/-- The number at a place of an extension's range. -/
def inRange (negative : Bool) (extension offset : Int) : Int :=
  let place := wrap64 (extensionBase + (extension - 1) * extensionRange + offset)
  if negative then wrap64 (-place) else place

/-- The value that a block declares. -/
def ofBlock (decl : ValueDecl) : Outcome ValueSpec :=
  match decl.aliasOf, decl.bitpos, decl.value with
  | some name, _, _ => .ok (.aliasTo name)
  | none, some bit, _ => (ofBit decl.name bit).map .number
  | none, none, some text => (ofLiteral decl.name text).map .number
  | none, none, none => Fault.of decl.name .nothingGiven

/-- The extension whose range a directive means: the one it names, or else the one that
holds it. -/
def rangeOwner (d : ValueDirective) (holder : Option Nat) : Outcome Int :=
  match d.extnumber, holder with
  | some text, _ => ofLiteral d.name text
  | none, some held => .ok held
  | none, none => Fault.of d.name .offsetWithoutExtension

/-- The value that a directive declares, if it is no bare reference.  The directive stands
in the extension of number `holder`, or in a core version. -/
def ofDirective (d : ValueDirective) (holder : Option Nat) : Outcome (Option ValueSpec) :=
  match d.aliasOf, d.value, d.bitpos, d.offset with
  | some name, _, _, _ => .ok (some (.aliasTo name))
  | none, some text, _, _ => (ofLiteral d.name text).map (some ∘ .number)
  | none, none, some bit, _ => (ofBit d.name bit).map (some ∘ .number)
  | none, none, none, some place => do
      let offset ← ofLiteral d.name place
      let extension ← rangeOwner d holder
      return some (.number (inRange d.negative extension offset))
  | none, none, none, none => .ok none

end ValueSpec

end VulkanRegistry
