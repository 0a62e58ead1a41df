/-
Versions of an interface.

A core version gives its major and minor number as text; the patch level comes from
elsewhere.  Versions are ordered by their numbers, the major one first.
-/
import VulkanRegistry.Text.Numeral

namespace VulkanRegistry

/-- A version. -/
structure ApiVersion where
  major : Nat
  minor : Nat
  patch : Nat
  deriving DecidableEq, Repr, Inhabited

namespace ApiVersion

/-- The version before every other. -/
def zero : ApiVersion := ⟨0, 0, 0⟩

/-- A version as it is written. -/
def toString (v : ApiVersion) : String :=
  s!"{v.major}.{v.minor}.{v.patch}"

/-- Whether a version is the other one or comes before it. -/
def le (a b : ApiVersion) : Bool :=
  a.major < b.major || (a.major == b.major &&
    (a.minor < b.minor || (a.minor == b.minor && a.patch ≤ b.patch)))

/-- The later of two versions. -/
def max (a b : ApiVersion) : ApiVersion :=
  if a.le b then b else a

/-- The latest of some versions. -/
def latest (versions : List ApiVersion) : ApiVersion :=
  versions.foldl max zero

/-- Reads the two numbers of a core version; the first point separates them. -/
def ofFeatureNumber? (text : String) : Option ApiVersion :=
  let digits := Text.trim text.toList
  match digits.dropWhile (· != '.') with
  | [] => none
  | _ :: behind => do
      let major ← Text.toNat32? (digits.takeWhile (· != '.'))
      let minor ← Text.toNat32? behind
      return ⟨major, minor, 0⟩

end ApiVersion

end VulkanRegistry
