/-
Constants by place.

A table in use has its constants in an array and, beside it, a map from names to places.  It
answers the calls that define constants: one whose name has a place changes nothing, and one
that succeeds for a new name adds a constant to the array and its place to the map.
-/
import Mathlib.Init
import VulkanRegistry.Constant.Table

namespace VulkanRegistry

/-- A call that is to define a constant. -/
inductive ConstantCall
  | literal (name text : String) (ctype : Option String)
  | copy (name target : String)
  deriving DecidableEq, Repr, Inhabited

namespace ConstantCall

/-- The name that a call is to define. -/
def name : ConstantCall → String
  | literal name _ _ => name
  | copy name _ => name

/-- Makes a call. -/
def perform (table : ConstantTable) : ConstantCall → Outcome ConstantTable
  | literal name text ctype => .ok (table.define name text ctype)
  | copy name target => table.defineAlias name target

end ConstantCall

/-- Constants in an array, and beside it the place of each name. -/
structure IndexedConstants where
  row : Array Constant
  places : Std.HashMap String Nat

namespace IndexedConstants

/-- No constants. -/
def empty : IndexedConstants := ⟨#[], ∅⟩

/-- The constant at the place of a name. -/
def get? (indexed : IndexedConstants) (name : String) : Option Constant :=
  indexed.places[name]?.bind (indexed.row[·]?)

/-- Adds a constant at the end, and its place to the map. -/
def insert (indexed : IndexedConstants) (constant : Constant) : IndexedConstants :=
  ⟨indexed.row.push constant, indexed.places.insert constant.name indexed.row.size⟩

/-- Makes a call: whether it succeeds, and what it leaves. -/
def perform (indexed : IndexedConstants) : ConstantCall → Outcome Unit × IndexedConstants
  | .literal name text ctype =>
      if indexed.places.contains name then (.ok (), indexed)
      else (.ok (), indexed.insert (.ofLiteral name text ctype))
  | .copy name target =>
      if indexed.places.contains name then (.ok (), indexed)
      else
        match indexed.get? target with
        | none => (.error (.unknownConstant target name), indexed)
        | some found => (.ok (), indexed.insert (found.renamed name))

end IndexedConstants

end VulkanRegistry
