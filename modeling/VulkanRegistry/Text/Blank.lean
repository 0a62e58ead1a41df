/-
Blank characters and trimming.

Attribute lists, literals and names are trimmed of every character that has the
Unicode property White_Space, so a no-break space at the edge of a name is dropped
like an ordinary one.  Markup and dependency expressions know narrower classes;
each class is a predicate here, and each is contained in `isBlank`.
-/
namespace VulkanRegistry.Text

/-- The characters with the Unicode property White_Space. -/
def isBlank (c : Char) : Bool :=
  let n := c.toNat
  (0x9 ≤ n && n ≤ 0xD) || n == 0x20 || n == 0x85 || n == 0xA0 || n == 0x1680 ||
    (0x2000 ≤ n && n ≤ 0x200A) || n == 0x2028 || n == 0x2029 || n == 0x202F ||
    n == 0x205F || n == 0x3000

/-- White space of ASCII without the vertical tab. -/
def isAsciiBlank (c : Char) : Bool :=
  c == ' ' || c == '\t' || c == '\n' || c == '\x0c' || c == '\r'

/-- White space between the parts of a tag. -/
def isMarkupBlank (c : Char) : Bool :=
  c == ' ' || c == '\t' || c == '\n' || c == '\r'

theorem isBlank_of_isAsciiBlank {c : Char} (h : isAsciiBlank c = true) : isBlank c = true := by
  simp only [isAsciiBlank, Bool.or_eq_true, beq_iff_eq] at h
  rcases h with (((rfl | rfl) | rfl) | rfl) | rfl <;> rfl

/-! ### Trimming -/

/-- Drops the leading characters of the class `p`. -/
def trimStart (p : Char → Bool) (cs : List Char) : List Char :=
  cs.dropWhile p

/-- Drops the trailing characters of the class `p`. -/
def trimEnd (p : Char → Bool) (cs : List Char) : List Char :=
  (cs.reverse.dropWhile p).reverse

/-- Drops blanks at both ends. -/
def trim (cs : List Char) : List Char :=
  trimEnd isBlank (trimStart isBlank cs)

/-- Drops blanks at both ends of a string. -/
def trimmed (s : String) : String :=
  String.ofList (trim s.toList)

theorem length_trimStart_le (p : Char → Bool) (cs : List Char) :
    (trimStart p cs).length ≤ cs.length :=
  (List.dropWhile_sublist p).length_le

theorem length_trimEnd_le (p : Char → Bool) (cs : List Char) :
    (trimEnd p cs).length ≤ cs.length := by
  have := length_trimStart_le p cs.reverse
  simpa [trimEnd, trimStart] using this

theorem length_trim_le (cs : List Char) : (trim cs).length ≤ cs.length :=
  Nat.le_trans (length_trimEnd_le _ _) (length_trimStart_le _ _)

end VulkanRegistry.Text
