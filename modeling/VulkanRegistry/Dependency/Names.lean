/-
The names in a dependency expression.

A list of dependencies is taken from an expression by forgetting its operators: what
stands between commas, plus signs and parentheses is a name.  No attention is paid to
whether the expression is well formed.
-/
import VulkanRegistry.Text.Pieces

namespace VulkanRegistry.Dependency

/-- The signs that separate names. -/
def isOperator (c : Char) : Bool :=
  c == ',' || c == '+' || c == '(' || c == ')'

/-- Every name of an expression in the order of its first mention. -/
def names (expr : String) : List String :=
  ((Text.pieces isOperator expr).map Text.trimmed).filter (· ≠ "") |>.eraseDups

end VulkanRegistry.Dependency
