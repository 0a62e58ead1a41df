/-
Two readings of the names in a dependency expression.

The list of dependencies forgets the structure of an expression: it cuts the text at every
operator and trims the pieces of every kind of blank.  The parser knows the structure, skips blanks
of ASCII only, and asks about a name when it meets one.

In a text that the grammar derives, operators stand between all names, and a piece between two
operators holds one name with spaces around it, or spaces alone where a parenthesis stands next to
another operator.  So both readings find the same names in the same order
(`namesBetween_of_derives`, an induction on the derivation), and the list differs only in that it
drops repetitions.
-/
import VulkanRegistry.Dependency.Names
import VulkanRegistry.Proofs.Dependency.Grammar
import VulkanRegistry.Proofs.Outcome

namespace VulkanRegistry.Dependency

open Text

/-! ### Names between operators -/

/-- The names between the operators of a text, repetitions included. -/
def namesBetween (cs : List Char) : List String :=
  ((cs.splitOnP isOperator).map fun piece => String.ofList (trim piece)).filter (· ≠ "")

theorem names_eq_eraseDups (text : String) :
    names text = (namesBetween text.toList).eraseDups := by
  simp [names, namesBetween, pieces, trimmed, Function.comp_def]

/-- An operator divides the names. -/
theorem namesBetween_append_cons {sign : Char} (hsign : isOperator sign = true)
    (front rest : List Char) :
    namesBetween (front ++ sign :: rest) = namesBetween front ++ namesBetween rest := by
  rw [namesBetween, List.splitOnP_append_cons front rest hsign, List.map_append,
    List.filter_append]
  rfl

/-- Without operators, what is left when blanks are dropped is one name. -/
theorem namesBetween_of_no_operator {cs : List Char} (h : ∀ c ∈ cs, isOperator c = false) :
    namesBetween cs = [String.ofList (trim cs)].filter (· ≠ "") := by
  rw [namesBetween, List.splitOnP_eq_singleton h]
  rfl

/-! ### Characters -/

theorem IsSpace.isBlank {c : Char} (h : IsSpace c) : isBlank c = true :=
  isBlank_of_isAsciiBlank (isAsciiBlank_iff.mpr h)

theorem IsSpace.not_isOperator {c : Char} (h : IsSpace c) : isOperator c = false := by
  rcases h with rfl | rfl | rfl | rfl | rfl <;> rfl

theorem IsNameChar.not_isOperator {c : Char} (h : IsNameChar c) : isOperator c = false := by
  have hne (sign : Char) (hsign : ¬ IsNameChar sign) : c ≠ sign := by
    rintro rfl
    exact hsign h
  simp [isOperator, hne ',' (by decide), hne '+' (by decide), hne '(' (by decide),
    hne ')' (by decide)]

/-- No character of a name is dropped with the blanks around it, not even with those that the
parser does not skip. -/
theorem IsNameChar.not_isBlank {c : Char} (h : IsNameChar c) : isBlank c = false := by
  rcases h with ⟨hlow, hhigh⟩ | ⟨hlow, hhigh⟩ | ⟨hlow, hhigh⟩ | rfl | rfl
  · exact not_isBlank_of_visible (Char.le_trans (by decide) hlow) (Char.le_trans hhigh (by decide))
  · exact not_isBlank_of_visible (Char.le_trans (by decide) hlow) (Char.le_trans hhigh (by decide))
  · exact not_isBlank_of_visible (Char.le_trans (by decide) hlow) (Char.le_trans hhigh (by decide))
  · rfl
  · rfl

/-! ### Pieces of derived texts -/

theorem namesBetween_of_spaces {spaces : List Char} (h : ∀ c ∈ spaces, IsSpace c) :
    namesBetween spaces = [] := by
  rw [namesBetween_of_no_operator fun c hc => (h c hc).not_isOperator,
    trim_eq_nil fun c hc => (h c hc).isBlank]
  rfl

theorem namesBetween_of_name {before name behind : List Char} (hbefore : ∀ c ∈ before, IsSpace c)
    (hne : name ≠ []) (hname : ∀ c ∈ name, IsNameChar c) (hbehind : ∀ c ∈ behind, IsSpace c) :
    namesBetween (before ++ name ++ behind) = [String.ofList name] := by
  have hoperator : ∀ c ∈ before ++ name ++ behind, isOperator c = false := by
    intro c hc
    rw [List.mem_append, List.mem_append] at hc
    obtain (hc | hc) | hc := hc
    · exact (hbefore c hc).not_isOperator
    · exact (hname c hc).not_isOperator
    · exact (hbehind c hc).not_isOperator
  have htrim : trim (before ++ name ++ behind) = name :=
    trim_of_visible (fun c hc => (hbefore c hc).isBlank) (fun c hc => (hname c hc).not_isBlank)
      fun c hc => (hbehind c hc).isBlank
  rw [namesBetween_of_no_operator hoperator, htrim]
  simp [hne]

/-- What stands between the operators of a derived text are the names that are asked for. -/
theorem namesBetween_of_derives {active : String → Bool} {phrase : Phrase} {cs : List Char}
    {v : Bool} {asked : List String} (h : Derives active phrase cs v asked) :
    namesBetween cs = asked := by
  induction h with
  | term _ ih => exact ih
  | either _ _ ihleft ihright => rw [namesBetween_append_cons rfl, ihleft, ihright]
  | atom _ ih => exact ih
  | both _ _ ihleft ihright => rw [namesBetween_append_cons rfl, ihleft, ihright]
  | name hbefore hne hname hbehind => exact namesBetween_of_name hbefore hne hname hbehind
  | group hbefore _ hbehind ih =>
      -- The parentheses cut the group off from the spaces around it.
      rw [List.append_assoc, List.cons_append, namesBetween_append_cons rfl,
        namesBetween_append_cons rfl, ih, namesBetween_of_spaces hbefore,
        namesBetween_of_spaces hbehind, List.nil_append, List.append_nil]

/-! ### Both readings -/

/-- Where an expression can be evaluated, its list of names holds the names that the evaluation
asks for, in the order in which it first asks for them. -/
theorem names_eq_asked {text : String} {active : String → Bool} {v : Bool}
    (h : evaluate text active = .ok v) :
    names text = (Id.run ((evaluateM text (noting active)).run [])).2.eraseDups := by
  rw [evaluate_eq_map] at h
  obtain ⟨e, he, hv⟩ := Outcome.map_eq_ok.mp h
  rw [run_evaluateM_noting, he, names_eq_eraseDups,
    namesBetween_of_derives (derives_iff_parse.mpr ⟨e, he, hv, rfl⟩)]

/-- An expression with groups, blanks and a name that is mentioned twice. -/
theorem names_eq_asked_groupedText :
    evaluate "VK_KHR_a + ( VK_VERSION_1_1,\t(VK_KHR_b+VK_KHR_a ) )" (· == "VK_KHR_a") = .ok false ∧
      names "VK_KHR_a + ( VK_VERSION_1_1,\t(VK_KHR_b+VK_KHR_a ) )" =
        (Id.run ((evaluateM "VK_KHR_a + ( VK_VERSION_1_1,\t(VK_KHR_b+VK_KHR_a ) )"
          (noting (· == "VK_KHR_a"))).run [])).2.eraseDups :=
  have h : evaluate "VK_KHR_a + ( VK_VERSION_1_1,\t(VK_KHR_b+VK_KHR_a ) )" (· == "VK_KHR_a") =
      .ok false := by decide +kernel
  ⟨h, names_eq_asked h⟩

end VulkanRegistry.Dependency
