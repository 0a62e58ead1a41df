/-
Cutting declarators by bytes.

No cut falls inside a character, whatever stands in the brackets: what is cut off is in front
of the cut character by character, so the tokens are those that the characters make
(`slicedTokens_trim`).
-/
import VulkanRegistry.Declarator.Slicing
import VulkanRegistry.Proofs.Declarator

namespace VulkanRegistry

namespace Text

theorem splitAtByte?_append (front rest : List Char) :
    splitAtByte? (byteLength front) (front ++ rest) = some (front, rest) := by
  induction front with
  | nil => cases rest <;> rfl
  | cons c front ih =>
      have hpos := c.utf8Size_pos
      obtain ⟨n, hn⟩ : ∃ n, byteLength (c :: front) = n + 1 :=
        Nat.exists_eq_add_one.mpr (by rw [byteLength_cons]; omega)
      rw [byteLength_cons] at hn
      rw [List.cons_append, byteLength_cons, hn, splitAtByte?, if_pos (by omega), ← hn,
        Nat.add_sub_cancel_left, ih, Option.map_some]

theorem behindByte?_append (front rest : List Char) :
    behindByte? (byteLength front) (front ++ rest) = some rest := by
  rw [behindByte?, splitAtByte?_append, Option.map_some]

theorem betweenBytes?_append (front inner rest : List Char) :
    betweenBytes? (byteLength front) (byteLength (front ++ inner)) (front ++ inner ++ rest) =
      some inner := by
  rw [betweenBytes?, if_pos (by simp), splitAtByte?_append, Option.bind_some]
  exact behindByte?_append front inner

end Text

namespace Declarator

open Text

/-! ### One token -/

theorem sliceToken_star (cs : List Char) : sliceToken '*' cs = some (nextToken '*' cs) := by
  have hbehind : behindByte? 1 ('*' :: cs) = some cs := behindByte?_append ['*'] cs
  simp only [sliceToken, nextToken, hbehind, Option.map_some]

theorem sliceToken_bracket (cs : List Char) : sliceToken '[' cs = some (nextToken '[' cs) := by
  obtain ⟨text, behind, rfl, htext, hbehind⟩ := exists_run (· ≠ ']') cs
  have hbracket : ']' ∉ text := fun hmem => htext _ hmem rfl
  cases behind with
  | nil =>
      have hdrop : text.dropWhile (· != ']') = [] :=
        List.dropWhile_eq_nil_iff.mpr (by simpa using htext)
      simp [sliceToken, nextToken, byteOffset?, hbracket, hdrop]
  | cons d rest =>
      obtain rfl : d = ']' := by simpa [NotBefore] using hbehind
      have htake : ('[' :: (text ++ ']' :: rest)).takeWhile (· != ']') = '[' :: text := by
        rw [List.takeWhile_cons_of_pos (by decide), takeWhile_toBracket hbracket]
      have hstop : byteOffset? ']' ('[' :: (text ++ ']' :: rest)) =
          some (byteLength ('[' :: text)) := by
        rw [byteOffset?, if_pos (by simp), htake]
      have hextent : betweenBytes? 1 (byteLength ('[' :: text)) ('[' :: (text ++ ']' :: rest)) =
          some text :=
        betweenBytes?_append ['['] text (']' :: rest)
      have hafter : behindByte? (byteLength ('[' :: text) + 1) ('[' :: (text ++ ']' :: rest)) =
          some rest := by
        have h := behindByte?_append ('[' :: text ++ [']']) rest
        rwa [List.append_assoc, byteLength_append] at h
      simp only [sliceToken, nextToken, hstop, hextent, hafter, takeWhile_toBracket hbracket,
        dropWhile_toBracket hbracket]
      rfl

theorem sliceToken_colon (cs : List Char) : sliceToken ':' cs = some (nextToken ':' cs) := by
  obtain ⟨blanks, heq, -⟩ := exists_trimStart isBlank cs
  obtain ⟨digits, rest, hrun, hdigits, hrest⟩ := exists_run IsDigit (trimStart isBlank cs)
  have htake : (trimStart isBlank cs).takeWhile Char.isDigit = digits := by
    rw [hrun, takeWhile_append_of_iff (fun _ => isDigit_iff) hdigits hrest]
  have hdrop : (trimStart isBlank cs).dropWhile Char.isDigit = rest := by
    rw [hrun, dropWhile_append_of_iff (fun _ => isDigit_iff) hdigits hrest]
  have hblanks : byteLength cs - byteLength (trimStart isBlank cs) = byteLength blanks := by
    have h := congrArg byteLength heq
    rw [byteLength_append] at h
    omega
  have hnumber : behindByte? 1 (':' :: cs) = some cs := behindByte?_append [':'] cs
  have hafter : behindByte? (1 + (byteLength blanks + byteLength digits)) (':' :: cs) =
      some rest := by
    have h := behindByte?_append (':' :: (blanks ++ digits)) rest
    rwa [List.cons_append, List.append_assoc, ← hrun, ← heq, byteLength_cons, byteLength_append]
      at h
  simp only [sliceToken, nextToken, hnumber, Option.bind_eq_bind, Option.bind_some, htake, hdrop,
    hblanks, hafter]
  cases readNumeral 10 limit32 digits <;> rfl

theorem behindByte?_of_afterStart? {word cs rest : List Char}
    (h : afterStart? word cs = some rest) :
    word.isPrefixOf cs = true ∧ behindByte? (byteLength word) cs = some rest := by
  rw [afterStart?_eq_some_iff] at h
  rw [h]
  exact ⟨List.isPrefixOf_iff_prefix.mpr (List.prefix_append _ _), behindByte?_append word rest⟩

theorem isPrefixOf_of_afterStart? {word cs : List Char} (h : afterStart? word cs = none) :
    word.isPrefixOf cs = false := by
  refine Bool.eq_false_iff.mpr fun hstarts => ?_
  obtain ⟨rest, hrest⟩ := List.isPrefixOf_iff_prefix.mp hstarts
  rw [afterStart?_eq_some_iff.mpr hrest.symm] at h
  cases h

theorem sliceToken_word {c : Char} (hstar : c ≠ '*') (hbracket : c ≠ '[') (hcolon : c ≠ ':')
    (cs : List Char) : sliceToken c cs = some (nextToken c cs) := by
  simp only [sliceToken, nextToken, wordToken]
  cases hconst : afterStart? "const".toList (c :: cs) with
  | some rest =>
      obtain ⟨hstarts, hbehind⟩ := behindByte?_of_afterStart? hconst
      simp only [hstarts, hbehind, if_true, Option.map_some]
  | none =>
      simp only [isPrefixOf_of_afterStart? hconst, Bool.false_eq_true, if_false]
      cases hstruct : afterStart? "struct".toList (c :: cs) with
      | some rest =>
          obtain ⟨hstarts, hbehind⟩ := behindByte?_of_afterStart? hstruct
          simp only [hstarts, hbehind, if_true, Option.map_some]
      | none => simp only [isPrefixOf_of_afterStart? hstruct, Bool.false_eq_true, if_false,
          Option.map_none]

/-- No cut falls inside a character, and the token is the one that the characters make. -/
theorem sliceToken_eq (c : Char) (cs : List Char) : sliceToken c cs = some (nextToken c cs) := by
  by_cases hstar : c = '*'
  · rw [hstar, sliceToken_star]
  by_cases hbracket : c = '['
  · rw [hbracket, sliceToken_bracket]
  by_cases hcolon : c = ':'
  · rw [hcolon, sliceToken_colon]
  exact sliceToken_word hstar hbracket hcolon cs

/-! ### All tokens -/

theorem slicedTokens_cons (c : Char) (behind : List Char) :
    slicedTokens (c :: behind) = match nextToken c behind with
      | .error fault => some (.error fault)
      | .ok (token, rest) =>
          (slicedTokens (trimStart isBlank rest)).map fun tokens => (token :: ·) <$> tokens := by
  have hslice := sliceToken_eq c behind
  rw [slicedTokens]
  split
  · next hnone => cases hnone.symm.trans hslice
  · next fault hfault => rw [← Option.some.inj (hfault.symm.trans hslice)]
  · next token rest hok => rw [← Option.some.inj (hok.symm.trans hslice)]

theorem slicedTokens_trimStart (cs : List Char) :
    slicedTokens (trimStart isBlank cs) = some (tokenize cs) := by
  cases htrim : trimStart isBlank cs with
  | nil => rw [slicedTokens, tokenize_of_blank htrim]
  | cons c behind =>
      rw [tokenize_of_cons htrim, slicedTokens_cons]
      cases hnext : nextToken c behind with
      | error fault => rfl
      | ok found =>
          obtain ⟨token, rest⟩ := found
          have hshorter : rest.length < cs.length := by
            have hle := length_of_nextToken hnext
            have hall := length_trimStart_le isBlank cs
            rw [htrim, List.length_cons] at hall
            omega
          simp only [slicedTokens_trimStart rest]
          show _ = some (tokenize rest >>= fun tokens => pure (token :: tokens))
          cases tokenize rest <;> rfl
  termination_by cs.length
  decreasing_by exact hshorter

/-- All cuts of a declarator fall between characters, and its tokens are those that the characters
make. -/
theorem slicedTokens_trim (cs : List Char) :
    slicedTokens (trim cs) = some (tokenize (trim cs)) := by
  rw [← slicedTokens_trimStart, trimStart_trim]

end Declarator

end VulkanRegistry
