/-
Declarators by bytes.

A text in UTF-8 is cut at offsets that count bytes, and a cut inside a character fails.  Here
each token is cut off the front of a text in this way: a sign is one byte and a word as many
as it has letters, an extent ends at the offset of its bracket, and a width is as long as the
blanks and the digits behind its colon.
-/
import VulkanRegistry.Declarator

namespace VulkanRegistry

namespace Text

/-- Cuts a text behind its first bytes; none if it is too short or a character goes on there. -/
def splitAtByte? : Nat → List Char → Option (List Char × List Char)
  | 0, cs => some ([], cs)
  | _ + 1, [] => none
  | n + 1, c :: cs =>
      if c.utf8Size ≤ n + 1 then
        (splitAtByte? (n + 1 - c.utf8Size) cs).map fun (front, rest) => (c :: front, rest)
      else none

/-- What stands behind the first bytes. -/
def behindByte? (n : Nat) (cs : List Char) : Option (List Char) :=
  (splitAtByte? n cs).map (·.2)

/-- What stands between two offsets. -/
def betweenBytes? (start stop : Nat) (cs : List Char) : Option (List Char) :=
  if start ≤ stop then (splitAtByte? stop cs).bind fun (front, _) => behindByte? start front
  else none

/-- The offset of the first place of a character. -/
def byteOffset? (c : Char) (cs : List Char) : Option Nat :=
  if c ∈ cs then some (byteLength (cs.takeWhile (· != c))) else none

theorem length_of_splitAtByte? {n : Nat} {cs front rest : List Char}
    (h : splitAtByte? n cs = some (front, rest)) : rest.length ≤ cs.length := by
  fun_induction splitAtByte? n cs generalizing front with
  | case1 cs =>
      cases h
      exact Nat.le_refl _
  | case2 => cases h
  | case3 n c cs hle ih =>
      obtain ⟨⟨front, rest⟩, hsplit, heq⟩ := Option.map_eq_some_iff.mp h
      cases heq
      exact Nat.le_succ_of_le (ih hsplit)
  | case4 => cases h

/-- A cut behind at least one byte leaves less. -/
theorem length_of_behindByte? {n : Nat} {c : Char} {cs rest : List Char} (hpos : 0 < n)
    (h : behindByte? n (c :: cs) = some rest) : rest.length ≤ cs.length := by
  obtain ⟨m, rfl⟩ := Nat.exists_eq_add_one.mpr hpos
  obtain ⟨⟨front, rest⟩, hsplit, rfl⟩ := Option.map_eq_some_iff.mp h
  rw [splitAtByte?] at hsplit
  split at hsplit
  · obtain ⟨⟨front, rest⟩, hrest, heq⟩ := Option.map_eq_some_iff.mp hsplit
    cases heq
    exact length_of_splitAtByte? hrest
  · cases hsplit

end Text

namespace Declarator

open Text

/-- Cuts a token off the front of a text by bytes; none if a cut falls inside a character. -/
def sliceToken (c : Char) (cs : List Char) : Option (Except Fault (Token × List Char)) :=
  let rest := c :: cs
  match c with
  | '*' => (behindByte? 1 rest).map fun behind => .ok (.star, behind)
  | '[' =>
      match byteOffset? ']' rest with
      | none => some (.error .bracketOpen)
      | some stop => do
          let extent ← betweenBytes? 1 stop rest
          let behind ← behindByte? (stop + 1) rest
          return .ok (.extent (trim extent), behind)
  | ':' => do
      let number ← behindByte? 1 rest
      let digits := (trimStart isBlank number).takeWhile Char.isDigit
      match readNumeral 10 limit32 digits with
      | .error _ => return .error .widthNotNumber
      | .ok bits =>
          let blanks := byteLength number - byteLength (trimStart isBlank number)
          let behind ← behindByte? (1 + (blanks + byteLength digits)) rest
          return .ok (.width bits, behind)
  | _ =>
      if "const".toList.isPrefixOf rest then
        (behindByte? (byteLength "const".toList) rest).map fun behind => .ok (.const, behind)
      else if "struct".toList.isPrefixOf rest then
        (behindByte? (byteLength "struct".toList) rest).map fun behind => .ok (.struct, behind)
      else some (.error (.unexpected c))

/-- What is left behind a token starts at an offset behind the first byte. -/
theorem exists_offset_of_sliceToken {c : Char} {cs rest : List Char} {token : Token}
    (h : sliceToken c cs = some (.ok (token, rest))) :
    ∃ n, 0 < n ∧ behindByte? n (c :: cs) = some rest := by
  unfold sliceToken at h
  dsimp only at h
  split at h
  · obtain ⟨behind, hbehind, heq⟩ := Option.map_eq_some_iff.mp h
    cases heq
    exact ⟨1, Nat.one_pos, hbehind⟩
  · split at h
    · cases h
    · next stop _ =>
        obtain ⟨extent, -, h⟩ := Option.bind_eq_some_iff.mp h
        obtain ⟨behind, hbehind, heq⟩ := Option.bind_eq_some_iff.mp h
        cases heq
        exact ⟨stop + 1, Nat.succ_pos stop, hbehind⟩
  · obtain ⟨number, -, h⟩ := Option.bind_eq_some_iff.mp h
    split at h
    · cases h
    · obtain ⟨behind, hbehind, heq⟩ := Option.bind_eq_some_iff.mp h
      cases heq
      exact ⟨_, Nat.add_pos_left Nat.one_pos _, hbehind⟩
  · split at h
    · obtain ⟨behind, hbehind, heq⟩ := Option.map_eq_some_iff.mp h
      cases heq
      exact ⟨byteLength "const".toList, by decide, hbehind⟩
    · split at h
      · obtain ⟨behind, hbehind, heq⟩ := Option.map_eq_some_iff.mp h
        cases heq
        exact ⟨byteLength "struct".toList, by decide, hbehind⟩
      · cases h

theorem length_of_sliceToken {c : Char} {cs rest : List Char} {token : Token}
    (h : sliceToken c cs = some (.ok (token, rest))) : rest.length ≤ cs.length := by
  obtain ⟨n, hpos, hbehind⟩ := exists_offset_of_sliceToken h
  exact length_of_behindByte? hpos hbehind

/-- Cuts a text without blanks in front into tokens by bytes; none if a cut falls inside a
character. -/
def slicedTokens (cs : List Char) : Option (Except Fault (List Token)) :=
  match cs with
  | [] => some (.ok [])
  | c :: behind =>
      match _h : sliceToken c behind with
      | none => none
      | some (.error fault) => some (.error fault)
      | some (.ok (token, rest)) =>
          (slicedTokens (trimStart isBlank rest)).map fun tokens => (token :: ·) <$> tokens
  termination_by cs.length
  decreasing_by
    have hrest := length_of_sliceToken _h
    have htrim := length_trimStart_le isBlank rest
    rw [List.length_cons]
    omega

end Declarator

end VulkanRegistry
