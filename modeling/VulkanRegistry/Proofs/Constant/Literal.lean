/-
How integer literals are written.

A literal is a number with blanks, parentheses and complements around it (`Denotes`).  Reading
undoes these layers from outside: blanks and parentheses are peeled off until none are left, the
operand of a complement is read as a literal of its own, and anything else is a number.

So exactly the literals are read, with their exact values, except that hexadecimal digits with a
sign of their own are taken for a number (`read?_eq_some_iff`).
-/
import VulkanRegistry.Proofs.Constant.Number

namespace VulkanRegistry.Literal

open Text

/-- Two letters `l` stand next to each other in the text, each in either case. -/
def Wide (operand : List Char) : Prop :=
  ∃ a b, (a = 'l' ∨ a = 'L') ∧ (b = 'l' ∨ b = 'L') ∧ [a, b] <:+: operand

/-- The number of bits that the complement of an operand keeps. -/
def MaskedTo (operand : List Char) (bits : Nat) : Prop :=
  Wide operand ∧ bits = 64 ∨ ¬ Wide operand ∧ bits = 32

/-- The text has blanks, parentheses and complements around something that has a value.  What is
left of a complement are its low bits. -/
inductive Denotes (Inside : List Char → Int → Prop) : List Char → Int → Prop
  | inside {cs : List Char} {value : Int} (h : Inside cs value) : Denotes Inside cs value
  | blankBefore {c : Char} {cs : List Char} {value : Int} (hc : isBlank c = true)
      (h : Denotes Inside cs value) : Denotes Inside (c :: cs) value
  | blankBehind {c : Char} {cs : List Char} {value : Int} (hc : isBlank c = true)
      (h : Denotes Inside cs value) : Denotes Inside (cs ++ [c]) value
  | parens {cs : List Char} {value : Int} (h : Denotes Inside cs value) :
      Denotes Inside ('(' :: (cs ++ [')'])) value
  | complement {operand : List Char} {value : Int} {bits : Nat} (hbits : MaskedTo operand bits)
      (h : Denotes Inside operand value) :
      Denotes Inside ('~' :: operand) (~~~ BitVec.ofInt bits value).toNat

/-! ### Layers around a number -/

theorem betweenParens?_eq_some_iff {cs inner : List Char} :
    betweenParens? cs = some inner ↔ cs = '(' :: (inner ++ [')']) := by
  constructor
  · intro h
    unfold betweenParens? at h
    split at h
    · split at h
      · next hlast =>
          obtain ⟨front, rfl⟩ := List.getLast?_eq_some_iff.mp hlast
          cases h
          rw [List.dropLast_concat]
      · cases h
    · cases h
  · rintro rfl
    simp [betweenParens?]

theorem peel_of_some {cs inner : List Char} (h : betweenParens? (trim cs) = some inner) :
    peel cs = peel inner := by
  rw [peel.eq_def]
  split
  · next inner' hinner =>
      rw [h] at hinner
      cases hinner
      rfl
  · next hnone =>
      rw [h] at hnone
      cases hnone

theorem peel_of_none {cs : List Char} (h : betweenParens? (trim cs) = none) :
    peel cs = trim cs := by
  rw [peel.eq_def]
  split
  · next inner hinner =>
      rw [h] at hinner
      cases hinner
  · rfl

theorem peel_congr {cs ds : List Char} (h : trim cs = trim ds) : peel cs = peel ds := by
  cases hparens : betweenParens? (trim cs) with
  | some inner =>
      rw [peel_of_some hparens]
      rw [h] at hparens
      rw [peel_of_some hparens]
  | none =>
      rw [peel_of_none hparens]
      rw [h] at hparens ⊢
      rw [peel_of_none hparens]

/-- Parentheses are taken away, with what blanks there are inside. -/
theorem peel_parens (cs : List Char) : peel ('(' :: (cs ++ [')'])) = peel cs := by
  have htrim : trim ('(' :: (cs ++ [')'])) = '(' :: (cs ++ [')']) :=
    trim_eq_self (fun c hc => by cases hc; rfl) fun c hc => by
      rw [← List.cons_append, List.getLast?_concat] at hc
      cases hc
      rfl
  exact peel_of_some (betweenParens?_eq_some_iff.mpr htrim)

/-- What begins neither with a blank nor with a parenthesis is trimmed at its end only. -/
theorem peel_of_head {c : Char} {cs : List Char} (hblank : isBlank c = false) (hc : c ≠ '(') :
    peel (c :: cs) = c :: trimEnd isBlank cs := by
  have hnone : betweenParens? (trim (c :: cs)) = none := by
    rw [trim_cons hblank, Option.eq_none_iff_forall_ne_some]
    intro inner hinner
    exact hc (List.cons.inj (betweenParens?_eq_some_iff.mp hinner)).1
  rw [peel_of_none hnone, trim_cons hblank]

/-- Reads what the blanks and parentheses have been taken away from. -/
def peeled? (cs : List Char) : Option Int :=
  match cs with
  | '~' :: operand => (read? operand).map (complement (isWide operand))
  | rest => number? rest

theorem read?_eq_peeled? (cs : List Char) : read? cs = peeled? (peel cs) := by
  rw [read?.eq_def]
  split
  · next operand h =>
      rw [h]
      rfl
  · next rest h =>
      rw [h]
      rfl
  · next htilde hminus =>
      unfold peeled?
      split
      · next operand h => exact absurd h (htilde operand)
      · unfold number?
        split
        · next rest h => exact absurd h (hminus rest)
        · rfl

/-! ### Complements -/

theorem toUpper_eq_L_iff {c : Char} : c.toUpper = 'L' ↔ c = 'l' ∨ c = 'L' := by
  constructor
  · intro h
    rw [Char.ext_iff] at h
    delta Char.toUpper at h
    split at h
    · refine .inl (Char.ext ?_)
      have h : c.val + ('A'.val - 'a'.val) = 'L'.val := h
      calc c.val = c.val + ('A'.val - 'a'.val) - ('A'.val - 'a'.val) := by
            rw [UInt32.add_sub_cancel]
        _ = 'L'.val - ('A'.val - 'a'.val) := by rw [h]
        _ = 'l'.val := by decide
    · exact .inr (Char.ext h)
  · rintro (rfl | rfl) <;> rfl

theorem isWide_iff {operand : List Char} : isWide operand = true ↔ Wide operand := by
  rw [isWide, isInfix_iff, List.infix_map_iff]
  constructor
  · rintro ⟨letters, hletters, heq⟩
    obtain ⟨a, rest, rfl, ha, hrest⟩ := List.map_eq_cons_iff.mp heq.symm
    obtain ⟨b, rest, rfl, hb, hnil⟩ := List.map_eq_cons_iff.mp hrest
    rw [List.map_eq_nil_iff.mp hnil] at hletters
    exact ⟨a, b, toUpper_eq_L_iff.mp ha, toUpper_eq_L_iff.mp hb, hletters⟩
  · rintro ⟨a, b, ha, hb, hletters⟩
    refine ⟨[a, b], hletters, ?_⟩
    rw [List.map_cons, List.map_cons, toUpper_eq_L_iff.mpr ha, toUpper_eq_L_iff.mpr hb]
    rfl

/-- Blanks at the end are no letters. -/
theorem wide_append_blanks {blanks : List Char} (hblanks : ∀ c ∈ blanks, isBlank c = true)
    (operand : List Char) : Wide (operand ++ blanks) ↔ Wide operand := by
  constructor
  · rintro ⟨a, b, ha, hb, h⟩
    have hblank : isBlank b = false := by
      rcases hb with rfl | rfl <;> rfl
    exact ⟨a, b, ha, hb, infix_of_infix_append h fun hmem => by simp [hblanks b hmem] at hblank⟩
  · rintro ⟨a, b, ha, hb, h⟩
    exact ⟨a, b, ha, hb, h.trans (List.prefix_append operand blanks).isInfix⟩

theorem complement_eq (wide : Bool) (value : Int) :
    complement wide value = (~~~ BitVec.ofInt (if wide then 64 else 32) value).toNat := by
  cases wide
  · simp [complement, BitVec.toNat_ofInt]
    omega
  · simp [complement, BitVec.toNat_ofInt]
    omega

theorem maskedTo_iff {operand : List Char} {bits : Nat} :
    MaskedTo operand bits ↔ (if isWide operand then 64 else 32) = bits := by
  by_cases hwide : Wide operand
  · simp [MaskedTo, hwide, isWide_iff.mpr hwide, eq_comm]
  · have hnarrow : isWide operand = false := by rwa [← Bool.not_eq_true, isWide_iff]
    simp [MaskedTo, hwide, hnarrow, eq_comm]

/-! ### Literals are read -/

/-- A number is what is left when blanks and parentheses are taken away from it. -/
theorem peel_of_number? {cs : List Char} {value : Int} (h : number? cs = some value) :
    peel cs = cs ∧ ∀ operand, cs ≠ '~' :: operand := by
  have hkeep {c : Char} {rest : List Char} (hblank : ∀ d ∈ c :: rest, isBlank d = false)
      (hparen : c ≠ '(') : peel (c :: rest) = c :: rest := by
    have htrim : trimEnd isBlank (rest ++ []) = rest :=
      trimEnd_append_of_notBehind
        (fun d hd => hblank d (List.mem_cons_of_mem c (List.mem_of_mem_getLast? hd))) (by simp)
    rw [peel_of_head (hblank c (by simp)) hparen, ← List.append_nil rest, htrim, List.append_nil]
  unfold number? at h
  split at h
  · next rest =>
      obtain ⟨positive, hrest, -⟩ := Option.map_eq_some_iff.mp h
      have hblank : ∀ d ∈ '-' :: rest, isBlank d = false :=
        List.forall_mem_cons.mpr ⟨rfl, not_isBlank_of_magnitude? hrest⟩
      exact ⟨hkeep hblank (by decide), fun operand heq => by cases heq⟩
  · have hblank := not_isBlank_of_magnitude? h
    obtain ⟨text, suffix, rfl, htext, -⟩ := magnitude?_eq_some_iff.mp h
    obtain ⟨c, rest, rfl, hc⟩ := htext.exists_cons
    have hne (d : Char) (hd : ¬ IsDigit d) : c ≠ d := by
      rintro rfl
      exact hd hc
    exact ⟨hkeep hblank (hne '(' (by decide)),
      fun operand heq => hne '~' (by decide) (List.cons.inj heq).1⟩

section Layers

variable {Inside : List Char → Int → Prop} {cs : List Char} {value : Int}

theorem Denotes.blanks_append (h : Denotes Inside cs value) {blanks : List Char}
    (hblanks : ∀ c ∈ blanks, isBlank c = true) : Denotes Inside (blanks ++ cs) value := by
  induction blanks with
  | nil => exact h
  | cons c blanks ih =>
      exact .blankBefore (hblanks c (by simp)) (ih fun d hd => hblanks d (by simp [hd]))

theorem Denotes.append_blanks (h : Denotes Inside cs value) {blanks : List Char}
    (hblanks : ∀ c ∈ blanks, isBlank c = true) : Denotes Inside (cs ++ blanks) value := by
  induction blanks generalizing cs with
  | nil => simpa using h
  | cons c blanks ih =>
      rw [List.append_cons]
      exact ih (.blankBehind (hblanks c (by simp)) h) fun d hd => hblanks d (by simp [hd])

theorem denotes_of_trim (h : Denotes Inside (trim cs) value) : Denotes Inside cs value := by
  obtain ⟨before, behind, heq, hbefore, hbehind⟩ := exists_trim cs
  rw [heq]
  exact (h.blanks_append hbefore).append_blanks hbehind

theorem denotes_of_peel (h : Denotes Inside (peel cs) value) : Denotes Inside cs value := by
  fun_induction peel cs with
  | case1 cs inner hinner ih =>
      refine denotes_of_trim ?_
      rw [betweenParens?_eq_some_iff.mp hinner]
      exact .parens (ih h)
  | case2 cs hnone => exact denotes_of_trim h

theorem Denotes.imp {Inside' : List Char → Int → Prop}
    (himp : ∀ cs value, Inside cs value → Inside' cs value) (h : Denotes Inside cs value) :
    Denotes Inside' cs value := by
  induction h with
  | inside h => exact .inside (himp _ _ h)
  | blankBefore hc _ ih => exact .blankBefore hc ih
  | blankBehind hc _ ih => exact .blankBehind hc ih
  | parens _ ih => exact .parens ih
  | complement hbits _ ih => exact .complement hbits ih

theorem denotes_or_iff {Inside' : List Char → Int → Prop} :
    Denotes (fun cs value => Inside cs value ∨ Inside' cs value) cs value ↔
      Denotes Inside cs value ∨ Denotes Inside' cs value := by
  constructor
  · intro h
    induction h with
    | inside h => exact h.imp .inside .inside
    | blankBefore hc _ ih => exact ih.imp (.blankBefore hc) (.blankBefore hc)
    | blankBehind hc _ ih => exact ih.imp (.blankBehind hc) (.blankBehind hc)
    | parens _ ih => exact ih.imp .parens .parens
    | complement hbits _ ih => exact ih.imp (.complement hbits) (.complement hbits)
  · rintro (h | h)
    · exact h.imp fun _ _ => .inl
    · exact h.imp fun _ _ => .inr

end Layers

/-- What is read is a number with layers around it. -/
theorem denotes_of_read? {cs : List Char} {value : Int} (h : read? cs = some value) :
    Denotes (number? · = some ·) cs value := by
  rw [read?_eq_peeled?] at h
  unfold peeled? at h
  split at h
  · next operand hpeel =>
      obtain ⟨inner, hinner, rfl⟩ := Option.map_eq_some_iff.mp h
      have hshorter : operand.length < cs.length := by
        have hle := length_peel_le cs
        rw [hpeel, List.length_cons] at hle
        omega
      refine denotes_of_peel ?_
      rw [hpeel, complement_eq]
      exact .complement (maskedTo_iff.mpr rfl) (denotes_of_read? hinner)
  · exact denotes_of_peel (.inside h)
  termination_by cs.length
  decreasing_by exact hshorter

theorem read?_congr {cs ds : List Char} (h : trim cs = trim ds) : read? cs = read? ds := by
  rw [read?_eq_peeled?, peel_congr h, ← read?_eq_peeled?]

theorem read?_complement (operand : List Char) :
    read? ('~' :: operand) = (read? operand).map (complement (isWide operand)) := by
  -- The blanks behind the operand have been dropped with the rest.
  obtain ⟨blanks, heq, hblanks⟩ := exists_trimEnd isBlank operand
  have htrim : trim operand = trim (trimEnd isBlank operand) :=
    calc trim operand = trim (trimEnd isBlank operand ++ blanks) := by rw [← heq]
      _ = trim (trimEnd isBlank operand) := trim_append_blanks hblanks _
  have hwide : Wide operand ↔ Wide (trimEnd isBlank operand) :=
    calc Wide operand ↔ Wide (trimEnd isBlank operand ++ blanks) := by rw [← heq]
      _ ↔ Wide (trimEnd isBlank operand) := wide_append_blanks hblanks _
  rw [← isWide_iff, ← isWide_iff, ← Bool.eq_iff_iff] at hwide
  rw [read?_eq_peeled?, peel_of_head rfl (by decide), read?_congr htrim, hwide]
  rfl

/-- A number with layers around it is read. -/
theorem read?_of_denotes {cs : List Char} {value : Int}
    (h : Denotes (number? · = some ·) cs value) : read? cs = some value := by
  induction h with
  | @inside cs value h =>
      obtain ⟨hpeel, hno⟩ := peel_of_number? h
      rw [read?_eq_peeled?, hpeel]
      unfold peeled?
      split
      · exact absurd rfl (hno _)
      · exact h
  | @blankBefore c cs value hc _ ih =>
      have hblank : ∀ d ∈ [c], isBlank d = true := by simpa using hc
      rw [← ih, ← List.singleton_append]
      exact read?_congr (trim_append hblank cs)
  | @blankBehind c cs value hc _ ih =>
      rw [← ih]
      exact read?_congr (trim_append_blanks (by simpa using hc) cs)
  | @parens cs value _ ih => rw [← ih, read?_eq_peeled?, peel_parens, ← read?_eq_peeled?]
  | complement hbits _ ih =>
      rw [read?_complement, ih, Option.map_some, complement_eq, maskedTo_iff.mp hbits]

/-- Literals are read with their values, and beyond them only what has an inner sign is read. -/
theorem read?_eq_some_iff {cs : List Char} {value : Int} :
    read? cs = some value ↔ Denotes Plain cs value ∨ Denotes InnerSigned cs value := by
  rw [← denotes_or_iff]
  simp only [← number?_eq_some_iff]
  exact ⟨denotes_of_read?, read?_of_denotes⟩

/-! ### Exact values -/

theorem hasInnerSign_of_denotes {cs : List Char} {value : Int} (h : Denotes InnerSigned cs value) :
    HasInnerSign cs := by
  induction h with
  | inside h => exact hasInnerSign_of_innerSigned h
  | blankBefore _ _ ih => exact ih.mono (List.suffix_cons _ _).isInfix
  | blankBehind _ _ ih => exact ih.mono (List.prefix_append _ _).isInfix
  | parens _ ih =>
      exact ih.mono ((List.prefix_append _ _).isInfix.trans (List.suffix_cons _ _).isInfix)
  | complement _ _ ih => exact ih.mono (List.suffix_cons _ _).isInfix

theorem not_hasInnerSign_of_denotes {cs : List Char} {value : Int} (h : Denotes Plain cs value) :
    ¬ HasInnerSign cs := by
  induction h with
  | inside h => exact not_hasInnerSign_of_plain h
  | blankBefore hc _ ih =>
      refine fun h => ih (hasInnerSign_of_cons h ?_)
      constructor <;> (rintro rfl; exact absurd hc (by decide))
  | blankBehind hc _ ih =>
      refine fun h => ih (hasInnerSign_of_concat h ?_)
      constructor <;> (rintro rfl; exact absurd hc (by decide))
  | parens _ ih =>
      exact fun h => ih (hasInnerSign_of_concat (hasInnerSign_of_cons h (by decide)) (by decide))
  | complement _ _ ih => exact fun h => ih (hasInnerSign_of_cons h (by decide))

/-- Numbers have 128 bits with their sign, so that their negatives have, too. -/
theorem natAbs_lt_of_denotes {cs : List Char} {value : Int} (h : Denotes Plain cs value) :
    value.natAbs < 2 ^ 127 := by
  induction h with
  | inside h =>
      cases h with
      | positive _ hfits => exact hfits
      | negative _ hfits => simpa using hfits
  | blankBefore _ _ ih => exact ih
  | blankBehind _ _ ih => exact ih
  | parens _ ih => exact ih
  | @complement operand value bits hbits _ _ =>
      have hlt : (~~~ BitVec.ofInt bits value).toNat < 2 ^ bits := BitVec.isLt _
      have hle : bits ≤ 64 := by
        rcases hbits with ⟨-, rfl⟩ | ⟨-, rfl⟩ <;> decide
      calc (((~~~ BitVec.ofInt bits value).toNat : Nat) : Int).natAbs
          = (~~~ BitVec.ofInt bits value).toNat := rfl
        _ < 2 ^ bits := hlt
        _ ≤ 2 ^ 127 := Nat.pow_le_pow_right (by decide) (by omega)

/-- The text is read if and only if it is a literal, and then as what it denotes. -/
def ReadsExactly (text : String) : Prop :=
  ∀ value, toInt? text = some value ↔ Denotes Plain text.toList value

/-- A text is read exactly unless it is a literal but for hexadecimal digits with a sign of their
own, which is read all the same.  What a literal denotes fits 128 bits, and so does its negative. -/
theorem readsExactly_iff (text : String) :
    (ReadsExactly text ↔ ¬ ∃ value, Denotes InnerSigned text.toList value) ∧
    (∀ value, toInt? text = some value ↔
      Denotes Plain text.toList value ∨ Denotes InnerSigned text.toList value) ∧
    ∀ value, Denotes Plain text.toList value → value.natAbs < 2 ^ 127 := by
  have hread (value : Int) : toInt? text = some value ↔
      Denotes Plain text.toList value ∨ Denotes InnerSigned text.toList value := read?_eq_some_iff
  refine ⟨⟨?_, ?_⟩, hread, fun value => natAbs_lt_of_denotes⟩
  · rintro hexact ⟨value, hinner⟩
    have hplain := (hexact value).mp ((hread value).mpr (.inr hinner))
    exact not_hasInnerSign_of_denotes hplain (hasInnerSign_of_denotes hinner)
  · intro hno value
    rw [hread]
    exact or_iff_left fun hinner => hno ⟨value, hinner⟩

/-- A complement of 64 bits of a hexadecimal number, in parentheses. -/
theorem readsExactly_maskText :
    Denotes Plain "(~ 0x1FuLL )".toList 0xFFFFFFFFFFFFFFE0 ∧ ReadsExactly "(~ 0x1FuLL )" ∧
      (0xFFFFFFFFFFFFFFE0 : Int).natAbs < 2 ^ 127 := by
  obtain ⟨hexact, -, hfits⟩ := readsExactly_iff "(~ 0x1FuLL )"
  have hvalue : toInt? "(~ 0x1FuLL )" = some 0xFFFFFFFFFFFFFFE0 := by decide +kernel
  have hno : ¬ ∃ value, Denotes InnerSigned "(~ 0x1FuLL )".toList value := by
    rintro ⟨value, h⟩
    obtain ⟨x, sign, -, hsign, hin⟩ := hasInnerSign_of_denotes h
    have hmem : sign ∈ "(~ 0x1FuLL )".toList := hin.subset (by simp)
    rcases hsign with rfl | rfl <;> exact absurd hmem (by decide)
  have hplain := (hexact.mpr hno _).mp hvalue
  exact ⟨hplain, hexact.mpr hno, hfits _ hplain⟩

/-- A sign behind the `x` makes a value of what is no literal. -/
theorem not_readsExactly_innerSign : ¬ ∀ text, ReadsExactly text := by
  intro h
  have hvalue : toInt? "0x-5" = some (-5) := by decide +kernel
  exact not_hasInnerSign_of_denotes ((h _ _).mp hvalue)
    ⟨'x', '-', .inl rfl, .inr rfl, ['0'], ['5'], rfl⟩

end VulkanRegistry.Literal
