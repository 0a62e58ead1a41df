/-
How declarators are written.

`Spells` relates a text to the tokens that it is made of: each token has a text of its own, and
blanks may stand anywhere between them.  A text is read as a declarator if and only if it spells
tokens (`tokenize_trim_eq_ok_iff`).  No token begins with a digit, so the digits of a width are
never cut short by what follows.

Stars divide the tokens, and the flag of a star is about the tokens between it and the star before
(`pointers_ofTokens`).
-/
import VulkanRegistry.Declarator
import VulkanRegistry.Proofs.Numeral
import VulkanRegistry.Proofs.Outcome

namespace VulkanRegistry.Declarator

open Text

/-! ### Texts of tokens -/

/-- The text of a token.  An extent holds anything up to the closing bracket, and a width is a
decimal number of 32 bits. -/
inductive Token.Spelled : Token → List Char → Prop
  | star : Spelled .star ['*']
  | const : Spelled .const "const".toList
  | struct : Spelled .struct "struct".toList
  | extent {text : List Char} (h : ']' ∉ text) : Spelled (.extent (trim text)) ('[' :: (text ++ [']']))
  | width {blanks digits : List Char} (hblanks : ∀ c ∈ blanks, isBlank c = true)
      (hne : digits ≠ []) (hdigits : ∀ c ∈ digits, IsDigit c)
      (hlt : Nat.ofDigitChars 10 digits 0 < UInt32.size) :
      Spelled (.width (Nat.ofDigitChars 10 digits 0)) (':' :: (blanks ++ digits))

/-- The text consists of these tokens, and of blanks. -/
inductive Spells : List Char → List Token → Prop
  | nil : Spells [] []
  | blank {c : Char} {cs : List Char} {tokens : List Token} (hc : isBlank c = true)
      (h : Spells cs tokens) : Spells (c :: cs) tokens
  | token {token : Token} {text cs : List Char} {tokens : List Token} (htoken : token.Spelled text)
      (h : Spells cs tokens) : Spells (text ++ cs) (token :: tokens)

/-- A token begins with a character that is neither blank nor a digit. -/
theorem Token.Spelled.exists_cons {token : Token} {text : List Char} (h : token.Spelled text) :
    ∃ c cs, text = c :: cs ∧ isBlank c = false ∧ ¬ IsDigit c := by
  cases h with
  | star => exact ⟨'*', [], rfl, by decide, by decide⟩
  | const => exact ⟨'c', "onst".toList, by decide, by decide, by decide⟩
  | struct => exact ⟨'s', "truct".toList, by decide, by decide, by decide⟩
  | extent => exact ⟨'[', _, rfl, by decide, by decide⟩
  | width => exact ⟨':', _, rfl, by decide, by decide⟩

/-- A token ends with a character that is not blank. -/
theorem Token.Spelled.exists_concat {token : Token} {text : List Char} (h : token.Spelled text) :
    ∃ cs c, text = cs ++ [c] ∧ isBlank c = false := by
  cases h with
  | star => exact ⟨[], '*', rfl, by decide⟩
  | const => exact ⟨"cons".toList, 't', by decide, by decide⟩
  | struct => exact ⟨"struc".toList, 't', by decide, by decide⟩
  | @extent text => exact ⟨'[' :: text, ']', rfl, by decide⟩
  | @width blanks digits hblanks hne hdigits hlt =>
      refine ⟨':' :: (blanks ++ digits.dropLast), digits.getLast hne, ?_, ?_⟩
      · rw [List.cons_append, List.append_assoc, List.dropLast_concat_getLast]
      · exact (hdigits _ (List.getLast_mem hne)).not_isBlank

/-! ### One token -/

theorem takeWhile_toBracket {text : List Char} (h : ']' ∉ text) (rest : List Char) :
    (text ++ ']' :: rest).takeWhile (· != ']') = text :=
  takeWhile_append_of_iff (fun _ => bne_iff_ne) (fun _ hc heq => h (heq ▸ hc))
    (notBefore_cons (by simp))

theorem dropWhile_toBracket {text : List Char} (h : ']' ∉ text) (rest : List Char) :
    (text ++ ']' :: rest).dropWhile (· != ']') = ']' :: rest :=
  dropWhile_append_of_iff (fun _ => bne_iff_ne) (fun _ hc heq => h (heq ▸ hc))
    (notBefore_cons (by simp))

/-- What is taken for a token has the text of one. -/
theorem exists_spelled_of_nextToken {c : Char} {cs rest : List Char} {token : Token}
    (h : nextToken c cs = .ok (token, rest)) :
    ∃ text, token.Spelled text ∧ c :: cs = text ++ rest := by
  unfold nextToken at h
  split at h
  · cases h
    exact ⟨['*'], .star, rfl⟩
  · obtain ⟨text, behind, rfl, htext, hbehind⟩ := exists_run (· ≠ ']') cs
    have hbracket : ']' ∉ text := fun hmem => htext _ hmem rfl
    cases behind with
    | nil =>
        rw [List.append_nil, List.dropWhile_eq_nil_iff.mpr (by simpa using htext)] at h
        cases h
    | cons d rest' =>
        obtain rfl : d = ']' := by simpa [NotBefore] using hbehind
        rw [takeWhile_toBracket hbracket, dropWhile_toBracket hbracket] at h
        cases h
        exact ⟨_, .extent hbracket, by simp⟩
  · obtain ⟨blanks, heq, hblanks⟩ := exists_trimStart isBlank cs
    obtain ⟨digits, behind, hrun, hdigits, hbehind⟩ := exists_run IsDigit (trimStart isBlank cs)
    simp only [hrun, takeWhile_append_of_iff (fun _ => isDigit_iff) hdigits hbehind,
      dropWhile_append_of_iff (fun _ => isDigit_iff) hdigits hbehind] at h
    split at h
    · next bits hbits =>
        cases h
        obtain ⟨hne, rfl, hlt⟩ := (readNumeral_ten_eq_ok_iff (by decide) hdigits).mp hbits
        refine ⟨_, .width hblanks hne hdigits hlt, ?_⟩
        rw [List.cons_append, List.append_assoc, ← hrun, ← heq]
    · cases h
  · unfold wordToken at h
    split at h
    · next found hword =>
        cases h
        split at hword
        · next rest' hconst =>
            cases hword
            exact ⟨_, .const, afterStart?_eq_some_iff.mp hconst⟩
        · obtain ⟨rest', hstruct, heq⟩ := Option.map_eq_some_iff.mp hword
          cases heq
          exact ⟨_, .struct, afterStart?_eq_some_iff.mp hstruct⟩
    · cases h

/-- The text of a token is taken for it, unless it ends in a number that goes on. -/
theorem nextToken_of_spelled {c : Char} {cs text rest : List Char} {token : Token}
    (h : token.Spelled text) (heq : text ++ rest = c :: cs) (hrest : NotBefore IsDigit rest) :
    nextToken c cs = .ok (token, rest) := by
  cases h with
  | star =>
      cases heq
      rfl
  | const =>
      obtain ⟨rfl, rfl⟩ := List.cons.inj heq
      rfl
  | struct =>
      obtain ⟨rfl, rfl⟩ := List.cons.inj heq
      rfl
  | @extent text hbracket =>
      rw [List.cons_append, List.append_assoc] at heq
      obtain ⟨rfl, rfl⟩ := List.cons.inj heq
      simp only [nextToken, List.singleton_append, takeWhile_toBracket hbracket,
        dropWhile_toBracket hbracket]
  | @width blanks digits hblanks hne hdigits hlt =>
      rw [List.cons_append, List.append_assoc] at heq
      obtain ⟨rfl, rfl⟩ := List.cons.inj heq
      have htrim : trimStart isBlank (blanks ++ (digits ++ rest)) = digits ++ rest := by
        refine dropWhile_append_of_notBefore hblanks ?_
        obtain ⟨d, ds, rfl⟩ := List.exists_cons_of_ne_nil hne
        exact notBefore_cons (by simp [(hdigits d (by simp)).not_isBlank])
      have hbits : readNumeral 10 limit32 digits = .ok (Nat.ofDigitChars 10 digits 0) :=
        (readNumeral_ten_eq_ok_iff (by decide) hdigits).mpr ⟨hne, rfl, hlt⟩
      simp only [nextToken, htrim, takeWhile_append_of_iff (fun _ => isDigit_iff) hdigits hrest,
        dropWhile_append_of_iff (fun _ => isDigit_iff) hdigits hrest, hbits]

/-! ### Sequences of tokens -/

theorem Spells.blanks_append {blanks cs : List Char} {tokens : List Token}
    (hblanks : ∀ c ∈ blanks, isBlank c = true) (h : Spells cs tokens) :
    Spells (blanks ++ cs) tokens := by
  induction blanks with
  | nil => exact h
  | cons c blanks ih =>
      exact .blank (hblanks c (by simp)) (ih fun d hd => hblanks d (by simp [hd]))

theorem Spells.append_blanks {blanks cs : List Char} {tokens : List Token} (h : Spells cs tokens)
    (hblanks : ∀ c ∈ blanks, isBlank c = true) : Spells (cs ++ blanks) tokens := by
  induction h with
  | nil => simpa using Spells.nil.blanks_append hblanks
  | blank hc _ ih => exact .blank hc ih
  | token htoken _ ih =>
      rw [List.append_assoc]
      exact .token htoken ih

theorem Spells.trimStart {cs : List Char} {tokens : List Token} (h : Spells cs tokens) :
    Spells (trimStart isBlank cs) tokens := by
  induction h with
  | nil => exact .nil
  | blank hc _ ih =>
      rw [Text.trimStart, List.dropWhile_cons_of_pos hc]
      exact ih
  | @token token text cs tokens htoken h _ =>
      obtain ⟨c, behind, hcons, hc, -⟩ := htoken.exists_cons
      have hkeep : Text.trimStart isBlank (text ++ cs) = text ++ cs := by
        rw [hcons, List.cons_append, trimStart_cons hc]
      rw [hkeep]
      exact .token htoken h

theorem Spells.trimEnd {cs : List Char} {tokens : List Token} (h : Spells cs tokens) :
    Spells (trimEnd isBlank cs) tokens := by
  induction h with
  | nil => exact .nil
  | @blank c cs tokens hc _ ih =>
      rw [← List.singleton_append, trimEnd_append]
      -- The blank goes if nothing but blanks follows, and stays in front of a token.
      split
      · next hnil =>
          rw [hnil] at ih
          simpa [Text.trimEnd, hc] using ih
      · exact .blank hc ih
  | token htoken _ ih =>
      obtain ⟨front, c, rfl, hc⟩ := htoken.exists_concat
      rw [trimEnd_append_of_not hc]
      exact .token htoken ih

/-- Digits belong to the token in front of them. -/
theorem Spells.notBefore_isDigit {cs : List Char} {tokens : List Token} (h : Spells cs tokens) :
    NotBefore IsDigit cs := by
  cases h with
  | nil => exact notBefore_nil _
  | blank hc => exact notBefore_cons fun hdigit => by simp [hdigit.not_isBlank] at hc
  | token htoken =>
      obtain ⟨c, behind, rfl, -, hdigit⟩ := htoken.exists_cons
      exact notBefore_cons hdigit

theorem tokenize_of_blank {cs : List Char} (h : trimStart isBlank cs = []) :
    tokenize cs = .ok [] := by
  rw [tokenize.eq_def]
  split
  · rfl
  · next hcons =>
      rw [h] at hcons
      cases hcons

theorem tokenize_of_cons {c : Char} {cs behind : List Char}
    (h : trimStart isBlank cs = c :: behind) :
    tokenize cs = nextToken c behind >>= fun found =>
      tokenize found.2 >>= fun tokens => pure (found.1 :: tokens) := by
  rw [tokenize.eq_def]
  split
  · next hnil =>
      rw [h] at hnil
      cases hnil
  · next hcons =>
      rw [h] at hcons
      cases hcons
      split
      · next fault hfault => rw [hfault]; rfl
      · next token rest hfound => rw [hfound]; rfl

theorem spells_of_tokenize {cs : List Char} {tokens : List Token} (h : tokenize cs = .ok tokens) :
    Spells cs tokens := by
  obtain ⟨blanks, heq, hblanks⟩ := exists_trimStart isBlank cs
  rw [heq]
  refine Spells.blanks_append hblanks ?_
  cases htrim : trimStart isBlank cs with
  | nil =>
      rw [tokenize_of_blank htrim] at h
      cases h
      exact .nil
  | cons c behind =>
      rw [tokenize_of_cons htrim, Outcome.bind_eq_ok] at h
      obtain ⟨⟨token, rest⟩, hnext, h⟩ := h
      obtain ⟨tokens', htokens, h⟩ := Outcome.bind_eq_ok.mp h
      cases h
      have hshorter : rest.length < cs.length := by
        have hle := length_of_nextToken hnext
        have hall := length_trimStart_le isBlank cs
        rw [htrim, List.length_cons] at hall
        omega
      obtain ⟨text, htext, hcons⟩ := exists_spelled_of_nextToken hnext
      rw [hcons]
      exact .token htext (spells_of_tokenize htokens)
  termination_by cs.length
  decreasing_by exact hshorter

theorem tokenize_of_spells {cs : List Char} {tokens : List Token} (h : Spells cs tokens) :
    tokenize cs = .ok tokens := by
  induction h with
  | nil => exact tokenize_of_blank rfl
  | @blank c cs tokens hc _ ih =>
      have htrim : Text.trimStart isBlank (c :: cs) = Text.trimStart isBlank cs :=
        List.dropWhile_cons_of_pos hc
      cases hcs : Text.trimStart isBlank cs with
      | nil => rw [tokenize_of_blank (htrim.trans hcs), ← ih, tokenize_of_blank hcs]
      | cons d behind => rw [tokenize_of_cons (htrim.trans hcs), ← ih, tokenize_of_cons hcs]
  | @token token text cs tokens htoken h ih =>
      obtain ⟨c, behind, hcons, hc, -⟩ := htoken.exists_cons
      have htext : text ++ cs = c :: (behind ++ cs) := by rw [hcons, List.cons_append]
      have htrim : Text.trimStart isBlank (text ++ cs) = c :: (behind ++ cs) := by
        rw [htext, trimStart_cons hc]
      rw [tokenize_of_cons htrim, nextToken_of_spelled htoken htext h.notBefore_isDigit]
      show (tokenize cs >>= fun tokens => pure (token :: tokens)) = _
      rw [ih]
      rfl

/-- A text spells one sequence of tokens at most. -/
theorem Spells.unique {cs : List Char} {tokens tokens' : List Token} (h : Spells cs tokens)
    (h' : Spells cs tokens') : tokens = tokens' :=
  Except.ok.inj ((tokenize_of_spells h).symm.trans (tokenize_of_spells h'))

/-- A text is cut into tokens if and only if it spells them. -/
theorem tokenize_trim_eq_ok_iff {cs : List Char} {tokens : List Token} :
    tokenize (trim cs) = .ok tokens ↔ Spells cs tokens := by
  constructor
  · intro h
    obtain ⟨before, behind, heq, hbefore, hbehind⟩ := exists_trim cs
    rw [heq, List.append_assoc]
    exact ((spells_of_tokenize h).append_blanks hbehind).blanks_append hbefore
  · intro h
    exact tokenize_of_spells h.trimStart.trimEnd

theorem parse_eq_ok_iff {source owner : String} {declarator : Declarator} :
    parse source owner = .ok declarator ↔
      ∃ tokens, Spells source.toList tokens ∧ ofTokens tokens = declarator := by
  simp only [← tokenize_trim_eq_ok_iff]
  unfold parse
  split
  · next tokens htokens => simp [htokens]
  · next fault hfault => simp [hfault]

/-! ### The flags of stars -/

theorem splitOn_star_cons_self (tokens : List Token) :
    (Token.star :: tokens).splitOn .star = [] :: tokens.splitOn .star := by
  simp [List.splitOn, List.splitOnP_cons_eq_if_modifyHead]

theorem splitOn_star_cons {token : Token} (h : token ≠ .star) (tokens : List Token) :
    (token :: tokens).splitOn .star = (tokens.splitOn .star).modifyHead (token :: ·) := by
  simp [List.splitOn, List.splitOnP_cons_eq_if_modifyHead, h]

theorem exists_splitOn_star (tokens : List Token) :
    ∃ first rest, tokens.splitOn .star = first :: rest :=
  List.exists_cons_of_ne_nil (List.splitOnP_ne_nil _ _)

theorem starFlags_append (before tokens : List Token) :
    starFlags (before.contains .const) tokens =
      ((tokens.splitOn .star).modifyHead (before ++ ·)).dropLast.map (·.contains .const) := by
  -- `before` is what has been passed since the last star.
  induction tokens generalizing before with
  | nil => rfl
  | cons token tokens ih =>
      by_cases hstar : token = .star
      · obtain ⟨first, rest, hsplit⟩ := exists_splitOn_star tokens
        have hrest := ih []
        rw [hstar, splitOn_star_cons_self, starFlags]
        rw [hsplit] at hrest ⊢
        simpa using hrest
      · have hflag : starFlags (before.contains .const) (token :: tokens) =
            starFlags ((before ++ [token]).contains .const) tokens := by
          cases token <;> simp [starFlags] at *
        rw [hflag, ih, splitOn_star_cons hstar, List.modifyHead_modifyHead]
        simp [Function.comp_def]

/-- The flag of a star says whether a `const` stands between it and the star before it. -/
theorem pointers_ofTokens (tokens : List Token) :
    (ofTokens tokens).pointers = (tokens.splitOn .star).dropLast.map (·.contains .const) := by
  obtain ⟨first, rest, hsplit⟩ := exists_splitOn_star tokens
  have h := starFlags_append [] tokens
  rw [hsplit] at h ⊢
  exact h

/-- The elements of an array are constant if a `const` stands before the first star. -/
theorem constElement_ofTokens (tokens : List Token) :
    (ofTokens tokens).constElement = (tokens.splitOn .star).head?.any (·.contains .const) := by
  have hjoin : [Token.star].intercalate (tokens.splitOn .star) = tokens :=
    List.intercalate_splitOn Token.star
  obtain ⟨first, rest, hsplit⟩ := exists_splitOn_star tokens
  have hpointers := pointers_ofTokens tokens
  simp only [ofTokens] at hpointers ⊢
  rw [hpointers, hsplit]
  cases rest with
  | nil =>
      obtain rfl : first = tokens := by simpa [hsplit] using hjoin
      rfl
  | cons second rest => rfl

theorem length_starFlags (pending : Bool) (tokens : List Token) :
    (starFlags pending tokens).length = tokens.count .star := by
  induction tokens generalizing pending with
  | nil => rfl
  | cons token tokens ih => cases token <;> simp [starFlags, ih]

@[simp] theorem length_pointers (tokens : List Token) :
    (ofTokens tokens).pointers.length = tokens.count .star :=
  length_starFlags false tokens

end VulkanRegistry.Declarator
