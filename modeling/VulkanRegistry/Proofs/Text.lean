/-
Runs of characters.

Scanners take the longest run of characters of a class off the front of a text.  A run that is
put in front of a text comes off again as it was if the text behind it does not go on with a
character of the class, and that is what `NotBefore` says.  Trimming takes off such runs at both
ends, and nothing else of the text (`IsPadded`).

Lists are cut at their commas and every item is trimmed.  What comes out are the items that the
text lists (`IsCommaList`), because no item holds a comma.
-/
import Mathlib.Data.List.Forall2
import Mathlib.Data.List.TakeWhile
import VulkanRegistry.Text.Pieces

namespace VulkanRegistry.Text

/-- A decimal digit of ASCII. -/
def IsDigit (c : Char) : Prop :=
  '0' ≤ c ∧ c ≤ '9'

theorem isDigit_iff {c : Char} : c.isDigit = true ↔ IsDigit c := by
  delta Char.isDigit
  simp only [IsDigit, Bool.and_eq_true, decide_eq_true_eq, Char.le_def, ge_iff_le]

instance : DecidablePred IsDigit :=
  fun _ => decidable_of_iff _ isDigit_iff

/-- The visible characters of ASCII are not blank. -/
theorem not_isBlank_of_visible {c : Char} (hlow : '!' ≤ c) (hhigh : c ≤ '~') :
    isBlank c = false := by
  have hmin : '!'.toNat ≤ c.toNat := UInt32.le_iff_toNat_le.mp (Char.le_def.mp hlow)
  have hmax : c.toNat ≤ '~'.toNat := UInt32.le_iff_toNat_le.mp (Char.le_def.mp hhigh)
  have h33 : '!'.toNat = 33 := rfl
  have h126 : '~'.toNat = 126 := rfl
  unfold isBlank
  simp
  omega

theorem IsDigit.not_isBlank {c : Char} (h : IsDigit c) : isBlank c = false :=
  not_isBlank_of_visible (Char.le_trans (by decide) h.1) (Char.le_trans h.2 (by decide))

/-! ### Runs at the front -/

/-- The text does not begin with a character of this class. -/
def NotBefore (p : Char → Prop) (cs : List Char) : Prop :=
  ∀ c ∈ cs.head?, ¬ p c

theorem NotBefore.mono {p q : Char → Prop} {cs : List Char} (h : NotBefore q cs)
    (hle : ∀ c, p c → q c) : NotBefore p cs :=
  fun c hc hp => h c hc (hle c hp)

theorem notBefore_nil (p : Char → Prop) : NotBefore p [] := by
  simp [NotBefore]

theorem notBefore_cons {p : Char → Prop} {c : Char} {cs : List Char} (h : ¬ p c) :
    NotBefore p (c :: cs) := by
  rintro d ⟨⟩
  exact h

theorem NotBefore.append {p : Char → Prop} {front rest : List Char} (hrest : NotBefore p rest)
    (hfront : ∀ c ∈ front, ¬ p c) : NotBefore p (front ++ rest) := by
  cases front with
  | nil => exact hrest
  | cons c cs => exact notBefore_cons (hfront c (by simp))

/-- The longest run at the front of a text. -/
theorem exists_run (p : Char → Prop) (cs : List Char) :
    ∃ run rest, cs = run ++ rest ∧ (∀ c ∈ run, p c) ∧ NotBefore p rest := by
  induction cs with
  | nil => exact ⟨[], [], rfl, by simp, notBefore_nil p⟩
  | cons c cs ih =>
      by_cases hc : p c
      · obtain ⟨run, rest, rfl, hrun, hrest⟩ := ih
        exact ⟨c :: run, rest, rfl, List.forall_mem_cons.mpr ⟨hc, hrun⟩, hrest⟩
      · exact ⟨[], c :: cs, rfl, by simp, notBefore_cons hc⟩

theorem dropWhile_append_of_notBefore {p : Char → Bool} {front rest : List Char}
    (hfront : ∀ c ∈ front, p c = true) (hrest : NotBefore (p · = true) rest) :
    (front ++ rest).dropWhile p = rest := by
  induction front with
  | nil =>
      cases rest with
      | nil => rfl
      | cons c cs => exact List.dropWhile_cons_of_neg (hrest c rfl)
  | cons c cs ih =>
      rw [List.cons_append, List.dropWhile_cons_of_pos (hfront c (by simp))]
      exact ih fun d hd => hfront d (by simp [hd])

theorem takeWhile_append_of_notBefore {p : Char → Bool} {front rest : List Char}
    (hfront : ∀ c ∈ front, p c = true) (hrest : NotBefore (p · = true) rest) :
    (front ++ rest).takeWhile p = front := by
  induction front with
  | nil =>
      cases rest with
      | nil => rfl
      | cons c cs => exact List.takeWhile_cons_of_neg (hrest c rfl)
  | cons c cs ih =>
      rw [List.cons_append, List.takeWhile_cons_of_pos (hfront c (by simp)),
        ih fun d hd => hfront d (by simp [hd])]

section Classes

variable {p : Char → Bool} {q : Char → Prop} {front rest : List Char}

/-- A run of a class that the scanner decides is taken whole. -/
theorem takeWhile_append_of_iff (hpq : ∀ c, p c = true ↔ q c) (hfront : ∀ c ∈ front, q c)
    (hrest : NotBefore q rest) : (front ++ rest).takeWhile p = front :=
  takeWhile_append_of_notBefore (fun c hc => (hpq c).mpr (hfront c hc))
    (hrest.mono fun c => (hpq c).mp)

/-- Behind a run of a class that the scanner decides, the rest is left. -/
theorem dropWhile_append_of_iff (hpq : ∀ c, p c = true ↔ q c) (hfront : ∀ c ∈ front, q c)
    (hrest : NotBefore q rest) : (front ++ rest).dropWhile p = rest :=
  dropWhile_append_of_notBefore (fun c hc => (hpq c).mpr (hfront c hc))
    (hrest.mono fun c => (hpq c).mp)

end Classes

/-! ### Trimming -/

/-- What is dropped at the front is a run of the class. -/
theorem exists_trimStart (p : Char → Bool) (cs : List Char) :
    ∃ before, cs = before ++ trimStart p cs ∧ ∀ c ∈ before, p c = true :=
  ⟨cs.takeWhile p, List.takeWhile_append_dropWhile.symm, fun _ hc => List.mem_takeWhile_imp hc⟩

/-- What is dropped at the end is a run of the class. -/
theorem exists_trimEnd (p : Char → Bool) (cs : List Char) :
    ∃ behind, cs = trimEnd p cs ++ behind ∧ ∀ c ∈ behind, p c = true := by
  obtain ⟨before, heq, hbefore⟩ := exists_trimStart p cs.reverse
  refine ⟨before.reverse, ?_, fun c hc => hbefore c (List.mem_reverse.mp hc)⟩
  rw [trimEnd, ← List.reverse_append, ← trimStart, ← heq, List.reverse_reverse]

theorem trimEnd_append (p : Char → Bool) (front rest : List Char) :
    trimEnd p (front ++ rest) =
      if trimEnd p rest = [] then trimEnd p front else front ++ trimEnd p rest := by
  simp only [trimEnd, List.reverse_append, List.dropWhile_append, List.isEmpty_iff,
    List.reverse_eq_nil_iff]
  split <;> simp

/-- A character that is not of the class keeps what is in front of it. -/
theorem trimEnd_append_of_not {p : Char → Bool} {c : Char} (hc : p c = false)
    (front rest : List Char) :
    trimEnd p (front ++ [c] ++ rest) = front ++ [c] ++ trimEnd p rest := by
  rw [trimEnd_append]
  split
  · next hnil =>
      rw [hnil, List.append_nil]
      simp [trimEnd, hc]
  · rfl

theorem trimEnd_eq_nil_iff {p : Char → Bool} {cs : List Char} :
    trimEnd p cs = [] ↔ ∀ c ∈ cs, p c = true := by
  simp [trimEnd]

/-- A run at the end comes off as it was put there. -/
theorem trimEnd_append_of_notBehind {p : Char → Bool} {front behind : List Char}
    (hfront : ∀ c ∈ front.getLast?, p c = false) (hbehind : ∀ c ∈ behind, p c = true) :
    trimEnd p (front ++ behind) = front := by
  have hnil : trimEnd p behind = [] := trimEnd_eq_nil_iff.mpr hbehind
  rcases List.eq_nil_or_concat front with rfl | ⟨front, c, rfl⟩
  · exact hnil
  · rw [List.concat_eq_append] at hfront ⊢
    rw [trimEnd_append_of_not (hfront c (by simp)), hnil, List.append_nil]

/-- A character that is not of the class stops the trimming. -/
theorem trimStart_cons {p : Char → Bool} {c : Char} (hc : p c = false) (cs : List Char) :
    trimStart p (c :: cs) = c :: cs :=
  List.dropWhile_cons_of_neg (by simp [hc])

theorem trimEnd_cons {p : Char → Bool} {c : Char} (hc : p c = false) (cs : List Char) :
    trimEnd p (c :: cs) = c :: trimEnd p cs :=
  trimEnd_append_of_not hc [] cs

theorem trim_cons {c : Char} (hc : isBlank c = false) (cs : List Char) :
    trim (c :: cs) = c :: trimEnd isBlank cs := by
  rw [trim, trimStart_cons hc, trimEnd_cons hc]

/-- Blanks in front are dropped. -/
theorem trim_append {before : List Char} (hbefore : ∀ c ∈ before, isBlank c = true)
    (cs : List Char) : trim (before ++ cs) = trim cs := by
  rw [trim, trimStart, List.dropWhile_append_of_pos hbefore]
  rfl

/-- Nothing is left of blanks. -/
theorem trim_eq_nil {cs : List Char} (hcs : ∀ c ∈ cs, isBlank c = true) : trim cs = [] := by
  rw [← List.append_nil cs, trim_append hcs]
  rfl

theorem isBlank_of_trimStart {c : Char} {cs rest : List Char}
    (h : trimStart isBlank cs = c :: rest) : isBlank c = false := by
  have hhead := List.head?_dropWhile_not isBlank cs
  rw [← trimStart, h] at hhead
  simpa using hhead

/-- Blanks at the end are dropped. -/
theorem trim_append_blanks {behind : List Char} (hbehind : ∀ c ∈ behind, isBlank c = true)
    (cs : List Char) : trim (cs ++ behind) = trim cs := by
  have hnil : trimEnd isBlank behind = [] := trimEnd_eq_nil_iff.mpr hbehind
  obtain ⟨before, heq, hbefore⟩ := exists_trimStart isBlank cs
  rw [heq, List.append_assoc, trim_append hbefore, trim_append hbefore]
  cases hstart : trimStart isBlank cs with
  | nil => exact trim_eq_nil hbehind
  | cons c rest =>
      have hc : isBlank c = false := isBlank_of_trimStart hstart
      rw [List.cons_append, trim_cons hc, trim_cons hc, trimEnd_append, if_pos hnil]

/-- What is dropped at both ends are blanks. -/
theorem exists_trim (cs : List Char) :
    ∃ before behind, cs = before ++ trim cs ++ behind ∧ (∀ c ∈ before, isBlank c = true) ∧
      ∀ c ∈ behind, isBlank c = true := by
  obtain ⟨before, hbefore, hblank⟩ := exists_trimStart isBlank cs
  obtain ⟨behind, hbehind, hblank'⟩ := exists_trimEnd isBlank (trimStart isBlank cs)
  refine ⟨before, behind, ?_, hblank, hblank'⟩
  rw [List.append_assoc, trim, ← hbehind, ← hbefore]

theorem trimStart_trim (cs : List Char) : trimStart isBlank (trim cs) = trim cs := by
  rw [trim]
  cases hstart : trimStart isBlank cs with
  | nil => rfl
  | cons c rest =>
      have hc : isBlank c = false := isBlank_of_trimStart hstart
      rw [trimEnd_cons hc, trimStart_cons hc]

/-- A text that neither begins nor ends with a blank stays as it is. -/
theorem trim_eq_self {text : List Char} (hhead : ∀ c ∈ text.head?, isBlank c = false)
    (hlast : ∀ c ∈ text.getLast?, isBlank c = false) : trim text = text := by
  have hstart : trimStart isBlank text = text := by
    cases text with
    | nil => rfl
    | cons c rest => exact trimStart_cons (hhead c rfl) rest
  calc trim text = trimEnd isBlank (text ++ []) := by rw [trim, hstart, List.append_nil]
    _ = text := trimEnd_append_of_notBehind hlast (by simp)

theorem head?_trim {cs : List Char} : ∀ c ∈ (trim cs).head?, isBlank c = false := by
  intro c hc
  have hhead := List.head?_dropWhile_not isBlank (trim cs)
  rw [← trimStart, trimStart_trim, Option.mem_def.mp hc] at hhead
  simpa using hhead

theorem getLast?_trim {cs : List Char} : ∀ c ∈ (trim cs).getLast?, isBlank c = false := by
  intro c hc
  have hhead := List.head?_dropWhile_not isBlank (trimStart isBlank cs).reverse
  rw [trim, trimEnd, List.getLast?_reverse] at hc
  rw [Option.mem_def.mp hc] at hhead
  simpa using hhead

/-- The text is an item between blanks, and the item neither begins nor ends with a blank. -/
structure IsPadded (item text : List Char) : Prop where
  around : ∃ before behind, text = before ++ item ++ behind ∧
    (∀ c ∈ before, isBlank c = true) ∧ ∀ c ∈ behind, isBlank c = true
  head : ∀ c ∈ item.head?, isBlank c = false
  last : ∀ c ∈ item.getLast?, isBlank c = false

theorem trim_eq_iff {text item : List Char} : trim text = item ↔ IsPadded item text := by
  constructor
  · rintro rfl
    exact ⟨exists_trim text, head?_trim, getLast?_trim⟩
  · rintro ⟨⟨before, behind, rfl, hbefore, hbehind⟩, hhead, hlast⟩
    rw [trim_append_blanks hbehind, trim_append hbefore, trim_eq_self hhead hlast]

/-- An item without blanks is all that is left. -/
theorem trim_of_visible {before item behind : List Char} (hbefore : ∀ c ∈ before, isBlank c = true)
    (hitem : ∀ c ∈ item, isBlank c = false) (hbehind : ∀ c ∈ behind, isBlank c = true) :
    trim (before ++ item ++ behind) = item :=
  trim_eq_iff.mpr ⟨⟨before, behind, rfl, hbefore, hbehind⟩,
    fun c hc => hitem c (List.mem_of_mem_head? hc),
    fun c hc => hitem c (List.mem_of_mem_getLast? hc)⟩

/-! ### Lists at commas -/

/-- The text is these items, each between blanks, with commas between them; an item may be
empty. -/
def IsCommaList (text : String) (items : List String) : Prop :=
  ∃ pieces, pieces ≠ [] ∧ (∀ piece ∈ pieces, ',' ∉ piece) ∧
    text.toList = [','].intercalate pieces ∧
    List.Forall₂ (fun piece item => IsPadded item.toList piece) pieces items

theorem not_mem_of_mem_splitOn {c : Char} {cs piece : List Char} (h : piece ∈ cs.splitOn c) :
    c ∉ piece := by
  induction cs generalizing piece with
  | nil =>
      rw [List.splitOn_nil, List.mem_singleton] at h
      rw [h]
      exact List.not_mem_nil
  | cons d cs ih =>
      rw [List.splitOn_cons_eq_if_modifyHead] at h
      split at h
      · rcases List.mem_cons.mp h with rfl | h
        · exact List.not_mem_nil
        · exact ih h
      · next hd =>
          obtain ⟨first, rest, hsplit⟩ := List.exists_cons_of_ne_nil (List.splitOn_ne_nil c cs)
          rw [hsplit] at ih h
          rcases List.mem_cons.mp h with rfl | h
          · have hne : c ≠ d := fun heq => hd (beq_iff_eq.mpr heq.symm)
            exact List.not_mem_cons_of_ne_of_not_mem hne (ih List.mem_cons_self)
          · exact ih (List.mem_cons_of_mem first h)

/-- A text is cut at its commas, and what is cut is trimmed, into just the items it lists. -/
theorem map_trimmed_commaPieces_eq_iff {text : String} {items : List String} :
    (commaPieces text).map trimmed = items ↔ IsCommaList text items := by
  have hpieces : (commaPieces text).map trimmed =
      (text.toList.splitOn ',').map fun piece => String.ofList (trim piece) := by
    rw [commaPieces, pieces, List.map_map, List.splitOn_eq_splitOnP]
    refine List.map_congr_left fun piece _ => ?_
    rw [Function.comp_apply, trimmed, String.toList_ofList]
  have hitems : ∀ pieces : List (List Char),
      pieces.map (fun piece => String.ofList (trim piece)) = items ↔
        List.Forall₂ (fun piece item => IsPadded item.toList piece) pieces items := by
    intro pieces
    rw [← List.forall₂_eq_eq_eq, List.forall₂_map_left_iff]
    simp only [← String.toList_inj, String.toList_ofList, trim_eq_iff]
  rw [hpieces, hitems]
  constructor
  · intro h
    exact ⟨_, List.splitOn_ne_nil _ _, fun piece => not_mem_of_mem_splitOn,
      (List.intercalate_splitOn ',').symm, h⟩
  · rintro ⟨pieces, hne, hcomma, htext, hall⟩
    rwa [htext, List.splitOn_intercalate ',' hcomma hne]

/-! ### Neighbours -/

theorem infix_of_infix_cons {a b c : Char} {cs : List Char} (h : [a, b] <:+: c :: cs)
    (hne : a ≠ c) : [a, b] <:+: cs := by
  rcases List.infix_cons_iff.mp h with hstart | h
  · exact absurd (List.cons_prefix_cons.mp hstart).1 hne
  · exact h

/-- Neighbours stand in front of a text that does not hold the second of them. -/
theorem infix_of_infix_append {a b : Char} {cs behind : List Char} (h : [a, b] <:+: cs ++ behind)
    (hb : b ∉ behind) : [a, b] <:+: cs := by
  induction behind generalizing cs with
  | nil => simpa using h
  | cons c behind ih =>
      rw [List.mem_cons, not_or] at hb
      rw [List.append_cons] at h
      rcases List.infix_concat_iff.mp (ih h hb.2) with hend | h
      · obtain ⟨front, heq⟩ := hend
        exact absurd (by simpa using congrArg List.getLast? heq) hb.1
      · exact h

theorem isInfix_iff {part whole : List Char} : isInfix part whole = true ↔ part <:+: whole := by
  induction whole with
  | nil => simp [isInfix]
  | cons c cs ih => simp [isInfix, ih, List.infix_cons_iff]

end VulkanRegistry.Text
