/-
The grammar of dependency expressions.

    expr ::= term ("," term)*
    term ::= atom ("+" atom)*
    atom ::= space* name space* | space* "(" expr ")" space*

`Derives` relates a text to the kind of phrase that it is, together with the value that the
phrase has and the names that are asked about for it.  A repetition is a first phrase, or one
with a sign and a repetition behind it.  The relation says nothing of how texts are parsed, and
in particular not where a parser stops: that has to be found out.

What is parsed is always derived (`derives_of_front?`).  Conversely the parser takes all of a
derived text as long as what follows cannot continue it (`front?_of_derives`).  A phrase that
could go on would have to go on with a space, a character of a name or a sign of its own, and
where the grammar has a phrase followed by something, it is none of these.
-/
import VulkanRegistry.Dependency.Expression
import VulkanRegistry.Proofs.Text

namespace VulkanRegistry.Dependency

open Text

/-! ### The grammar -/

/-- The kinds of phrases. -/
inductive Phrase
  | expr
  | term
  | atom

/-- A letter, a digit, an underscore or a colon. -/
def IsNameChar (c : Char) : Prop :=
  ('A' ≤ c ∧ c ≤ 'Z') ∨ ('a' ≤ c ∧ c ≤ 'z') ∨ ('0' ≤ c ∧ c ≤ '9') ∨ c = '_' ∨ c = ':'

/-- White space of ASCII. -/
def IsSpace (c : Char) : Prop :=
  c = ' ' ∨ c = '\t' ∨ c = '\n' ∨ c = '\x0c' ∨ c = '\r'

/-- The text is a phrase of this kind.  Where `active` says which names hold, the phrase has
the value, and it asks about the names in this order. -/
inductive Derives (active : String → Bool) : Phrase → List Char → Bool → List String → Prop
  | term {cs : List Char} {v : Bool} {names : List String} (h : Derives active .term cs v names) :
      Derives active .expr cs v names
  | either {cs ds : List Char} {v w : Bool} {names more : List String}
      (hleft : Derives active .term cs v names) (hright : Derives active .expr ds w more) :
      Derives active .expr (cs ++ ',' :: ds) (v || w) (names ++ more)
  | atom {cs : List Char} {v : Bool} {names : List String} (h : Derives active .atom cs v names) :
      Derives active .term cs v names
  | both {cs ds : List Char} {v w : Bool} {names more : List String}
      (hleft : Derives active .atom cs v names) (hright : Derives active .term ds w more) :
      Derives active .term (cs ++ '+' :: ds) (v && w) (names ++ more)
  | name {before name behind : List Char} (hbefore : ∀ c ∈ before, IsSpace c) (hne : name ≠ [])
      (hname : ∀ c ∈ name, IsNameChar c) (hbehind : ∀ c ∈ behind, IsSpace c) :
      Derives active .atom (before ++ name ++ behind) (active (String.ofList name))
        [String.ofList name]
  | group {before cs behind : List Char} {v : Bool} {names : List String}
      (hbefore : ∀ c ∈ before, IsSpace c) (h : Derives active .expr cs v names)
      (hbehind : ∀ c ∈ behind, IsSpace c) :
      Derives active .atom (before ++ '(' :: cs ++ ')' :: behind) v names

/-! ### Characters -/

theorem inName_iff {c : Char} : inName c = true ↔ IsNameChar c := by
  delta inName Char.isAlphanum Char.isAlpha Char.isUpper Char.isLower Char.isDigit
  simp only [IsNameChar, Bool.or_eq_true, Bool.and_eq_true, decide_eq_true_eq, beq_iff_eq,
    Char.le_def, or_assoc]

theorem isAsciiBlank_iff {c : Char} : isAsciiBlank c = true ↔ IsSpace c := by
  simp [isAsciiBlank, IsSpace, or_assoc]

instance : DecidablePred IsNameChar :=
  fun _ => decidable_of_iff _ inName_iff

instance : DecidablePred IsSpace :=
  fun _ => decidable_of_iff _ isAsciiBlank_iff

theorem IsSpace.not_isNameChar {c : Char} (h : IsSpace c) : ¬ IsNameChar c := by
  rcases h with rfl | rfl | rfl | rfl | rfl <;> decide

theorem skip_append {spaces rest : List Char} (hspaces : ∀ c ∈ spaces, IsSpace c)
    (hrest : NotBefore IsSpace rest) : skip (spaces ++ rest) = rest :=
  dropWhile_append_of_notBefore (fun c hc => isAsciiBlank_iff.mpr (hspaces c hc))
    fun c hc hspace => hrest c hc (isAsciiBlank_iff.mp hspace)

/-- What is skipped are spaces. -/
theorem exists_skip (cs : List Char) :
    ∃ spaces, cs = spaces ++ skip cs ∧ ∀ c ∈ spaces, IsSpace c := by
  refine ⟨cs.takeWhile isAsciiBlank, (List.takeWhile_append_dropWhile).symm, ?_⟩
  intro c hc
  exact isAsciiBlank_iff.mp (List.mem_takeWhile_imp hc)

theorem afterSign?_eq_some {sign : Char} {cs rest : List Char} :
    afterSign? sign cs = some rest ↔ cs = sign :: rest := by
  cases cs with
  | nil => simp [afterSign?]
  | cons c cs => simp [afterSign?, eq_comm]

theorem afterSign?_eq_none {sign : Char} {cs : List Char} :
    afterSign? sign cs = none ↔ NotBefore (· = sign) cs := by
  cases cs with
  | nil => simp [afterSign?, NotBefore]
  | cons c cs => simp [afterSign?, NotBefore]

/-! ### What the parser takes -/

/-- What was parsed and what is behind it, if anything was. -/
def found? {cs : List Char} : Except Fault (Parsed cs) → Option (Expr × List Char)
  | .error _ => none
  | .ok found => some (found.expr, found.rest)

@[simp] theorem found?_ok {cs : List Char} (found : Parsed cs) :
    found? (.ok found) = some (found.expr, found.rest) := rfl

@[simp] theorem found?_error {cs : List Char} (fault : Fault) :
    found? (.error fault : Except Fault (Parsed cs)) = none := rfl

theorem length_of_found? {cs rest : List Char} {e : Expr} {parsed : Except Fault (Parsed cs)}
    (h : found? parsed = some (e, rest)) : rest.length < cs.length := by
  cases parsed with
  | error fault => simp at h
  | ok found =>
      cases h
      exact found.shorter

/-- What a phrase of this kind becomes at the front of a text, and what is behind it. -/
def front? : Phrase → List Char → Option (Expr × List Char)
  | .expr, cs => found? (parseAny cs)
  | .term, cs => found? (parseAll cs)
  | .atom, cs => found? (parseAtom cs)

/-- Every phrase takes something. -/
theorem length_of_front? {phrase : Phrase} {cs rest : List Char} {e : Expr}
    (h : front? phrase cs = some (e, rest)) : rest.length < cs.length := by
  cases phrase <;> exact length_of_found? h

/-- A phrase, and behind a sign one more, joined to it. -/
def separated (sign : Char) (join : Expr → Expr → Expr) (first : Option (Expr × List Char))
    (more : List Char → Option (Expr × List Char)) : Option (Expr × List Char) :=
  first.bind fun (left, rest) =>
    match afterSign? sign rest with
    | none => some (left, rest)
    | some behind => (more behind).map fun (right, rest) => (join left right, rest)

theorem separated_eq_some {sign : Char} {join : Expr → Expr → Expr}
    {first : Option (Expr × List Char)} {more : List Char → Option (Expr × List Char)} {e : Expr}
    {rest : List Char} :
    separated sign join first more = some (e, rest) ↔
      first = some (e, rest) ∧ NotBefore (· = sign) rest ∨
        ∃ left right behind, first = some (left, sign :: behind) ∧
          more behind = some (right, rest) ∧ e = join left right := by
  rcases first with _ | ⟨left, behind⟩
  · simp [separated]
  · simp only [separated, Option.bind_some]
    split
    · next hsign =>
        constructor
        · rintro ⟨⟩
          exact .inl ⟨rfl, afterSign?_eq_none.mp hsign⟩
        · rintro (⟨hfirst, -⟩ | ⟨left', right, inner, hfirst, -⟩)
          · exact hfirst
          · obtain ⟨-, rfl⟩ := Prod.mk.inj (Option.some.inj hfirst)
            simp [afterSign?] at hsign
    · next inner hsign =>
        obtain rfl := afterSign?_eq_some.mp hsign
        constructor
        · intro h
          obtain ⟨⟨right, rest'⟩, hmore, heq⟩ := Option.map_eq_some_iff.mp h
          obtain ⟨rfl, rfl⟩ := Prod.mk.inj heq
          exact .inr ⟨left, right, inner, rfl, hmore, rfl⟩
        · rintro (⟨hfirst, hnot⟩ | ⟨left', right, inner', hfirst, hmore, rfl⟩)
          · obtain ⟨-, rfl⟩ := Prod.mk.inj (Option.some.inj hfirst)
            exact absurd rfl (hnot sign rfl)
          · cases hfirst
            rw [hmore]
            rfl

theorem front?_expr (cs : List Char) :
    front? .expr cs = separated ',' .any (front? .term cs) (front? .expr) := by
  simp only [front?]
  rw [parseAny.eq_def cs]
  cases parseAll cs with
  | error fault => rfl
  | ok left =>
      simp only [separated, found?_ok, Option.bind_some]
      split
      · next hsign => simp only [hsign, found?_ok]
      · next behind hsign =>
          simp only [hsign, front?]
          cases parseAny behind <;> rfl

theorem front?_term (cs : List Char) :
    front? .term cs = separated '+' .all (front? .atom cs) (front? .term) := by
  simp only [front?]
  rw [parseAll.eq_def cs]
  cases parseAtom cs with
  | error fault => rfl
  | ok left =>
      simp only [separated, found?_ok, Option.bind_some]
      split
      · next hsign => simp only [hsign, found?_ok]
      · next behind hsign =>
          simp only [hsign, front?]
          cases parseAll behind <;> rfl

/-- What a name becomes at the front of a text. -/
def nameFront? (cs : List Char) : Option (Expr × List Char) :=
  found? (parseName cs)

theorem nameFront?_eq_some {cs rest : List Char} {e : Expr} :
    nameFront? cs = some (e, rest) ↔
      cs.takeWhile inName ≠ [] ∧ e = .name (String.ofList (cs.takeWhile inName)) ∧
        rest = skip (cs.dropWhile inName) := by
  cases cs with
  | nil => simp [nameFront?, parseName]
  | cons c behind =>
      by_cases hc : inName c = true
      · simp only [nameFront?, parseName, hc, if_true, found?_ok, Option.some.injEq, Prod.mk.injEq,
          List.takeWhile_cons_of_pos, List.dropWhile_cons_of_pos, ne_eq, reduceCtorEq,
          not_false_eq_true, true_and]
        rw [eq_comm, @eq_comm _ _ rest]
      · simp [nameFront?, parseName, hc]

/-- A group at the front of a text is closed behind an expression. -/
def groupFront? (inner : List Char) : Option (Expr × List Char) :=
  (front? .expr inner).bind fun (e, rest) =>
    (afterSign? ')' rest).map fun behind => (e, skip behind)

theorem groupFront?_eq_some {inner rest : List Char} {e : Expr} :
    groupFront? inner = some (e, rest) ↔
      ∃ behind, front? .expr inner = some (e, ')' :: behind) ∧ rest = skip behind := by
  constructor
  · intro h
    obtain ⟨⟨e', rest'⟩, hinner, hmap⟩ := Option.bind_eq_some_iff.mp h
    obtain ⟨behind, hclose, heq⟩ := Option.map_eq_some_iff.mp hmap
    obtain ⟨rfl, rfl⟩ := Prod.mk.inj heq
    obtain rfl := afterSign?_eq_some.mp hclose
    exact ⟨behind, hinner, rfl⟩
  · rintro ⟨behind, hinner, rfl⟩
    simp [groupFront?, hinner, afterSign?]

theorem front?_atom (cs : List Char) :
    front? .atom cs =
      match afterSign? '(' (skip cs) with
      | none => nameFront? (skip cs)
      | some inner => groupFront? inner := by
  simp only [front?]
  rw [parseAtom.eq_def cs]
  split
  · next hopen =>
      simp only [hopen, nameFront?]
      cases parseName (skip cs) <;> rfl
  · next inner hopen =>
      simp only [hopen, groupFront?, front?]
      cases parseAny inner with
      | error fault => rfl
      | ok found =>
          simp only [found?_ok, Option.bind_some]
          split
          · next hclose => simp only [hclose, found?_error, Option.map_none]
          · next behind hclose => simp only [hclose, found?_ok, Option.map_some]

/-! ### What is parsed is derived -/

theorem derives_of_nameFront? (active : String → Bool) {cs rest : List Char} {e : Expr}
    (h : nameFront? cs = some (e, rest)) :
    ∃ used, cs = used ++ rest ∧ Derives active .atom used (e.eval active) e.mentions := by
  obtain ⟨hne, rfl, rfl⟩ := nameFront?_eq_some.mp h
  obtain ⟨spaces, hsplit, hspaces⟩ := exists_skip (cs.dropWhile inName)
  refine ⟨[] ++ cs.takeWhile inName ++ spaces, ?_, .name (by simp) hne ?_ hspaces⟩
  · calc
      cs = cs.takeWhile inName ++ cs.dropWhile inName := List.takeWhile_append_dropWhile.symm
      _ = cs.takeWhile inName ++ (spaces ++ skip (cs.dropWhile inName)) := by rw [← hsplit]
      _ = _ := by simp
  · intro c hc
    exact inName_iff.mp (List.mem_takeWhile_imp hc)

/-- Spaces may stand in front of what stands alone. -/
theorem Derives.spaced {active : String → Bool} {cs spaces : List Char} {v : Bool}
    {names : List String} (h : Derives active .atom cs v names)
    (hspaces : ∀ c ∈ spaces, IsSpace c) : Derives active .atom (spaces ++ cs) v names := by
  have hall {before : List Char} (hbefore : ∀ c ∈ before, IsSpace c) :
      ∀ c ∈ spaces ++ before, IsSpace c := by
    intro c hc
    rcases List.mem_append.mp hc with hc | hc
    · exact hspaces c hc
    · exact hbefore c hc
  cases h with
  | name hbefore hne hname hbehind =>
      rw [← List.append_assoc, ← List.append_assoc]
      exact .name (hall hbefore) hne hname hbehind
  | group hbefore hinner hbehind =>
      rw [← List.append_assoc, ← List.append_assoc]
      exact .group (hall hbefore) hinner hbehind

/-- The order in which the kinds of phrases ask for each other on the same text. -/
def Phrase.rank : Phrase → Nat
  | .atom => 0
  | .term => 1
  | .expr => 2

/-- What is parsed at the front of a text is a phrase there, with its value and its names. -/
theorem derives_of_front? (active : String → Bool) {phrase : Phrase} {cs rest : List Char}
    {e : Expr} (h : front? phrase cs = some (e, rest)) :
    ∃ used, cs = used ++ rest ∧ Derives active phrase used (e.eval active) e.mentions := by
  match phrase with
  | .expr =>
      rw [front?_expr] at h
      rcases separated_eq_some.mp h with ⟨hfirst, -⟩ | ⟨left, right, behind, hfirst, hmore, rfl⟩
      · obtain ⟨used, hused, hderives⟩ := derives_of_front? active hfirst
        exact ⟨used, hused, .term hderives⟩
      · have hshorter : behind.length + 1 < cs.length := length_of_front? hfirst
        obtain ⟨used, hused, hderives⟩ := derives_of_front? active hfirst
        obtain ⟨more, rfl, hright⟩ := derives_of_front? active hmore
        exact ⟨used ++ ',' :: more, by simp [hused], .either hderives hright⟩
  | .term =>
      rw [front?_term] at h
      rcases separated_eq_some.mp h with ⟨hfirst, -⟩ | ⟨left, right, behind, hfirst, hmore, rfl⟩
      · obtain ⟨used, hused, hderives⟩ := derives_of_front? active hfirst
        exact ⟨used, hused, .atom hderives⟩
      · have hshorter : behind.length + 1 < cs.length := length_of_front? hfirst
        obtain ⟨used, hused, hderives⟩ := derives_of_front? active hfirst
        obtain ⟨more, rfl, hright⟩ := derives_of_front? active hmore
        exact ⟨used ++ '+' :: more, by simp [hused], .both hderives hright⟩
  | .atom =>
      rw [front?_atom] at h
      obtain ⟨spaces, hsplit, hspaces⟩ := exists_skip cs
      split at h
      · obtain ⟨used, hused, hderives⟩ := derives_of_nameFront? active h
        exact ⟨spaces ++ used, by rw [hsplit, hused, List.append_assoc], hderives.spaced hspaces⟩
      · next inner hopen =>
          obtain ⟨behind, hinner, rfl⟩ := groupFront?_eq_some.mp h
          have hbody := afterSign?_eq_some.mp hopen
          have hshorter := length_of_afterSign? hopen
          have hle := length_skip_le cs
          obtain ⟨used, hused, hderives⟩ := derives_of_front? active hinner
          obtain ⟨after, hafter, hblank⟩ := exists_skip behind
          refine ⟨spaces ++ '(' :: used ++ ')' :: after, ?_, .group hspaces hderives hblank⟩
          rw [hsplit, hbody, hused]
          simp [← hafter]
termination_by 3 * cs.length + phrase.rank
decreasing_by all_goals simp only [Phrase.rank]; omega

/-! ### What is derived is parsed -/

/-- A character that a phrase of this kind can go on with. -/
def Phrase.Continues : Phrase → Char → Prop
  | .atom, c => IsSpace c ∨ IsNameChar c
  | .term, c => (IsSpace c ∨ IsNameChar c) ∨ c = '+'
  | .expr, c => ((IsSpace c ∨ IsNameChar c) ∨ c = '+') ∨ c = ','

instance (phrase : Phrase) : DecidablePred phrase.Continues :=
  match phrase with
  | .atom => fun _ => inferInstanceAs (Decidable (_ ∨ _))
  | .term => fun _ => inferInstanceAs (Decidable (_ ∨ _))
  | .expr => fun _ => inferInstanceAs (Decidable (_ ∨ _))

theorem nameFront?_append {name behind rest : List Char} (hne : name ≠ [])
    (hname : ∀ c ∈ name, IsNameChar c) (hbehind : ∀ c ∈ behind, IsSpace c)
    (hrest : NotBefore (Phrase.Continues .atom) rest) :
    nameFront? (name ++ (behind ++ rest)) = some (.name (String.ofList name), rest) := by
  have hall : ∀ c ∈ name, inName c = true := fun c hc => inName_iff.mpr (hname c hc)
  have hstop : NotBefore (inName · = true) (behind ++ rest) := by
    refine .append (hrest.mono fun c hc => .inr (inName_iff.mp hc)) ?_
    intro c hc
    rw [inName_iff]
    exact (hbehind c hc).not_isNameChar
  rw [nameFront?_eq_some, takeWhile_append_of_notBefore hall hstop,
    dropWhile_append_of_notBefore hall hstop,
    skip_append hbehind (hrest.mono fun c hc => .inl hc)]
  exact ⟨hne, rfl, rfl⟩

/-- All of a phrase is parsed where what is behind it cannot continue it. -/
theorem front?_of_derives {active : String → Bool} {phrase : Phrase} {cs : List Char} {v : Bool}
    {names : List String} (h : Derives active phrase cs v names) {rest : List Char}
    (hrest : NotBefore phrase.Continues rest) :
    ∃ e, front? phrase (cs ++ rest) = some (e, rest) ∧ e.eval active = v ∧ e.mentions = names := by
  induction h generalizing rest with
  | term _ ih =>
      obtain ⟨e, he, hv, hnames⟩ := ih (hrest.mono fun c hc => .inl hc)
      refine ⟨e, ?_, hv, hnames⟩
      rw [front?_expr, separated_eq_some]
      exact .inl ⟨he, hrest.mono fun c hc => .inr hc⟩
  | @either cs ds v w names more _ _ ihleft ihright =>
      have hsign : NotBefore (Phrase.Continues .term) (',' :: (ds ++ rest)) :=
        notBefore_cons (by decide)
      obtain ⟨left, hleft, rfl, rfl⟩ := ihleft hsign
      obtain ⟨right, hright, rfl, rfl⟩ := ihright hrest
      refine ⟨.any left right, ?_, rfl, rfl⟩
      rw [front?_expr, separated_eq_some, List.append_assoc, List.cons_append]
      exact .inr ⟨left, right, ds ++ rest, hleft, hright, rfl⟩
  | atom _ ih =>
      obtain ⟨e, he, hv, hnames⟩ := ih (hrest.mono fun c hc => .inl hc)
      refine ⟨e, ?_, hv, hnames⟩
      rw [front?_term, separated_eq_some]
      exact .inl ⟨he, hrest.mono fun c hc => .inr hc⟩
  | @both cs ds v w names more _ _ ihleft ihright =>
      have hsign : NotBefore (Phrase.Continues .atom) ('+' :: (ds ++ rest)) :=
        notBefore_cons (by decide)
      obtain ⟨left, hleft, rfl, rfl⟩ := ihleft hsign
      obtain ⟨right, hright, rfl, rfl⟩ := ihright hrest
      refine ⟨.all left right, ?_, rfl, rfl⟩
      rw [front?_term, separated_eq_some, List.append_assoc, List.cons_append]
      exact .inr ⟨left, right, ds ++ rest, hleft, hright, rfl⟩
  | @name before name behind hbefore hne hname hbehind =>
      obtain ⟨c, name', rfl⟩ := List.exists_cons_of_ne_nil hne
      have hc : IsNameChar c := hname c (by simp)
      have hopen : c ≠ '(' := by
        rintro rfl
        exact absurd hc (by decide)
      have hskip : skip (before ++ (c :: name' ++ (behind ++ rest))) =
          c :: name' ++ (behind ++ rest) :=
        skip_append hbefore (notBefore_cons fun hspace => hspace.not_isNameChar hc)
      refine ⟨.name (String.ofList (c :: name')), ?_, rfl, rfl⟩
      rw [List.append_assoc, List.append_assoc, front?_atom, hskip, List.cons_append,
        afterSign?_eq_none.mpr (notBefore_cons hopen)]
      exact nameFront?_append hne hname hbehind hrest
  | @group before cs behind v names hbefore _ hbehind ih =>
      have hclose : NotBefore (Phrase.Continues .expr) (')' :: (behind ++ rest)) :=
        notBefore_cons (by decide)
      obtain ⟨e, he, hv, hnames⟩ := ih hclose
      have hskip : skip (before ++ '(' :: (cs ++ ')' :: (behind ++ rest))) =
          '(' :: (cs ++ ')' :: (behind ++ rest)) :=
        skip_append hbefore (notBefore_cons (by decide))
      refine ⟨e, ?_, hv, hnames⟩
      have htext : before ++ '(' :: cs ++ ')' :: behind ++ rest =
          before ++ '(' :: (cs ++ ')' :: (behind ++ rest)) := by simp
      rw [htext, front?_atom, hskip, afterSign?_eq_some.mpr rfl]
      refine groupFront?_eq_some.mpr ⟨behind ++ rest, he, ?_⟩
      exact (skip_append hbehind (hrest.mono fun c hc => .inl hc)).symm

/-! ### Whole texts -/

theorem parse_eq_ok {text : String} {e : Expr} :
    parse text = .ok e ↔ front? .expr text.toList = some (e, []) := by
  simp only [parse, parseChars, front?]
  cases parseAny text.toList with
  | error fault => simp
  | ok found =>
      by_cases hrest : found.rest = []
      · simp [hrest]
      · simp [hrest]

/-- What does not parse is malformed, and the error tells where. -/
theorem parse_ok_or_malformed (text : String) :
    (∃ e, parse text = .ok e) ∨ ∃ (cause : Cause) (offset : Nat), parse text = .error (.malformed 0
      s!"dependency expression `{text}`: {cause.message} at offset {offset}") := by
  unfold parse
  cases parseChars text.toList with
  | ok e => exact .inl ⟨e, rfl⟩
  | error fault => exact .inr ⟨fault.cause, _, rfl⟩

/-- The texts that parse are those that are derived, and what they are parsed to has the value
and asks about the names. -/
theorem derives_iff_parse {active : String → Bool} {text : String} {v : Bool}
    {names : List String} :
    Derives active .expr text.toList v names ↔
      ∃ e, parse text = .ok e ∧ e.eval active = v ∧ e.mentions = names := by
  constructor
  · intro h
    obtain ⟨e, hfront, hv, hnames⟩ := front?_of_derives h (notBefore_nil _)
    rw [List.append_nil] at hfront
    exact ⟨e, parse_eq_ok.mpr hfront, hv, hnames⟩
  · rintro ⟨e, hparse, rfl, rfl⟩
    obtain ⟨used, hused, hderives⟩ := derives_of_front? active (parse_eq_ok.mp hparse)
    rw [hused, List.append_nil]
    exact hderives

/-- Answers like `active` and notes down what it is asked. -/
def noting (active : String → Bool) (name : String) : StateM (List String) Bool := do
  modify (· ++ [name])
  return active name

/-- All names are asked about from left to right, whatever the answers are. -/
theorem run_evalM_noting (active : String → Bool) (e : Expr) (asked : List String) :
    (e.evalM (noting active)).run asked = pure (e.eval active, asked ++ e.mentions) := by
  induction e generalizing asked with
  | name n => rfl
  | all left right ihleft ihright =>
      simp [Expr.evalM, ihleft, ihright, Expr.mentions]
  | any left right ihleft ihright =>
      simp [Expr.evalM, ihleft, ihright, Expr.mentions]

theorem run_evaluateM_noting (active : String → Bool) (text : String) :
    Id.run ((evaluateM text (noting active)).run []) =
      match parse text with
      | .ok e => (.ok (e.eval active), e.mentions)
      | .error fault => (.error fault, []) := by
  unfold evaluateM
  cases parse text with
  | error fault => rfl
  | ok e => simp [run_evalM_noting]

/-- An expression is evaluated, with its names asked about in this order, as the grammar derives
it; and if it does not derive a text, that is an error. -/
theorem evaluate_grammar (text : String) (active : String → Bool) :
    (∀ v asked, Id.run ((evaluateM text (noting active)).run []) = (.ok v, asked) ↔
      Derives active .expr text.toList v asked) ∧
    (∀ v, evaluate text active = .ok v ↔ ∃ asked, Derives active .expr text.toList v asked) ∧
    ((¬ ∃ v asked, Derives active .expr text.toList v asked) ↔
      ∃ (cause : Cause) (offset : Nat), evaluate text active =
        .error (.malformed 0
          s!"dependency expression `{text}`: {cause.message} at offset {offset}")) := by
  simp only [derives_iff_parse, run_evaluateM_noting, evaluate_eq_map]
  rcases parse_ok_or_malformed text with ⟨e, he⟩ | ⟨cause, offset, hfault⟩
  · simp [he, Except.map]
  · simp only [hfault, Except.map]
    refine ⟨by simp, by simp, fun _ => ⟨cause, offset, rfl⟩, by simp⟩

end VulkanRegistry.Dependency
