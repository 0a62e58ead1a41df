/-
How a length expression is cut.

`Scans` relates an expression to its parts from left to right: references, numbers with what
follows them, and single other characters.  A part is as long as it can be, and the relation
says so of what stands behind it: an identifier is not followed by a further character of an
identifier, a path not by a sign with an identifier behind it, and a number not by a letter, a
digit or a dot.  It does not say how the end of a part is found.

Every expression has parts (`exists_scans`), and it is cut along them (`cut_of_scans`), except
that numbers and other characters side by side are one text.  As nothing is lost between the
parts (`spelling_of_scans`), nothing is lost in the cut.
-/
import VulkanRegistry.Member.LengthReading
import VulkanRegistry.Proofs.Text

namespace VulkanRegistry.LengthExpr

open Text

/-! ### Parts of an expression -/

def IsLetter (c : Char) : Prop :=
  ('A' ≤ c ∧ c ≤ 'Z') ∨ ('a' ≤ c ∧ c ≤ 'z')

/-- A character that an identifier may begin with. -/
def IsInitial (c : Char) : Prop :=
  IsLetter c ∨ c = '_'

def IsIdentifierChar (c : Char) : Prop :=
  IsLetter c ∨ IsDigit c ∨ c = '_'

/-- A character that may stand in a number or in what is attached to it. -/
def IsNumberChar (c : Char) : Prop :=
  IsLetter c ∨ IsDigit c ∨ c = '.'

/-- A letter or an underscore, and behind it letters, digits and underscores. -/
def IsIdentifier (name : List Char) : Prop :=
  ∃ (c : Char) (cs : List Char),
    name = c :: cs ∧ IsInitial c ∧ ∀ d ∈ cs, IsIdentifierChar d

/-- The steps of a path as they are written. -/
def stepsSpelling (steps : List (PathStep × String)) : List Char :=
  steps.flatMap fun step => step.1.sign.toList ++ step.2.toList

/-- All names of the path are identifiers. -/
structure IsPath (path : FieldPath) : Prop where
  head : IsIdentifier path.head.toList
  steps : ∀ step ∈ path.steps, IsIdentifier step.2.toList

/-- The text begins with a further step of a path. -/
def BeginsWithStep (cs : List Char) : Prop :=
  ∃ (step : PathStep) (c : Char) (behind : List Char),
    IsInitial c ∧ cs = step.sign.toList ++ c :: behind

/-- A part of an expression. -/
inductive Lexeme
  | reference (path : FieldPath)
  | number (run : List Char)
  | other (c : Char)

/-- The text of a part. -/
def Lexeme.spelling : Lexeme → List Char
  | .reference path => path.toString.toList
  | .number run => run
  | .other c => [c]

/-- The path of a part that is a reference. -/
def Lexeme.path? : Lexeme → Option FieldPath
  | .reference path => some path
  | _ => none

/-- The references among the parts, in order. -/
def references (lexemes : List Lexeme) : List FieldPath :=
  lexemes.filterMap Lexeme.path?

/-- The text consists of these parts, each of them as long as it can be. -/
inductive Scans : List Char → List Lexeme → Prop
  | nil : Scans [] []
  | reference {path : FieldPath} {rest : List Char} {lexemes : List Lexeme} (hpath : IsPath path)
      (hname : NotBefore IsIdentifierChar rest) (hstep : ¬ BeginsWithStep rest)
      (h : Scans rest lexemes) : Scans (path.toString.toList ++ rest) (.reference path :: lexemes)
  | number {c : Char} {run rest : List Char} {lexemes : List Lexeme} (hc : IsDigit c)
      (hrun : ∀ d ∈ run, IsNumberChar d) (hend : NotBefore IsNumberChar rest)
      (h : Scans rest lexemes) : Scans (c :: run ++ rest) (.number (c :: run) :: lexemes)
  | other {c : Char} {rest : List Char} {lexemes : List Lexeme} (hinitial : ¬ IsInitial c)
      (hdigit : ¬ IsDigit c) (h : Scans rest lexemes) : Scans (c :: rest) (.other c :: lexemes)

/-- Nothing is lost between the parts. -/
theorem spelling_of_scans {cs : List Char} {lexemes : List Lexeme} (h : Scans cs lexemes) :
    lexemes.flatMap Lexeme.spelling = cs := by
  induction h with
  | nil => rfl
  | reference _ _ _ _ ih => rw [List.flatMap_cons, ih]; rfl
  | number _ _ _ _ ih => rw [List.flatMap_cons, ih]; rfl
  | other _ _ _ ih => rw [List.flatMap_cons, ih]; rfl

/-- References consist of identifiers. -/
theorem isPath_of_scans {cs : List Char} {lexemes : List Lexeme} (h : Scans cs lexemes) :
    ∀ path ∈ references lexemes, IsPath path := by
  induction h with
  | nil => exact List.forall_mem_nil _
  | reference hpath _ _ _ ih => exact List.forall_mem_cons.mpr ⟨hpath, ih⟩
  | number _ _ _ _ ih => exact ih
  | other _ _ _ ih => exact ih

/-- An identifier is the whole of an expression that it is written as. -/
theorem scans_identifier {name : String} (h : IsIdentifier name.toList) :
    Scans name.toList [.reference ⟨name, []⟩] := by
  have hscans : Scans ((⟨name, []⟩ : FieldPath).toString.toList ++ []) [.reference ⟨name, []⟩] :=
    .reference ⟨h, by simp⟩ (notBefore_nil _) (by simp [BeginsWithStep]) .nil
  simpa [FieldPath.toString] using hscans

/-! ### Characters -/

theorem startsIdentifier_iff {c : Char} : startsIdentifier c = true ↔ IsInitial c := by
  delta startsIdentifier Char.isAlpha Char.isUpper Char.isLower
  simp only [IsInitial, IsLetter, Bool.or_eq_true, Bool.and_eq_true, decide_eq_true_eq, beq_iff_eq,
    Char.le_def, ge_iff_le]

theorem isAlphanum_iff {c : Char} : c.isAlphanum = true ↔ IsLetter c ∨ IsDigit c := by
  rw [Char.isAlphanum, Bool.or_eq_true, isDigit_iff]
  delta Char.isAlpha Char.isUpper Char.isLower
  simp only [IsLetter, Bool.or_eq_true, Bool.and_eq_true, decide_eq_true_eq, Char.le_def, ge_iff_le]

theorem inIdentifier_iff {c : Char} : inIdentifier c = true ↔ IsIdentifierChar c := by
  rw [inIdentifier, Bool.or_eq_true, isAlphanum_iff, beq_iff_eq, IsIdentifierChar, or_assoc]

theorem inNumber_iff {c : Char} : inNumber c = true ↔ IsNumberChar c := by
  rw [inNumber, Bool.or_eq_true, isAlphanum_iff, beq_iff_eq, IsNumberChar, or_assoc]

theorem IsInitial.isIdentifierChar {c : Char} (h : IsInitial c) : IsIdentifierChar c := by
  rcases h with hletter | hunderscore
  · exact .inl hletter
  · exact .inr (.inr hunderscore)

theorem IsInitial.not_isDigit {c : Char} (h : IsInitial c) : ¬ IsDigit c := by
  intro hdigit
  simp only [IsInitial, IsLetter, IsDigit, Char.le_def, UInt32.le_iff_toNat_le] at *
  rcases h with (⟨hge, -⟩ | ⟨hge, -⟩) | rfl
  · exact absurd (Nat.le_trans hge hdigit.2) (by decide)
  · exact absurd (Nat.le_trans hge hdigit.2) (by decide)
  · exact absurd hdigit.2 (by decide)

/-! ### Identifiers and paths -/

theorem IsIdentifier.forall_isIdentifierChar {name : List Char} (h : IsIdentifier name) :
    ∀ d ∈ name, IsIdentifierChar d := by
  obtain ⟨c, cs, rfl, hc, hcs⟩ := h
  exact List.forall_mem_cons.mpr ⟨hc.isIdentifierChar, hcs⟩

/-- What begins like an identifier begins with one that cannot be made longer. -/
theorem exists_identifier {c : Char} (hc : IsInitial c) (cs : List Char) :
    ∃ name rest, c :: cs = name ++ rest ∧ IsIdentifier name ∧ NotBefore IsIdentifierChar rest := by
  obtain ⟨run, rest, rfl, hrun, hrest⟩ := exists_run IsIdentifierChar cs
  exact ⟨c :: run, rest, rfl, ⟨c, run, rfl, hc, hrun⟩, hrest⟩

theorem takeWhile_inIdentifier {run rest : List Char} (hrun : ∀ d ∈ run, IsIdentifierChar d)
    (hrest : NotBefore IsIdentifierChar rest) : (run ++ rest).takeWhile inIdentifier = run :=
  takeWhile_append_of_iff (fun _ => inIdentifier_iff) hrun hrest

theorem dropWhile_inIdentifier {run rest : List Char} (hrun : ∀ d ∈ run, IsIdentifierChar d)
    (hrest : NotBefore IsIdentifierChar rest) : (run ++ rest).dropWhile inIdentifier = rest :=
  dropWhile_append_of_iff (fun _ => inIdentifier_iff) hrun hrest

theorem stepsSpelling_cons (step : PathStep) (name : String) (steps : List (PathStep × String)) :
    stepsSpelling ((step, name) :: steps) =
      step.sign.toList ++ (name.toList ++ stepsSpelling steps) := by
  simp [stepsSpelling]

theorem toList_toString (path : FieldPath) :
    path.toString.toList = path.head.toList ++ stepsSpelling path.steps := by
  simp [FieldPath.toString, stepsSpelling, List.flatMap, Function.comp_def]

/-- A sign does not continue an identifier. -/
theorem exists_sign (step : PathStep) :
    ∃ c cs, step.sign.toList = c :: cs ∧ ¬ IsIdentifierChar c := by
  simp only [← inIdentifier_iff]
  cases step with
  | pointee => exact ⟨'-', ['>'], by decide⟩
  | element => exact ⟨'[', [']', '.'], by decide⟩

theorem notBefore_stepsSpelling {rest : List Char} (hrest : NotBefore IsIdentifierChar rest)
    (steps : List (PathStep × String)) :
    NotBefore IsIdentifierChar (stepsSpelling steps ++ rest) := by
  cases steps with
  | nil => exact hrest
  | cons first steps =>
      obtain ⟨step, name⟩ := first
      obtain ⟨c, cs, hsign, hc⟩ := exists_sign step
      rw [stepsSpelling_cons, hsign]
      exact notBefore_cons hc

theorem pathStep?_eq_some_iff {cs named : List Char} {step : PathStep} :
    pathStep? cs = some (step, named) ↔
      ∃ c behind, named = c :: behind ∧ IsInitial c ∧ cs = step.sign.toList ++ named := by
  constructor
  · intro h
    unfold pathStep? at h
    split at h
    · split at h
      · next c behind hc =>
          cases h
          exact ⟨c, behind, rfl, startsIdentifier_iff.mp hc, rfl⟩
      · cases h
    · split at h
      · next c behind hc =>
          cases h
          exact ⟨c, behind, rfl, startsIdentifier_iff.mp hc, rfl⟩
      · cases h
    · cases h
  · intro h
    obtain ⟨c, behind, rfl, hc, rfl⟩ := h
    cases step <;> simp [pathStep?, PathStep.sign, startsIdentifier_iff.mpr hc]

theorem pathStep?_eq_none_iff {cs : List Char} : pathStep? cs = none ↔ ¬ BeginsWithStep cs := by
  constructor
  · intro hnone hstep
    obtain ⟨step, c, behind, hc, rfl⟩ := hstep
    rw [pathStep?_eq_some_iff.mpr ⟨c, behind, rfl, hc, rfl⟩] at hnone
    cases hnone
  · intro hnot
    refine Option.eq_none_iff_forall_ne_some.mpr fun found hfound => ?_
    obtain ⟨step, named⟩ := found
    obtain ⟨c, behind, rfl, hc, heq⟩ := pathStep?_eq_some_iff.mp hfound
    exact hnot ⟨step, c, behind, hc, heq⟩

theorem pathSteps_of_none {cs : List Char} (h : pathStep? cs = none) : pathSteps cs = ([], cs) := by
  rw [pathSteps.eq_def]
  split
  · rfl
  · next hsome =>
      rw [h] at hsome
      cases hsome

theorem pathSteps_of_some {cs named : List Char} {step : PathStep}
    (h : pathStep? cs = some (step, named)) :
    pathSteps cs =
      ((step, String.ofList (named.takeWhile inIdentifier)) ::
        (pathSteps (named.dropWhile inIdentifier)).1, (pathSteps (named.dropWhile inIdentifier)).2) := by
  rw [pathSteps.eq_def]
  split
  · next hnone =>
      rw [h] at hnone
      cases hnone
  · next hsome =>
      rw [h] at hsome
      cases hsome
      rfl

/-- Steps come off the front of a text if the text behind them does not go on with one. -/
theorem pathSteps_append {steps : List (PathStep × String)} {rest : List Char}
    (hsteps : ∀ step ∈ steps, IsIdentifier step.2.toList)
    (hname : NotBefore IsIdentifierChar rest) (hstep : ¬ BeginsWithStep rest) :
    pathSteps (stepsSpelling steps ++ rest) = (steps, rest) := by
  induction steps with
  | nil =>
      exact pathSteps_of_none (pathStep?_eq_none_iff.mpr hstep)
  | cons first steps ih =>
      obtain ⟨step, name⟩ := first
      have hfirst : IsIdentifier name.toList := hsteps (step, name) (by simp)
      have hchars := hfirst.forall_isIdentifierChar
      have hbehind := notBefore_stepsSpelling hname steps
      obtain ⟨c, cs, hcons, hc, -⟩ := hfirst
      have hfound : pathStep? (stepsSpelling ((step, name) :: steps) ++ rest) =
          some (step, name.toList ++ (stepsSpelling steps ++ rest)) :=
        pathStep?_eq_some_iff.mpr ⟨c, cs ++ (stepsSpelling steps ++ rest), by rw [hcons]; rfl, hc,
          by simp [stepsSpelling_cons]⟩
      rw [pathSteps_of_some hfound, takeWhile_inIdentifier hchars hbehind,
        dropWhile_inIdentifier hchars hbehind, ih fun later hlater => hsteps later (by simp [hlater]),
        String.ofList_toList]

/-! ### Every expression has parts -/

/-- Steps can be taken off a text until none is left at its front. -/
theorem exists_steps (cs : List Char) (hname : NotBefore IsIdentifierChar cs) :
    ∃ steps rest, cs = stepsSpelling steps ++ rest ∧
      (∀ step ∈ steps, IsIdentifier step.2.toList) ∧ NotBefore IsIdentifierChar rest ∧
      ¬ BeginsWithStep rest := by
  by_cases hstep : BeginsWithStep cs
  · obtain ⟨step, c, behind, hc, hcs⟩ := hstep
    obtain ⟨name, behind', heq, hidentifier, hbehind⟩ := exists_identifier hc behind
    have hshorter : behind'.length < cs.length := by
      obtain ⟨d, ds, rfl, -⟩ := hidentifier
      rw [hcs, heq]
      simp only [List.length_append, List.length_cons]
      omega
    obtain ⟨steps, rest, rfl, hsteps, hrest⟩ := exists_steps behind' hbehind
    refine ⟨(step, String.ofList name) :: steps, rest, ?_, ?_, hrest⟩
    · rw [hcs, stepsSpelling_cons, heq]
      simp
    · exact List.forall_mem_cons.mpr ⟨by simpa using hidentifier, hsteps⟩
  · exact ⟨[], cs, rfl, by simp, hname, hstep⟩
  termination_by cs.length
  decreasing_by exact hshorter

/-- What begins like an identifier begins with a path that cannot be made longer. -/
theorem exists_path {c : Char} (hc : IsInitial c) (cs : List Char) :
    ∃ path rest, c :: cs = path.toString.toList ++ rest ∧ IsPath path ∧
      NotBefore IsIdentifierChar rest ∧ ¬ BeginsWithStep rest := by
  obtain ⟨name, behind, heq, hidentifier, hbehind⟩ := exists_identifier hc cs
  obtain ⟨steps, rest, rfl, hsteps, hrest⟩ := exists_steps behind hbehind
  refine ⟨⟨String.ofList name, steps⟩, rest, ?_, ⟨by simpa using hidentifier, hsteps⟩, hrest⟩
  rw [heq, toList_toString]
  simp

theorem IsPath.toList_ne_nil {path : FieldPath} (h : IsPath path) : path.toString.toList ≠ [] := by
  obtain ⟨c, cs, hcons, -⟩ := h.head
  simp [toList_toString, hcons]

theorem exists_scans (cs : List Char) : ∃ lexemes, Scans cs lexemes := by
  cases cs with
  | nil => exact ⟨[], .nil⟩
  | cons c cs =>
      by_cases hinitial : IsInitial c
      · obtain ⟨path, rest, heq, hpath, hname, hstep⟩ := exists_path hinitial cs
        have hshorter : rest.length < (c :: cs).length := by
          have hpos := List.length_pos_iff.mpr hpath.toList_ne_nil
          rw [heq, List.length_append]
          omega
        obtain ⟨lexemes, hrest⟩ := exists_scans rest
        rw [heq]
        exact ⟨_, .reference hpath hname hstep hrest⟩
      · by_cases hdigit : IsDigit c
        · obtain ⟨run, rest, heq, hrun, hend⟩ := exists_run IsNumberChar cs
          have hshorter : rest.length < (c :: cs).length := by
            rw [heq, List.length_cons, List.length_append]
            omega
          obtain ⟨lexemes, hrest⟩ := exists_scans rest
          rw [heq]
          exact ⟨_, .number hdigit hrun hend hrest⟩
        · obtain ⟨lexemes, hrest⟩ := exists_scans cs
          exact ⟨_, .other hinitial hdigit hrest⟩
  termination_by cs.length
  decreasing_by
    · exact hshorter
    · exact hshorter
    · exact Nat.lt_succ_self _

/-! ### The cut -/

/-- The text of a piece. -/
def Piece.spelling : Piece → List Char
  | Piece.text cs => cs
  | Piece.reference path => path.toString.toList

/-- The path of a piece that is a reference. -/
def Piece.path? : Piece → Option FieldPath
  | Piece.text _ => none
  | Piece.reference path => some path

/-- The pieces that the parts of an expression are put together to. -/
def piecesOf : List Lexeme → List Piece
  | [] => []
  | .reference path :: lexemes => .reference path :: piecesOf lexemes
  | .number run :: lexemes => consText run (piecesOf lexemes)
  | .other c :: lexemes => consText [c] (piecesOf lexemes)

theorem spelling_consText (text : List Char) (behind : List Piece) :
    (consText text behind).flatMap Piece.spelling = text ++ behind.flatMap Piece.spelling := by
  unfold consText
  split <;> simp [Piece.spelling]

theorem references_consText (text : List Char) (behind : List Piece) :
    (consText text behind).filterMap Piece.path? = behind.filterMap Piece.path? := by
  unfold consText
  split <;> rfl

theorem spelling_piecesOf (lexemes : List Lexeme) :
    (piecesOf lexemes).flatMap Piece.spelling = lexemes.flatMap Lexeme.spelling := by
  induction lexemes with
  | nil => rfl
  | cons lexeme lexemes ih =>
      cases lexeme with
      | reference path => rw [piecesOf, List.flatMap_cons, ih]; rfl
      | number run => rw [piecesOf, spelling_consText, ih]; rfl
      | other c => rw [piecesOf, spelling_consText, ih]; rfl

theorem references_piecesOf (lexemes : List Lexeme) :
    (piecesOf lexemes).filterMap Piece.path? = references lexemes := by
  induction lexemes with
  | nil => rfl
  | cons lexeme lexemes ih =>
      cases lexeme with
      | reference path => exact congrArg (path :: ·) ih
      | number run => exact (references_consText run _).trans ih
      | other c => exact (references_consText [c] _).trans ih

/-- An expression is cut along its parts. -/
theorem cut_of_scans {cs : List Char} {lexemes : List Lexeme} (h : Scans cs lexemes) :
    cut cs = piecesOf lexemes := by
  induction h with
  | nil => rw [cut]; rfl
  | @reference path rest lexemes hpath hname hstep _ ih =>
      obtain ⟨head, steps⟩ := path
      obtain ⟨c, name, hhead, hc, hchars⟩ := hpath.head
      -- The head is taken whole, because neither a sign nor what is behind the path continues it.
      have hbehind := notBefore_stepsSpelling hname steps
      have hspelling : (⟨head, steps⟩ : FieldPath).toString.toList ++ rest =
          c :: (name ++ (stepsSpelling steps ++ rest)) := by
        rw [toList_toString, hhead]
        simp
      rw [hspelling, cut, if_pos (startsIdentifier_iff.mpr hc)]
      simp only [takeWhile_inIdentifier hchars hbehind, dropWhile_inIdentifier hchars hbehind,
        pathSteps_append hpath.steps hname hstep, ih, piecesOf, ← hhead, String.ofList_toList]
  | @number c run rest lexemes hc hrun hend _ ih =>
      have hinitial : ¬ startsIdentifier c = true :=
        fun hinitial => (startsIdentifier_iff.mp hinitial).not_isDigit hc
      rw [List.cons_append, cut, if_neg hinitial, if_pos (isDigit_iff.mpr hc)]
      simp only [takeWhile_append_of_iff (fun _ => inNumber_iff) hrun hend,
        dropWhile_append_of_iff (fun _ => inNumber_iff) hrun hend, ih, piecesOf]
  | @other c rest lexemes hinitial hdigit _ ih =>
      rw [cut, if_neg (startsIdentifier_iff.not.mpr hinitial), if_neg (isDigit_iff.not.mpr hdigit),
        ih, piecesOf]

/-- The cut keeps the references. -/
theorem references_of_scans {cs : List Char} {lexemes : List Lexeme} (h : Scans cs lexemes) :
    references lexemes = (cut cs).filterMap Piece.path? := by
  rw [cut_of_scans h, references_piecesOf]

theorem mem_references_iff {cs : List Char} {lexemes : List Lexeme} (h : Scans cs lexemes)
    {path : FieldPath} : path ∈ references lexemes ↔ .reference path ∈ cut cs := by
  rw [references_of_scans h, List.mem_filterMap]
  constructor
  · intro hpath
    obtain ⟨piece, hpiece, hpath⟩ := hpath
    cases piece with
    | text text => cases hpath
    | reference path' =>
        cases hpath
        exact hpiece
  · exact fun hpiece => ⟨_, hpiece, rfl⟩

end VulkanRegistry.LengthExpr
