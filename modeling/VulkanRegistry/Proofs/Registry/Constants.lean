/-
The constants of the core.

Constants are declared by literals and by aliases of one another, and the aliases are to
collapse: each finds a copy of the constant at the end of its chain.  All literals are
defined first, then the aliases in their order, and an alias whose target is not defined at
that moment ends the build.  So aliases collapse in just those documents where the target of
each has a literal or is an alias that comes before it, even where all chains end
(`forwardText`).  A document that is read answers for the constants alone and not for their
order.
-/
import VulkanRegistry.Proofs.Constant.Table
import VulkanRegistry.Proofs.Registry.Steps

namespace VulkanRegistry

/-- The constant that a declaration with a literal makes. -/
def ValueDecl.constant? (decl : ValueDecl) : Option Constant :=
  decl.value.map fun literal => .ofLiteral decl.name literal decl.ctype

namespace Constants

variable {decls before after : List ValueDecl} {decl : ValueDecl} {table : ConstantTable}
  {name target : String} {constant : Constant} {α : Type}

/-! ### What the declarations say -/

/-- What the first declaration of a name that has a feature says there. -/
def first? (feature : ValueDecl → Option α) (decls : List ValueDecl) (name : String) : Option α :=
  decls.findSome? fun decl => if decl.name = name then feature decl else none

/-- The constant that the first literal of a name makes. -/
def literal? : List ValueDecl → String → Option Constant :=
  first? (·.constant?)

/-- What the first alias of a name is for. -/
def target? : List ValueDecl → String → Option String :=
  first? (·.aliasOf)

/-- A name leads through aliases to a constant with a literal.  A literal counts before an alias
of the same name. -/
inductive StandsFor (decls : List ValueDecl) : String → Constant → Prop
  | literal {name : String} {constant : Constant} (h : literal? decls name = some constant) :
      StandsFor decls name constant
  | link {name target : String} {constant : Constant} (hno : literal? decls name = none)
      (htarget : target? decls name = some target) (h : StandsFor decls target constant) :
      StandsFor decls name constant

/-- Every name that is declared leads to a constant. -/
def EveryChainEnds (decls : List ValueDecl) : Prop :=
  ∀ decl ∈ decls, decl.value.isSome ∨ decl.aliasOf.isSome →
    ∃ constant, StandsFor decls decl.name constant

/-- All declared names lead to constants, and the table finds their copies and nothing else. -/
structure Collapses (decls : List ValueDecl) (table : ConstantTable) : Prop where
  chains_end : EveryChainEnds decls
  get?_eq_some_iff : ∀ name found, table.get? name = some found ↔
    ∃ constant, StandsFor decls name constant ∧ found = constant.named name

/-- A name has a literal, or an alias in the first part of the declarations. -/
def Defined (decls before : List ValueDecl) (name : String) : Prop :=
  (literal? decls name).isSome ∨ (target? before name).isSome

/-- A declaration is no alias, or it repeats a name or has a target that is defined before it. -/
def Founded (decls before : List ValueDecl) (decl : ValueDecl) : Prop :=
  ∀ target, decl.aliasOf = some target →
    Defined decls before decl.name ∨ Defined decls before target

/-- Every declaration in `after` is founded on what comes before it. -/
def FoundedAfter (decls before after : List ValueDecl) : Prop :=
  ∀ front decl rest, after = front ++ decl :: rest → Founded decls (before ++ front) decl

/-- The target of every alias comes before it or has a literal. -/
def TargetsFirst (decls : List ValueDecl) : Prop :=
  FoundedAfter decls [] decls

/-- The first declaration in `after` that is not founded: an alias of a name that is new, for a
target that is not defined before it. -/
def FirstUnfounded (decls before after : List ValueDecl) (decl : ValueDecl) (target : String) :
    Prop :=
  ∃ front rest, after = front ++ decl :: rest ∧ FoundedAfter decls before front ∧
    decl.aliasOf = some target ∧ ¬ Defined decls (before ++ front) decl.name ∧
    ¬ Defined decls (before ++ front) target

theorem first?_append (feature : ValueDecl → Option α) (decls others : List ValueDecl)
    (name : String) : first? feature (decls ++ others) name =
      (first? feature decls name).or (first? feature others name) :=
  List.findSome?_append

theorem first?_cons (feature : ValueDecl → Option α) (decl : ValueDecl) (decls : List ValueDecl)
    (name : String) : first? feature (decl :: decls) name =
      (if decl.name = name then feature decl else none).or (first? feature decls name) := by
  rw [first?, List.findSome?_cons]
  cases (if decl.name = name then feature decl else none) <;> rfl

theorem isSome_first?_of_mem {feature : ValueDecl → Option α} (hmem : decl ∈ decls)
    (h : (feature decl).isSome) : (first? feature decls decl.name).isSome := by
  rw [first?, List.findSome?_isSome_iff]
  exact ⟨decl, hmem, by rwa [if_pos rfl]⟩

/-- Where names are distinct, the order of the declarations does not matter. -/
theorem first?_perm {others : List ValueDecl} (feature : ValueDecl → Option α)
    (hperm : decls.Perm others) (hnames : (decls.map (·.name)).Nodup) (name : String) :
    first? feature decls name = first? feature others name := by
  induction hperm with
  | nil => rfl
  | cons decl _ ih =>
      rw [first?_cons, first?_cons, ih (List.nodup_cons.mp hnames).2]
  | swap one other decls =>
      have hne : other.name ≠ one.name := fun h => by simp [h] at hnames
      rw [first?_cons, first?_cons, first?_cons, first?_cons]
      by_cases hone : one.name = name
      · rw [if_neg fun h => hne (h.trans hone.symm), Option.none_or, Option.none_or]
      · rw [if_neg hone, Option.none_or, Option.none_or]
  | trans hone _ ih ih' => rw [ih hnames, ih' ((hone.map _).nodup_iff.mp hnames)]

theorem literal?_spec (h : literal? decls name = some constant) :
    constant.name = name ∧ constant.aliasOf = none := by
  obtain ⟨decl, -, hdecl⟩ := List.exists_of_findSome?_eq_some h
  split at hdecl
  · next hname =>
      obtain ⟨literal, -, rfl⟩ := Option.map_eq_some_iff.mp hdecl
      exact ⟨hname, rfl⟩
  · cases hdecl

theorem target?_of_first (heq : decls = before ++ decl :: after)
    (hfirst : target? before decl.name = none) (halias : decl.aliasOf = some target) :
    target? decls decl.name = some target := by
  rw [target?] at hfirst
  rw [target?, heq, first?_append, hfirst, Option.none_or, first?_cons, if_pos rfl, halias,
    Option.some_or]

theorem defined_concat : Defined decls (before ++ [decl]) name ↔
    Defined decls before name ∨ decl.aliasOf.isSome ∧ decl.name = name := by
  rw [Defined, Defined, target?, first?_append, first?_cons, Option.isSome_or, Bool.or_eq_true,
    or_assoc]
  refine or_congr_right (or_congr_right ?_)
  by_cases hname : decl.name = name <;> simp [hname, first?]

theorem foundedAfter_nil : FoundedAfter decls before [] := by
  simp [FoundedAfter]

theorem foundedAfter_cons : FoundedAfter decls before (decl :: after) ↔
    Founded decls before decl ∧ FoundedAfter decls (before ++ [decl]) after := by
  constructor
  · intro h
    refine ⟨by simpa using h [] decl after rfl, fun front next rest heq => ?_⟩
    simpa using h (decl :: front) next rest (by rw [heq, List.cons_append])
  · rintro ⟨hfirst, h⟩ front next rest heq
    rcases List.append_eq_cons_iff.mp heq.symm with ⟨rfl, hcons⟩ | ⟨front, rfl, hafter⟩
    · obtain ⟨rfl, -⟩ := List.cons.inj hcons
      rwa [List.append_nil]
    · simpa using h front next rest hafter

namespace FirstUnfounded

theorem head (halias : decl.aliasOf = some target) (hname : ¬ Defined decls before decl.name)
    (htarget : ¬ Defined decls before target) :
    FirstUnfounded decls before (decl :: after) decl target :=
  ⟨[], after, rfl, foundedAfter_nil, halias, by simpa using hname, by simpa using htarget⟩

theorem cons {first : ValueDecl} (hfirst : Founded decls before first)
    (h : FirstUnfounded decls (before ++ [first]) after decl target) :
    FirstUnfounded decls before (first :: after) decl target := by
  obtain ⟨front, rest, rfl, hfront, halias, hname, htarget⟩ := h
  exact ⟨first :: front, rest, rfl, foundedAfter_cons.mpr ⟨hfirst, hfront⟩, halias,
    by simpa using hname, by simpa using htarget⟩

theorem not_foundedAfter (h : FirstUnfounded decls before after decl target) :
    ¬ FoundedAfter decls before after := by
  obtain ⟨front, rest, hsplit, -, halias, hname, htarget⟩ := h
  exact fun hall => (hall front decl rest hsplit target halias).elim hname htarget

end FirstUnfounded

namespace StandsFor

theorem aliasOf_eq_none (h : StandsFor decls name constant) : constant.aliasOf = none := by
  induction h with
  | literal h => exact (literal?_spec h).2
  | link _ _ _ ih => exact ih

theorem literal?_name (h : StandsFor decls name constant) :
    literal? decls constant.name = some constant := by
  induction h with
  | literal h => rwa [(literal?_spec h).1]
  | link _ _ _ ih => exact ih

/-- Chains do not fork. -/
theorem unique {other : Constant} (h : StandsFor decls name constant)
    (hother : StandsFor decls name other) : constant = other := by
  induction h with
  | literal h =>
      cases hother with
      | literal hother => exact Option.some.inj (h.symm.trans hother)
      | link hno => rw [hno] at h; cases h
  | link hno htarget _ ih =>
      cases hother with
      | literal hother => rw [hno] at hother; cases hother
      | link _ htarget' hother =>
          rw [htarget, Option.some.injEq] at htarget'
          exact ih (htarget' ▸ hother)

theorem perm {others : List ValueDecl} (hperm : decls.Perm others)
    (hnames : (decls.map (·.name)).Nodup) (h : StandsFor decls name constant) :
    StandsFor others name constant := by
  induction h with
  | literal h =>
      rw [literal?, first?_perm _ hperm hnames] at h
      exact .literal h
  | link hno htarget _ ih =>
      rw [literal?, first?_perm _ hperm hnames] at hno
      rw [target?, first?_perm _ hperm hnames] at htarget
      exact .link hno htarget ih

end StandsFor

/-! ### Literals -/

theorem get?_defineDecl (table : ConstantTable) (decl : ValueDecl) (name : String) :
    (table.defineDecl decl).get? name =
      (table.get? name).or (if decl.name = name then decl.constant? else none) := by
  unfold ConstantTable.defineDecl ValueDecl.constant?
  split
  · next literal hvalue =>
      rw [ConstantTable.define, ConstantTable.get?_insertNew, Constant.name_ofLiteral, hvalue,
        Option.map_some]
  · next hvalue => rw [hvalue, Option.map_none, ite_self, Option.or_none]

theorem get?_foldl_defineDecl (decls : List ValueDecl) (table : ConstantTable) (name : String) :
    (decls.foldl ConstantTable.defineDecl table).get? name =
      (table.get? name).or (literal? decls name) := by
  induction decls generalizing table with
  | nil => simp [literal?, first?]
  | cons decl decls ih =>
      rw [List.foldl_cons, ih, get?_defineDecl, Option.or_assoc, literal?, first?_cons]

/-! ### Aliases -/

/-- The table after a first part of the aliases: it has what is defined by then, and every entry is
a copy of the constant that its name stands for. -/
structure Settled (decls before : List ValueDecl) (table : ConstantTable) : Prop where
  contains_iff : ∀ name, table.contains name = true ↔ Defined decls before name
  copies : ∀ name found, table.get? name = some found →
    ∃ constant, StandsFor decls name constant ∧ found = constant.named name

theorem settled_literals (decls : List ValueDecl) :
    Settled decls [] (decls.foldl ConstantTable.defineDecl .empty) where
  contains_iff name := by
    rw [ConstantTable.contains, get?_foldl_defineDecl]
    simp [Defined, target?, first?]
  copies name found h := by
    rw [get?_foldl_defineDecl, ConstantTable.get?_empty, Option.none_or] at h
    obtain ⟨rfl, -⟩ := literal?_spec h
    exact ⟨found, .literal h, found.named_self.symm⟩

namespace Settled

theorem exists_constant (h : Settled decls before table) (hdefined : Defined decls before name) :
    ∃ constant, StandsFor decls name constant ∧ table.get? name = some (constant.named name) := by
  obtain ⟨found, hfound⟩ := Option.isSome_iff_exists.mp ((h.contains_iff name).mpr hdefined)
  obtain ⟨constant, hstands, rfl⟩ := h.copies name found hfound
  exact ⟨constant, hstands, hfound⟩

/-- A declaration that defines no new name leaves the table settled. -/
theorem skip (h : Settled decls before table)
    (hold : decl.aliasOf.isSome → Defined decls before decl.name) :
    Settled decls (before ++ [decl]) table where
  contains_iff name := by
    rw [h.contains_iff, defined_concat]
    refine (or_iff_left_of_imp ?_).symm
    rintro ⟨halias, rfl⟩
    exact hold halias
  copies := h.copies

/-- A founded declaration is carried out, and the table stays settled. -/
theorem step (h : Settled decls before table) (heq : decls = before ++ decl :: after)
    (hfounded : Founded decls before decl) :
    ∃ next, table.defineAliasDecl decl = .ok next ∧ Settled decls (before ++ [decl]) next := by
  cases halias : decl.aliasOf with
  | none =>
      exact ⟨table, by simp [ConstantTable.defineAliasDecl, halias], h.skip (by simp [halias])⟩
  | some target =>
      have hdefine : table.defineAliasDecl decl = table.defineAlias decl.name target := by
        simp [ConstantTable.defineAliasDecl, halias]
      by_cases hold : Defined decls before decl.name
      · have hcontains := (h.contains_iff decl.name).mpr hold
        exact ⟨table, by rw [hdefine, ConstantTable.defineAlias_of_contains hcontains],
          h.skip fun _ => hold⟩
      have hfree : table.contains decl.name = false := by
        rwa [← Bool.not_eq_true, h.contains_iff]
      obtain ⟨constant, hstands, hfound⟩ :=
        h.exists_constant ((hfounded target halias).resolve_left hold)
      -- The name has no literal and no earlier alias, so its chain goes on at this target.
      obtain ⟨hliteral, hfirst⟩ := not_or.mp hold
      rw [Bool.not_eq_true, Option.isSome_eq_false_iff, Option.isNone_iff_eq_none]
        at hliteral hfirst
      have hname : StandsFor decls decl.name constant :=
        .link hliteral (target?_of_first heq hfirst halias) hstands
      have hother : decl.name ≠ constant.name := by
        intro hsame
        rw [hsame, hstands.literal?_name] at hliteral
        cases hliteral
      have hcopy : (constant.named decl.name).name = decl.name := by
        rw [Constant.named, if_neg hother]
      refine ⟨table.insertNew (constant.named decl.name), ?_, ?_, ?_⟩
      · rw [hdefine, ConstantTable.defineAlias_of_named hfree hstands.aliasOf_eq_none hother hfound]
      · intro name
        rw [defined_concat, ← h.contains_iff, ConstantTable.contains, ConstantTable.contains,
          ConstantTable.get?_insertNew, hcopy, Option.isSome_or, Bool.or_eq_true]
        simp [halias]
      · intro name found hget
        rw [ConstantTable.get?_insertNew, hcopy] at hget
        rcases Option.or_eq_some_iff.mp hget with hget | ⟨-, hget⟩
        · exact h.copies name found hget
        · split at hget
          · next hsame =>
              cases hget
              rw [← hsame]
              exact ⟨constant, hname, rfl⟩
          · cases hget

/-- An alias that is not founded ends the run. -/
theorem fails (h : Settled decls before table) (halias : decl.aliasOf = some target)
    (hname : ¬ Defined decls before decl.name) (htarget : ¬ Defined decls before target) :
    table.defineAliasDecl decl = .error (.unknownConstant target decl.name) := by
  rw [← h.contains_iff, Bool.not_eq_true] at hname htarget
  rw [ConstantTable.contains, Option.isSome_eq_false_iff, Option.isNone_iff_eq_none] at htarget
  simp only [ConstantTable.defineAliasDecl, halias]
  exact ConstantTable.defineAlias_of_unknown hname htarget

/-- A run over the rest of the declarations either carries all of them out, as all are founded, or
ends at the first that is not. -/
theorem run (h : Settled decls before table) (heq : decls = before ++ after) :
    (FoundedAfter decls before after ∧
      ∃ final, after.foldlM ConstantTable.defineAliasDecl table = .ok final ∧
        Settled decls decls final) ∨
    ∃ decl target, FirstUnfounded decls before after decl target ∧
      after.foldlM ConstantTable.defineAliasDecl table =
        .error (.unknownConstant target decl.name) := by
  induction after generalizing before table with
  | nil =>
      rw [List.append_nil] at heq
      exact .inl ⟨foundedAfter_nil, table, rfl, heq ▸ h⟩
  | cons first after ih =>
      rw [List.foldlM_cons]
      by_cases hfirst : Founded decls before first
      · obtain ⟨next, hnext, hsettled⟩ := h.step heq hfirst
        rw [hnext]
        rcases ih hsettled (by simpa using heq) with
          ⟨hafter, final, hfinal, hsettled⟩ | ⟨decl, target, hunfounded, herror⟩
        · exact .inl ⟨foundedAfter_cons.mpr ⟨hfirst, hafter⟩, final, hfinal, hsettled⟩
        · exact .inr ⟨decl, target, hunfounded.cons hfirst, herror⟩
      · simp only [Founded, not_forall, not_or] at hfirst
        obtain ⟨target, halias, hname, htarget⟩ := hfirst
        refine .inr ⟨first, target, .head halias hname htarget, ?_⟩
        rw [h.fails halias hname htarget]
        rfl

/-- A table in which all aliases are settled has collapsed them. -/
theorem collapses (h : Settled decls decls table) : Collapses decls table where
  chains_end decl hmem hdeclares := by
    have hdefined : Defined decls decls decl.name :=
      hdeclares.imp (fun h => isSome_first?_of_mem hmem (by simpa [ValueDecl.constant?] using h))
        (isSome_first?_of_mem hmem)
    obtain ⟨constant, hstands, -⟩ := h.exists_constant hdefined
    exact ⟨constant, hstands⟩
  get?_eq_some_iff name found := by
    refine ⟨h.copies name found, ?_⟩
    rintro ⟨constant, hstands, rfl⟩
    have hdefined : Defined decls decls name := by
      cases hstands with
      | literal hliteral => exact .inl (by rw [hliteral]; rfl)
      | link _ htarget => exact .inr (by rw [htarget]; rfl)
    obtain ⟨other, hother, hget⟩ := h.exists_constant hdefined
    rw [hget, hother.unique hstands]

end Settled

/-- Distinct names find the same in whatever order they are declared, if both orders are read. -/
theorem Collapses.get?_eq_of_perm {others : List ValueDecl} {other : ConstantTable}
    (h : Collapses decls table) (hother : Collapses others other) (hperm : decls.Perm others)
    (hnames : (decls.map (·.name)).Nodup) (name : String) :
    table.get? name = other.get? name := by
  have hnames' : (others.map (·.name)).Nodup := (hperm.map _).nodup_iff.mp hnames
  refine Option.ext fun found => ?_
  rw [h.get?_eq_some_iff, hother.get?_eq_some_iff]
  refine exists_congr fun constant => and_congr_left fun _ => ?_
  exact ⟨.perm hperm hnames, .perm hperm.symm hnames'⟩

end Constants

open Constants

/-- The constants of a document are read, and their aliases collapse. -/
def Document.CollapsesConstants (doc : Document) : Prop :=
  ∃ table, doc.constants = .ok table ∧ Collapses doc.constantDecls table

/-- The aliases of constants collapse if and only if the target of each comes before it or has a
literal; the first alias for which this fails ends the build. -/
theorem Document.collapsesConstants_iff (doc : Document) :
    (doc.CollapsesConstants ↔ TargetsFirst doc.constantDecls) ∧
    (TargetsFirst doc.constantDecls ∨
      ∃ decl target, FirstUnfounded doc.constantDecls [] doc.constantDecls decl target ∧
        doc.constants = .error (.unknownConstant target decl.name)) := by
  rcases (settled_literals doc.constantDecls).run rfl with
    ⟨hfirst, table, hok, hsettled⟩ | ⟨decl, target, hunfounded, herror⟩
  · exact ⟨iff_of_true ⟨table, hok, hsettled.collapses⟩ hfirst, .inl hfirst⟩
  · refine ⟨iff_of_false ?_ hunfounded.not_foundedAfter, .inr ⟨decl, target, hunfounded, herror⟩⟩
    rintro ⟨table, hok, -⟩
    cases herror.symm.trans hok

/-- An alias of a constant in front of the alias that it is for. -/
def forwardText : String :=
  "<registry><platforms/><types/>
<enums name='API Constants'><enum name='VK_UUID_SIZE' type='uint32_t' value='16'/>
<enum name='VK_UUID_SIZE_NV' alias='VK_UUID_SIZE_KHR'/>
<enum name='VK_UUID_SIZE_KHR' alias='VK_UUID_SIZE'/></enums>
<commands/>
<feature name='VK_VERSION_1_0' number='1.0'/></registry>"

/-- The constants of `forwardText`. -/
def forwardDecls : List ValueDecl :=
  [{ name := "VK_UUID_SIZE", value := some "16", ctype := some "uint32_t" },
    { name := "VK_UUID_SIZE_NV", aliasOf := some "VK_UUID_SIZE_KHR" },
    { name := "VK_UUID_SIZE_KHR", aliasOf := some "VK_UUID_SIZE" }]

theorem everyChainEnds_forwardDecls : EveryChainEnds forwardDecls := by
  have hsize : ∃ constant, StandsFor forwardDecls "VK_UUID_SIZE" constant := ⟨_, .literal rfl⟩
  have hkhr : ∃ constant, StandsFor forwardDecls "VK_UUID_SIZE_KHR" constant :=
    hsize.imp fun _ h => .link (by decide) (by decide) h
  have hnv : ∃ constant, StandsFor forwardDecls "VK_UUID_SIZE_NV" constant :=
    hkhr.imp fun _ h => .link (by decide) (by decide) h
  intro decl hmem _
  simp only [forwardDecls, List.mem_cons, List.not_mem_nil, or_false] at hmem
  rcases hmem with rfl | rfl | rfl
  · exact hsize
  · exact hnv
  · exact hkhr

set_option maxRecDepth 20000 in
/-- In `forwardText` every alias leads to a constant with a literal, and the first alias ends the
build. -/
theorem not_collapsesConstants_forwardText :
    ∃ doc, Document.parse forwardText = .ok doc ∧
      EveryChainEnds (doc.forApi .standard).constantDecls ∧
      (doc.forApi .standard).constants =
        .error (.unknownConstant "VK_UUID_SIZE_KHR" "VK_UUID_SIZE_NV") ∧
      ¬ (doc.forApi .standard).CollapsesConstants := by
  have hparse : Document.parse forwardText = _ := Document.parse_ofList _
  have hdoc : (Document.parse forwardText).toOption.any
      (fun doc => (doc.forApi .standard).constantDecls == forwardDecls) = true := by
    rw [hparse]
    decide +kernel
  obtain ⟨doc, hdoc, hdecls⟩ := Outcome.exists_ok_of_any hdoc
  rw [beq_iff_eq] at hdecls
  have herror : (doc.forApi .standard).constants =
      .error (.unknownConstant "VK_UUID_SIZE_KHR" "VK_UUID_SIZE_NV") := by
    rw [Document.constants, hdecls]
    decide +kernel
  refine ⟨doc, hdoc, hdecls ▸ everyChainEnds_forwardDecls, herror, ?_⟩
  rintro ⟨table, hok, -⟩
  cases herror.symm.trans hok

end VulkanRegistry
