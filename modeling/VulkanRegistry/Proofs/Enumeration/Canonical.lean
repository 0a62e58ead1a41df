/-
Which name stands for a number.

A name that is declared as an alias of one that is there never stands for its number.  So if
two names of one number are both such aliases and no other name has that number, then none
stands for it and merging leaves both without an alias.  Apart from that, every number has
exactly one name that stands for it (`nodup_canonical_iff`), and every alias leads to it.

Contributions that follow one set of declarations always have such a name: an alias has the
number of what it is an alias of, and the chain of aliases ends.
-/
import Mathlib.Data.List.Pairwise
import VulkanRegistry.Proofs.Enumeration.Declarations
import VulkanRegistry.Proofs.Enumeration.Merge

namespace VulkanRegistry

/-- Every number of an enumeration has one name that stands for it, and its other names are
aliases of that one. -/
structure EnumLayout.NamedOnce (layout : EnumLayout) : Prop where
  unique : (layout.canonical.map (·.value)).Nodup
  aliased : ∀ v ∈ layout.values, ∀ name, v.aliasOf = some name →
    ∃ w ∈ layout.canonical, w.name = name ∧ w.value = v.value

namespace Contribution

variable {entries : List Contribution}

/-- Where two names have one number, some name of the number is no alias of a name that is
there. -/
def Represented (entries : List Contribution) : Prop :=
  ∀ c ∈ entries, ∀ d ∈ entries, c.name ≠ d.name → c.value = d.value →
    ∃ e ∈ entries, e.value = c.value ∧ standsAlone entries e = true

/-! ### The first contribution of each name -/

theorem mem_of_mem_firstOfEach {cs : List Contribution} {c : Contribution}
    (h : c ∈ firstOfEach cs) : c ∈ cs := by
  induction cs with
  | nil => exact h
  | cons d cs ih =>
      rcases List.mem_cons.mp h with rfl | h
      · exact List.mem_cons_self ..
      · exact List.mem_cons_of_mem d (ih (List.mem_filter.mp h).1)

theorem nodup_names_firstOfEach (cs : List Contribution) :
    ((firstOfEach cs).map (·.name)).Nodup := by
  induction cs with
  | nil => exact List.nodup_nil
  | cons c cs ih =>
      rw [firstOfEach, List.map_cons, List.nodup_cons]
      refine ⟨?_, ih.sublist (List.filter_sublist.map _)⟩
      intro hmem
      obtain ⟨d, hd, hname⟩ := List.mem_map.mp hmem
      have hne := (List.mem_filter.mp hd).2
      simp [hname] at hne

/-! ### The name that stands for a number -/

theorem exists_of_canonicalName? {value : Int} {name : String}
    (h : canonicalName? entries value = some name) :
    ∃ e ∈ entries, e.name = name ∧ e.value = value ∧ standsAlone entries e = true := by
  obtain ⟨e, hfind, hname⟩ := Option.map_eq_some_iff.mp h
  have hfound := List.find?_some hfind
  rw [Bool.and_eq_true, beq_iff_eq] at hfound
  exact ⟨e, List.mem_of_find?_eq_some hfind, hname, hfound.2, hfound.1⟩

theorem canonicalName?_ne_none {e : Contribution} (he : e ∈ entries)
    (halone : standsAlone entries e = true) : canonicalName? entries e.value ≠ none := by
  intro hnone
  have hfind := Option.map_eq_none_iff.mp hnone
  simpa [halone] using List.find?_eq_none.mp hfind e he

theorem aliasOf_toValue_eq_none_iff {c : Contribution} :
    (toValue entries c).aliasOf = none ↔
      ∀ name, canonicalName? entries c.value = some name → name = c.name := by
  show (canonicalName? entries c.value).filter _ = none ↔ _
  rw [Option.filter_eq_none_iff]
  refine forall₂_congr fun name _ => ?_
  simp

/-- An alias leads to a name of the same number, which is no alias. -/
theorem exists_canonical_of_aliasOf {c : Contribution} {name : String}
    (h : (toValue entries c).aliasOf = some name) :
    ∃ e ∈ entries, e.name = name ∧ e.value = c.value ∧ (toValue entries e).aliasOf = none := by
  obtain ⟨hname, -⟩ := Option.filter_eq_some_iff.mp h
  obtain ⟨e, he, hsame, hvalue, -⟩ := exists_of_canonicalName? hname
  refine ⟨e, he, hsame, hvalue, ?_⟩
  rw [aliasOf_toValue_eq_none_iff, hvalue]
  intro other hother
  rw [hname, Option.some.injEq] at hother
  rw [← hother, hsame]

/-- The values without an alias have distinct numbers if and only if shared numbers are
represented. -/
theorem nodup_canonical_iff (hnames : (entries.map (·.name)).Nodup) :
    (((entries.map (toValue entries)).filter (·.aliasOf.isNone)).map (·.value)).Nodup ↔
      Represented entries := by
  rw [List.Nodup, List.pairwise_map, List.pairwise_filter, List.pairwise_map]
  simp only [Option.isNone_iff_eq_none]
  constructor
  · intro hunique c hc d hd hne hvalue
    by_contra hnone
    -- No name stands for the number, so neither `c` nor `d` becomes an alias.
    have hfree : ∀ x ∈ entries, x.value = c.value → (toValue entries x).aliasOf = none := by
      intro x hx hsame
      rw [aliasOf_toValue_eq_none_iff]
      intro name hname
      obtain ⟨e, he, -, hvalue, halone⟩ := exists_of_canonicalName? hname
      exact absurd ⟨e, he, hvalue.trans hsame, halone⟩ hnone
    have hsymm : Std.Symm fun x y : Contribution =>
        (toValue entries x).aliasOf = none → (toValue entries y).aliasOf = none →
          (toValue entries x).value ≠ (toValue entries y).value :=
      ⟨fun x y hxy hy hx heq => hxy hx hy heq.symm⟩
    have hdiffer := hunique.forall hc hd (fun heq => hne (by rw [heq]))
    exact hdiffer (hfree c hc rfl) (hfree d hd hvalue.symm) hvalue
  · intro hrepresented
    have hdistinct : entries.Pairwise fun c d => c.name ≠ d.name := List.pairwise_map.mp hnames
    refine hdistinct.imp_of_mem ?_
    intro c d hc hd hne hnonec hnoned heq
    have hvalue : c.value = d.value := heq
    obtain ⟨e, he, hsame, halone⟩ := hrepresented c hc d hd hne hvalue
    have hsome := canonicalName?_ne_none he halone
    obtain ⟨name, hname⟩ := Option.ne_none_iff_exists'.mp hsome
    rw [hsame] at hname
    have hisc := aliasOf_toValue_eq_none_iff.mp hnonec name hname
    have hisd := aliasOf_toValue_eq_none_iff.mp hnoned name (by rw [← hvalue, hname])
    exact hne (hisc.symm.trans hisd)

/-! ### Contributions that follow the declarations -/

/-- The contribution says what the declaration of its name says. -/
structure Follows (decls : EnumDeclarations) (c : Contribution) : Prop where
  ends : ∃ last, Trail.Leads decls.link c.name last ∧ decls.spec? last = some (.number c.value)
  link : decls.link c.name = c.aliasOf

/-- If all contributions follow the declarations, some name of each number stands alone: the
last one on the chain of aliases that is there. -/
theorem exists_standsAlone_of_follows {decls : EnumDeclarations}
    (hfollows : ∀ c ∈ entries, c.Follows decls) {c : Contribution} (hc : c ∈ entries) :
    ∃ e ∈ entries, e.value = c.value ∧ standsAlone entries e = true := by
  obtain ⟨last, hleads, hlast⟩ := (hfollows c hc).ends
  generalize hname : c.name = name at hleads
  induction hleads using Relation.ReflTransGen.head_induction_on generalizing c with
  | refl =>
      have hlink := (hfollows c hc).link
      rw [hname, EnumDeclarations.link_eq_none_of_number hlast] at hlink
      exact ⟨c, hc, rfl, by simp [standsAlone, ← hlink]⟩
  | @head name target hstep hleads ih =>
      have halias : c.aliasOf = some target := by
        rw [← (hfollows c hc).link, hname]
        exact hstep
      by_cases hthere : ∃ d ∈ entries, d.name = target
      · obtain ⟨d, hd, hdname⟩ := hthere
        obtain ⟨other, hother, hnumber⟩ := (hfollows d hd).ends
        rw [hdname] at hother
        have hvalue : d.value = c.value :=
          EnumDeclarations.value_unique hother hleads hnumber hlast
        obtain ⟨e, he, hsame, halone⟩ := ih hd (by rw [hvalue]; exact hlast) hdname
        exact ⟨e, he, hsame.trans hvalue, halone⟩
      · refine ⟨c, hc, rfl, ?_⟩
        simp only [standsAlone, halias, List.all_eq_true, decide_eq_true_eq]
        exact fun d hd hdname => hthere ⟨d, hd, hdname⟩

theorem represented_of_follows {decls : EnumDeclarations}
    (hfollows : ∀ c ∈ entries, c.Follows decls) : Represented entries :=
  fun _ hc _ _ _ _ => exists_standsAlone_of_follows hfollows hc

end Contribution

namespace EnumDeclarations

variable {decls : EnumDeclarations} {c : Contribution}

theorem link?_of_ofBlock {value : ValueDecl} {spec : ValueSpec}
    (h : ValueSpec.ofBlock value = .ok spec) : spec.link? = value.aliasOf := by
  unfold ValueSpec.ofBlock at h
  split at h
  · next name hname =>
      rw [← Except.ok.inj h, hname]
      rfl
  · next bit hnone _ =>
      obtain ⟨number, -, rfl⟩ := Outcome.map_eq_ok.mp h
      rw [hnone]
      rfl
  · next text hnone _ _ =>
      obtain ⟨number, -, rfl⟩ := Outcome.map_eq_ok.mp h
      rw [hnone]
      rfl
  · simp [ValueSpec.Fault.of] at h

theorem follows_of_blockContribution {value : ValueDecl} {spec : ValueSpec}
    (hread : ValueSpec.ofBlock value = .ok spec) (hspec : decls.spec? value.name = some spec)
    (h : value.contribution decls = .ok c) : c.Follows decls := by
  obtain ⟨number, hnumber, h⟩ := Outcome.bind_eq_ok.mp h
  rw [Outcome.pure_eq_ok] at h
  rw [← h]
  refine ⟨leads_of_valueOf hnumber, ?_⟩
  show decls.link value.name = value.aliasOf
  rw [link, hspec, Option.bind_some, link?_of_ofBlock hread]

theorem follows_of_addedContribution {value : AddedValue}
    (hspec : decls.spec? value.name = some value.spec) (h : value.contribution decls = .ok c) :
    c.Follows decls := by
  unfold AddedValue.contribution at h
  split at h
  · next number hnumber =>
      rw [hnumber] at hspec
      rw [← Except.ok.inj h]
      exact ⟨⟨value.name, Relation.ReflTransGen.refl, hspec⟩, link_eq_none_of_number hspec⟩
  · next target htarget =>
      obtain ⟨number, hnumber, h⟩ := Outcome.bind_eq_ok.mp h
      rw [Outcome.pure_eq_ok] at h
      have hlink : decls.link value.name = some target := by
        rw [link, hspec, htarget]
        rfl
      obtain ⟨last, hleads, hlast⟩ := leads_of_valueOf hnumber
      rw [← h]
      exact ⟨⟨last, Relation.ReflTransGen.head hlink hleads, hlast⟩, hlink⟩

end EnumDeclarations

/-! ### What is merged -/

variable {doc : Document} {set : ActiveSet} {decls : EnumDeclarations} {enumeration : String}
  {id : TypeId}

/-- Every contribution is that of a value of the block or of an added one. -/
theorem exists_value_of_contributionsTo {core extension : List Contribution}
    (h : contributionsTo doc set decls enumeration id = .ok (core, extension)) {c : Contribution}
    (hc : c ∈ core ++ extension) :
    (∃ value ∈ set.blockValues (enumBlock? doc.enums enumeration),
        value.contribution decls = .ok c) ∨
      ∃ value ∈ set.values, value.enumeration = id ∧ value.contribution decls = .ok c := by
  obtain ⟨own, hown, h⟩ := Outcome.bind_eq_ok.mp h
  obtain ⟨added, hadded, h⟩ := Outcome.bind_eq_ok.mp h
  rw [Outcome.pure_eq_ok, Prod.mk.injEq] at h
  obtain ⟨rfl, rfl⟩ := h
  have hofAdded : ∀ pair ∈ added, pair.2 = c →
      ∃ value ∈ set.values, value.enumeration = id ∧ value.contribution decls = .ok c := by
    rintro pair hpair rfl
    obtain ⟨value, hvalue, hread⟩ := Outcome.exists_of_mem_mapM hadded hpair
    obtain ⟨found, hfound, hread⟩ := Outcome.bind_eq_ok.mp hread
    rw [Outcome.pure_eq_ok] at hread
    obtain ⟨hmem, henum⟩ := List.mem_filter.mp hvalue
    exact ⟨value, hmem, by simpa using henum, by rw [hfound, ← hread]⟩
  rw [List.append_assoc, List.mem_append, List.mem_append] at hc
  rcases hc with hown' | hcore | hextension
  · exact Or.inl (Outcome.exists_of_mem_mapM hown hown')
  · obtain ⟨pair, hpair, hsame⟩ := List.mem_map.mp hcore
    exact Or.inr (hofAdded pair (List.mem_filter.mp hpair).1 hsame)
  · obtain ⟨pair, hpair, hsame⟩ := List.mem_map.mp hextension
    exact Or.inr (hofAdded pair (List.mem_filter.mp hpair).1 hsame)

section Merged

variable {core extension : List Contribution} {layout : EnumLayout}
  (h : Contribution.merge core extension = layout.values)

include h

theorem canonical_of_merge :
    layout.canonical = (Contribution.merge core extension).filter (·.aliasOf.isNone) := by
  rw [h]
  rfl

/-- Among merged values, an alias leads to a value of the same number that is no alias. -/
theorem exists_canonical_of_merge {v : EnumValue} (hv : v ∈ layout.values) {name : String}
    (halias : v.aliasOf = some name) :
    ∃ w ∈ layout.canonical, w.name = name ∧ w.value = v.value := by
  rw [← h] at hv
  obtain ⟨c, -, rfl⟩ := List.mem_map.mp hv
  obtain ⟨e, he, hname, hvalue, hnone⟩ := Contribution.exists_canonical_of_aliasOf halias
  refine ⟨Contribution.toValue (Contribution.firstOfEach (core ++ extension)) e, ?_, hname, hvalue⟩
  rw [canonical_of_merge h, List.mem_filter]
  exact ⟨List.mem_map.mpr ⟨e, he, rfl⟩, by simp [hnone]⟩

/-- The names of merged values are distinct, so every number is named once if and only if
shared numbers are represented. -/
theorem namedOnce_iff_represented :
    layout.NamedOnce ↔ Contribution.Represented (Contribution.firstOfEach (core ++ extension)) := by
  rw [← Contribution.nodup_canonical_iff (Contribution.nodup_names_firstOfEach _)]
  constructor
  · intro hnamed
    have hunique := hnamed.unique
    rwa [canonical_of_merge h] at hunique
  · intro hunique
    refine ⟨?_, fun v hv name halias => exists_canonical_of_merge h hv halias⟩
    rwa [canonical_of_merge h]

end Merged

end VulkanRegistry
