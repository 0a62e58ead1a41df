/-
What calls make of a table of constants.

A call defines a name by a literal or as another name for a constant, and it adds at most one
constant: one that fails, or whose name is taken, changes nothing (`ConstantCall.settle_cases`).
So a table that was empty holds, after any calls, what the first successful call for each name
made, in the order of these calls, and other names stand for constants with literals
(`keepsFirst`).

A table in use has its constants in an array and, beside it, a map from names to places.  The two
are kept in step: the map finds the place of the first constant of a name (`Represents`), so what
is looked up through it is what the table finds, and every place it gives is in the array.
-/
import Mathlib.Data.List.Induction
import Mathlib.Data.List.Nodup
import VulkanRegistry.Constant.Indexed
import VulkanRegistry.Proofs.Constant.Table

namespace VulkanRegistry

namespace ConstantCall

/-- The constant that a call stands for in a table. -/
def constant? (table : ConstantTable) : ConstantCall → Option Constant
  | literal name text ctype => some (.ofLiteral name text ctype)
  | copy name target => (table.get? target).map (·.renamed name)

/-- The table after a call: the one it makes, or where it fails the one there was. -/
def settle (table : ConstantTable) (call : ConstantCall) : ConstantTable :=
  (call.perform table).toOption.getD table

/-- The calls that succeed, if they are made one after the other. -/
def succeeding : ConstantTable → List ConstantCall → List ConstantCall
  | _, [] => []
  | table, call :: calls =>
      if (call.perform table).toOption.isSome then call :: succeeding (call.settle table) calls
      else succeeding (call.settle table) calls

end ConstantCall

/-- The table that calls leave, made one after the other from no constants. -/
def ConstantTable.ofCalls (calls : List ConstantCall) : ConstantTable :=
  calls.foldl ConstantCall.settle .empty

namespace IndexedConstants

/-- What calls leave, made one after the other from no constants. -/
def ofCalls (calls : List ConstantCall) : IndexedConstants :=
  calls.foldl (fun indexed call => (indexed.perform call).2) empty

/-- The array has the constants of the table, and the map the first place of each name. -/
structure Represents (indexed : IndexedConstants) (table : ConstantTable) : Prop where
  row_eq : indexed.row.toList = table.entries
  places_eq : ∀ name, indexed.places[name]? = table.entries.findIdx? (·.name == name)

end IndexedConstants

/-- What calls make of a table that was empty. -/
structure KeepsFirst (calls : List ConstantCall) : Prop where
  nodup : ((ConstantTable.ofCalls calls).entries.map (·.name)).Nodup
  /-- The constants stand in the order in which their names were first defined. -/
  names : (ConstantTable.ofCalls calls).entries.map (·.name) =
    ((ConstantCall.succeeding .empty calls).map (·.name)).eraseDups
  /-- What the first successful call for a name adds is found under the name ever after. -/
  created : ∀ (before : List ConstantCall) (call : ConstantCall) (after : List ConstantCall),
    calls = before ++ call :: after →
    call.name ∉ (ConstantCall.succeeding .empty before).map (·.name) →
    ∀ table, call.perform (ConstantTable.ofCalls before) = .ok table →
      ∃ constant, call.constant? (ConstantTable.ofCalls before) = some constant ∧
        constant.name = call.name ∧
        table.entries = (ConstantTable.ofCalls before).entries ++ [constant] ∧
        (ConstantTable.ofCalls calls).get? call.name = some constant
  /-- Other names stand for constants with literals and have all that these have. -/
  collapsed : ∀ constant ∈ (ConstantTable.ofCalls calls).entries, ∀ target,
    constant.aliasOf = some target →
      ∃ canonical, (ConstantTable.ofCalls calls).get? target = some canonical ∧
        canonical.aliasOf = none ∧ canonical.literal = constant.literal ∧
        canonical.value = constant.value ∧ canonical.ctype = constant.ctype
  fails_iff : ∀ (call : ConstantCall) fault,
    call.perform (ConstantTable.ofCalls calls) = .error fault ↔
    ∃ name target, call = .copy name target ∧ fault = .unknownConstant target name ∧
      (ConstantTable.ofCalls calls).contains name = false ∧
      (ConstantTable.ofCalls calls).get? target = none
  taken : ∀ call : ConstantCall, (ConstantTable.ofCalls calls).contains call.name = true →
    call.perform (ConstantTable.ofCalls calls) = .ok (ConstantTable.ofCalls calls)
  /-- The array and the map answer like the table. -/
  inStep : (IndexedConstants.ofCalls calls).Represents (ConstantTable.ofCalls calls) ∧
    (∀ name, (IndexedConstants.ofCalls calls).get? name =
      (ConstantTable.ofCalls calls).get? name) ∧
    ∀ call : ConstantCall, ((IndexedConstants.ofCalls calls).perform call).1 =
      (call.perform (ConstantTable.ofCalls calls)).map fun _ => ()
  /-- They stay as they are if a call fails or its name is taken. -/
  unchanged : ∀ call : ConstantCall,
    (∃ fault, ((IndexedConstants.ofCalls calls).perform call).1 = .error fault) ∨
        (IndexedConstants.ofCalls calls).places.contains call.name = true →
      ((IndexedConstants.ofCalls calls).perform call).2 = IndexedConstants.ofCalls calls

namespace ConstantTable

variable {table : ConstantTable} {name : String} {constant : Constant}

theorem contains_eq_true_iff : table.contains name = true ↔ name ∈ table.entries.map (·.name) := by
  rw [contains, get?, List.find?_isSome]
  simp

theorem contains_eq_false_iff :
    table.contains name = false ↔ name ∉ table.entries.map (·.name) := by
  rw [← contains_eq_true_iff, Bool.not_eq_true]

theorem insertNew_of_new (h : table.contains constant.name = false) :
    table.insertNew constant = ⟨table.entries ++ [constant]⟩ := by
  rw [insertNew, h]
  rfl

end ConstantTable

namespace ConstantCall

variable {table : ConstantTable} {call : ConstantCall} {constant : Constant}

/-! ### One call -/

theorem name_of_constant? (h : call.constant? table = some constant) :
    constant.name = call.name := by
  cases call with
  | literal name text ctype =>
      cases h
      rfl
  | copy name target =>
      obtain ⟨found, -, rfl⟩ := Option.map_eq_some_iff.mp h
      rfl

theorem perform_of_taken (h : table.contains call.name = true) :
    call.perform table = .ok table := by
  cases call with
  | literal name text ctype => exact congrArg Except.ok (if_pos h)
  | copy name target => exact if_pos h

theorem perform_of_constant? (hnew : table.contains call.name = false)
    (h : call.constant? table = some constant) :
    call.perform table = .ok (table.insertNew constant) := by
  cases call with
  | literal name text ctype =>
      cases h
      rfl
  | copy name target =>
      obtain ⟨found, hfound, rfl⟩ := Option.map_eq_some_iff.mp h
      have hfree : table.contains name = false := hnew
      simp [perform, ConstantTable.defineAlias, hfree, hfound, Constant.renamed]

/-- What stands for no constant is another name for something that is not there. -/
theorem perform_of_none (hnew : table.contains call.name = false)
    (h : call.constant? table = none) :
    ∃ name target, call = copy name target ∧ table.get? target = none ∧
      call.perform table = .error (.unknownConstant target name) := by
  cases call with
  | literal name text ctype => cases h
  | copy name target =>
      have hmissing : table.get? target = none := Option.map_eq_none_iff.mp h
      exact ⟨name, target, rfl, hmissing, ConstantTable.defineAlias_of_unknown hnew hmissing⟩

/-- A call changes nothing, or its name is new and the constant that it stands for is added. -/
theorem settle_cases (table : ConstantTable) (call : ConstantCall) :
    call.settle table = table ∧
        ((call.perform table).toOption.isSome = true → table.contains call.name = true) ∨
      ∃ constant, table.contains call.name = false ∧ call.constant? table = some constant ∧
        constant.name = call.name ∧ call.perform table = .ok (table.insertNew constant) ∧
        call.settle table = table.insertNew constant := by
  cases htaken : table.contains call.name with
  | true =>
      refine .inl ⟨?_, fun _ => rfl⟩
      rw [settle, perform_of_taken htaken]
      rfl
  | false =>
      cases hconstant : call.constant? table with
      | some constant =>
          have hperform := perform_of_constant? htaken hconstant
          refine .inr ⟨constant, rfl, rfl, name_of_constant? hconstant, hperform, ?_⟩
          rw [settle, hperform]
          rfl
      | none =>
          obtain ⟨name, target, -, -, hperform⟩ := perform_of_none htaken hconstant
          refine .inl ⟨?_, fun hok => ?_⟩
          · rw [settle, hperform]
            rfl
          · rw [hperform] at hok
            cases hok

theorem perform_eq_error_iff {fault : RegistryError} : call.perform table = .error fault ↔
    ∃ name target, call = copy name target ∧ fault = .unknownConstant target name ∧
      table.contains name = false ∧ table.get? target = none := by
  constructor
  · intro h
    have hnew : table.contains call.name = false := by
      rw [← Bool.not_eq_true]
      intro htaken
      rw [perform_of_taken htaken] at h
      cases h
    have hnone : call.constant? table = none := by
      rw [Option.eq_none_iff_forall_ne_some]
      intro constant hconstant
      rw [perform_of_constant? hnew hconstant] at h
      cases h
    obtain ⟨name, target, rfl, hmissing, herror⟩ := perform_of_none hnew hnone
    rw [h, Except.error.injEq] at herror
    exact ⟨name, target, rfl, herror, hnew, hmissing⟩
  · rintro ⟨name, target, rfl, rfl, hnew, hmissing⟩
    exact ConstantTable.defineAlias_of_unknown hnew hmissing

/-- What is found under a name stays there. -/
theorem get?_settle {name : String} (h : table.get? name = some constant) :
    (call.settle table).get? name = some constant := by
  rcases settle_cases table call with ⟨hsame, -⟩ | ⟨added, -, -, -, -, hadded⟩
  · rwa [hsame]
  · rw [hadded, ConstantTable.get?_insertNew, h, Option.some_or]

theorem get?_foldl_settle {calls : List ConstantCall} {name : String}
    (h : table.get? name = some constant) :
    (calls.foldl settle table).get? name = some constant := by
  induction calls generalizing table with
  | nil => exact h
  | cons call calls ih => exact ih (get?_settle h)

end ConstantCall

namespace ConstantTable

open ConstantCall

variable {table : ConstantTable} {calls : List ConstantCall}

theorem ofCalls_append (calls others : List ConstantCall) :
    ofCalls (calls ++ others) = others.foldl settle (ofCalls calls) :=
  List.foldl_append

theorem ofCalls_concat (calls : List ConstantCall) (call : ConstantCall) :
    ofCalls (calls ++ [call]) = call.settle (ofCalls calls) :=
  ofCalls_append calls [call]

theorem succeeding_append (calls others : List ConstantCall) (table : ConstantTable) :
    succeeding table (calls ++ others) =
      succeeding table calls ++ succeeding (calls.foldl settle table) others := by
  induction calls generalizing table with
  | nil => rfl
  | cons call calls ih =>
      rw [List.cons_append, succeeding, succeeding, ih, List.foldl_cons]
      split <;> rfl

/-! ### Any calls -/

/-- What holds of no constants and outlasts the addition of a constant under a new name holds
after any calls. -/
theorem ofCalls_induction (P : ConstantTable → Prop) (hempty : P empty)
    (hadd : ∀ table (call : ConstantCall) constant, P table →
      table.contains constant.name = false → call.constant? table = some constant →
      P (table.insertNew constant)) (calls : List ConstantCall) : P (ofCalls calls) := by
  refine List.foldlRecOn calls settle hempty fun table htable call _ => ?_
  rcases settle_cases table call with ⟨hsame, -⟩ | ⟨constant, hnew, hconstant, hname, -, hadded⟩
  · rwa [hsame]
  · rw [hadded]
    exact hadd table call constant htable (hname ▸ hnew) hconstant

theorem nodup_ofCalls (calls : List ConstantCall) :
    ((ofCalls calls).entries.map (·.name)).Nodup := by
  refine ofCalls_induction (fun table => (table.entries.map (·.name)).Nodup) .nil ?_ calls
  intro table call constant hnodup hnew _
  rw [insertNew_of_new hnew, List.map_append, List.map_singleton]
  exact List.nodup_append.mpr ⟨hnodup, List.nodup_singleton _, fun name hname other hother => by
    rw [List.mem_singleton.mp hother]
    exact fun heq => contains_eq_false_iff.mp hnew (heq ▸ hname)⟩

theorem names_ofCalls (calls : List ConstantCall) :
    (ofCalls calls).entries.map (·.name) =
      ((succeeding empty calls).map (·.name)).eraseDups := by
  induction calls using List.reverseRecOn with
  | nil => rfl
  | append_singleton calls call ih =>
      have hmem : (ofCalls calls).contains call.name = true ↔
          call.name ∈ (succeeding empty calls).map (·.name) := by
        rw [contains_eq_true_iff, ih, List.mem_eraseDups]
      have hlast : succeeding empty (calls ++ [call]) = succeeding empty calls ++
          if (call.perform (ofCalls calls)).toOption.isSome then [call] else [] :=
        succeeding_append calls [call] empty
      rw [ofCalls_concat, hlast, List.map_append, List.eraseDups_append, List.removeAll]
      rcases settle_cases (ofCalls calls) call with ⟨hsame, htaken⟩ |
        ⟨constant, hnew, -, hname, hperform, hadded⟩
      · -- A call that adds nothing fails, or its name has been met.
        rw [hsame, ih]
        split
        · next hok =>
            rw [List.map_singleton, List.filter_singleton,
              List.elem_eq_true_of_mem (hmem.mp (htaken hok))]
            exact (List.append_nil _).symm
        · exact (List.append_nil _).symm
      · have hfree : List.elem call.name ((succeeding empty calls).map (·.name)) = false := by
          rw [← Bool.not_eq_true, List.elem_iff, ← hmem, hnew]
          exact Bool.false_ne_true
        rw [hadded, insertNew_of_new (hname ▸ hnew), hperform, List.map_append, ih]
        change _ = _ ++ ([call.name].filter _).eraseDups
        rw [List.filter_singleton, hfree, ← hname]
        rfl

/-- In a table, other names stand for constants with literals and have all that these have. -/
def Collapsed (table : ConstantTable) : Prop :=
  ∀ constant ∈ table.entries, ∀ target, constant.aliasOf = some target →
    ∃ canonical, table.get? target = some canonical ∧ canonical.aliasOf = none ∧
      canonical.literal = constant.literal ∧ canonical.value = constant.value ∧
      canonical.ctype = constant.ctype

/-- Another name for an other name stands for what that stands for. -/
theorem Collapsed.exists_canonical {table : ConstantTable} (h : Collapsed table)
    {call : ConstantCall} {constant : Constant} (hconstant : call.constant? table = some constant)
    {target : String} (htarget : constant.aliasOf = some target) :
    ∃ canonical, table.get? target = some canonical ∧ canonical.aliasOf = none ∧
      canonical.literal = constant.literal ∧ canonical.value = constant.value ∧
      canonical.ctype = constant.ctype := by
  cases call with
  | literal name text ctype =>
      cases hconstant
      cases htarget
  | copy name source =>
      obtain ⟨found, hfound, rfl⟩ := Option.map_eq_some_iff.mp hconstant
      cases halias : found.aliasOf with
      | none =>
          have hname : found.name = target := by simpa [Constant.renamed, halias] using htarget
          rw [← hname, name_of_get? hfound]
          exact ⟨found, hfound, halias, rfl, rfl, rfl⟩
      | some other =>
          have hother : other = target := by simpa [Constant.renamed, halias] using htarget
          exact h found (List.mem_of_find?_eq_some hfound) target (hother ▸ halias)

theorem collapsed_ofCalls (calls : List ConstantCall) : Collapsed (ofCalls calls) := by
  refine ofCalls_induction Collapsed (fun _ h => absurd h List.not_mem_nil) ?_ calls
  intro table call added hcollapsed hnew hadded constant hmem target htarget
  have hcanonical : ∃ canonical, table.get? target = some canonical ∧ canonical.aliasOf = none ∧
      canonical.literal = constant.literal ∧ canonical.value = constant.value ∧
      canonical.ctype = constant.ctype := by
    rw [insertNew_of_new hnew] at hmem
    rcases List.mem_append.mp hmem with hold | hlast
    · exact hcollapsed constant hold target htarget
    · rw [List.mem_singleton.mp hlast] at htarget ⊢
      exact hcollapsed.exists_canonical hadded htarget
  obtain ⟨canonical, hget, hrest⟩ := hcanonical
  refine ⟨canonical, ?_, hrest⟩
  rw [get?_insertNew, hget, Option.some_or]

end ConstantTable

namespace IndexedConstants.Represents

variable {indexed : IndexedConstants} {table : ConstantTable}

/-! ### The array and the map -/

theorem get?_eq (h : indexed.Represents table) (name : String) :
    indexed.get? name = table.get? name := by
  rw [get?, h.places_eq, ConstantTable.get?, List.find?_eq_bind_findIdx?_getElem?, ← h.row_eq]
  simp

theorem contains_eq (h : indexed.Represents table) (name : String) :
    indexed.places.contains name = table.contains name := by
  rw [← Std.HashMap.isSome_getElem?_eq_contains, h.places_eq, List.findIdx?_isSome,
    ConstantTable.contains, ConstantTable.get?, List.isSome_find?]

theorem insert (h : indexed.Represents table) {constant : Constant}
    (hnew : table.contains constant.name = false) :
    (indexed.insert constant).Represents (table.insertNew constant) := by
  rw [ConstantTable.insertNew_of_new hnew]
  constructor
  case row_eq => simp [IndexedConstants.insert, h.row_eq]
  case places_eq =>
    intro name
    have hsize : indexed.row.size = table.entries.length := by
      rw [← h.row_eq, Array.length_toList]
    rw [IndexedConstants.insert, Std.HashMap.getElem?_insert, h.places_eq, List.findIdx?_append,
      List.findIdx?_singleton, hsize]
    by_cases hname : constant.name = name
    · have hnone : table.entries.findIdx? (·.name == name) = none := by
        rw [← h.places_eq, ← hname, ← Option.not_isSome_iff_eq_none,
          Std.HashMap.isSome_getElem?_eq_contains, h.contains_eq, hnew]
        exact Bool.false_ne_true
      simp [hname, hnone]
    · simp [hname]

/-- A call has the same outcome for both, and leaves both in step. -/
theorem perform (h : indexed.Represents table) (call : ConstantCall) :
    (indexed.perform call).1 = (call.perform table).map (fun _ => ()) ∧
      (indexed.perform call).2.Represents (call.settle table) := by
  cases htaken : table.contains call.name with
  | true =>
      have hindexed : indexed.perform call = (.ok (), indexed) := by
        cases call <;> exact if_pos (h.contains_eq _ ▸ htaken)
      rw [ConstantCall.settle, ConstantCall.perform_of_taken htaken, hindexed]
      exact ⟨rfl, h⟩
  | false =>
      have hfree : indexed.places.contains call.name = false := h.contains_eq _ ▸ htaken
      cases hconstant : call.constant? table with
      | some constant =>
          have hindexed : indexed.perform call = (.ok (), indexed.insert constant) := by
            cases call with
            | literal name text ctype =>
                cases hconstant
                have hname : indexed.places.contains name = false := hfree
                simp [IndexedConstants.perform, hname]
            | copy name target =>
                obtain ⟨found, hfound, rfl⟩ := Option.map_eq_some_iff.mp hconstant
                have hname : indexed.places.contains name = false := hfree
                simp [IndexedConstants.perform, hname, h.get?_eq, hfound]
          rw [ConstantCall.settle, ConstantCall.perform_of_constant? htaken hconstant, hindexed]
          have hnew : table.contains constant.name = false := by
            rwa [ConstantCall.name_of_constant? hconstant]
          exact ⟨rfl, h.insert hnew⟩
      | none =>
          obtain ⟨name, target, rfl, hmissing, herror⟩ :=
            ConstantCall.perform_of_none htaken hconstant
          have hindexed : indexed.perform (.copy name target) =
              (.error (.unknownConstant target name), indexed) := by
            have hname : indexed.places.contains name = false := hfree
            simp [IndexedConstants.perform, hname, h.get?_eq, hmissing]
          rw [ConstantCall.settle, herror, hindexed]
          exact ⟨rfl, h⟩

theorem ofCalls (calls : List ConstantCall) :
    (IndexedConstants.ofCalls calls).Represents (ConstantTable.ofCalls calls) := by
  induction calls using List.reverseRecOn with
  | nil => exact ⟨rfl, fun name => Std.HashMap.getElem?_empty⟩
  | append_singleton calls call ih =>
      rw [ConstantTable.ofCalls_concat, IndexedConstants.ofCalls, List.foldl_append]
      exact (ih.perform call).2

end IndexedConstants.Represents

namespace IndexedConstants

/-- Only a call that succeeds, for a name that is new, changes anything. -/
theorem perform_unchanged {indexed : IndexedConstants} {call : ConstantCall}
    (h : (∃ fault, (indexed.perform call).1 = .error fault) ∨
      indexed.places.contains call.name = true) : (indexed.perform call).2 = indexed := by
  cases htaken : indexed.places.contains call.name with
  | true => cases call <;> exact congrArg Prod.snd (if_pos htaken)
  | false =>
      obtain ⟨fault, hfault⟩ := h.resolve_right (by simp [htaken])
      cases call with
      | literal name text ctype =>
          have hname : indexed.places.contains name = false := htaken
          simp [perform, hname] at hfault
      | copy name target =>
          have hname : indexed.places.contains name = false := htaken
          cases hfound : indexed.get? target with
          | none => simp [perform, hname, hfound]
          | some found => simp [perform, hname, hfound] at hfault

end IndexedConstants

open ConstantTable in
/-- After any calls a table has what the first successful call for each name made, and the array
with the map beside it answers as the table does. -/
theorem keepsFirst (calls : List ConstantCall) : KeepsFirst calls := by
  have hinStep := IndexedConstants.Represents.ofCalls calls
  constructor
  case nodup => exact nodup_ofCalls calls
  case names => exact names_ofCalls calls
  case created =>
    intro before call after heq hfirst table hperform
    have hnew : (ofCalls before).contains call.name = false := by
      rwa [contains_eq_false_iff, names_ofCalls, List.mem_eraseDups]
    rcases ConstantCall.settle_cases (ofCalls before) call with ⟨-, htaken⟩ |
      ⟨constant, -, hconstant, hname, hadded, hsettle⟩
    · rw [hperform] at htaken
      rw [htaken rfl] at hnew
      cases hnew
    · rw [hperform, Except.ok.injEq] at hadded
      have hfree : (ofCalls before).contains constant.name = false := hname ▸ hnew
      have hnone : (ofCalls before).get? constant.name = none := by simpa [contains] using hfree
      refine ⟨constant, hconstant, hname, ?_, ?_⟩
      · rw [hadded, insertNew_of_new hfree]
      · rw [heq, ofCalls_append, List.foldl_cons, hsettle]
        refine ConstantCall.get?_foldl_settle ?_
        rw [← hname, get?_insertNew, hnone, if_pos rfl, Option.none_or]
  case collapsed => exact collapsed_ofCalls calls
  case fails_iff => exact fun call fault => ConstantCall.perform_eq_error_iff
  case taken => exact fun call => ConstantCall.perform_of_taken
  case inStep => exact ⟨hinStep, hinStep.get?_eq, fun call => (hinStep.perform call).1⟩
  case unchanged => exact fun call => IndexedConstants.perform_unchanged

end VulkanRegistry
