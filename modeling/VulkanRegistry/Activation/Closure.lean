/-
The closure of what is in use.

Whatever an entity in use mentions is in use as well, and has the origins of whoever
mentions it among its own.  A command that is an alias mentions its command, and so on
along the chain; commands mention the types of their results and parameters; types
mention the targets of aliases, the owners of handles, the parts of bitmasks, what
typedefs name and the types of members.  To mention something that was removed is a
failure.

Types are closed with a stack of types whose origins have yet to be passed on.  Passing
them on puts a mentioned type on the stack only if it gains an origin, and there are
only so many origins to gain: every origin comes from a type that already had it, so the
origins at the start are all there ever are.  `ActiveSet.lacking` counts those that are
still missing.  Together with the height of the stack it is the work that is left: a type
that is put on the stack pays for its place with an origin, so the work goes down with
every type that is taken off.
-/
import VulkanRegistry.Activation.Directive
import VulkanRegistry.Trail

namespace VulkanRegistry

/-! ### Aliases of commands -/

namespace EntityIndex

/-- The name that the declaration of a command is an alias of. -/
def aliasLink (index : EntityIndex) (name : String) : Option String :=
  ((index.command? name).bind index.decl?).bind (·.aliasOf)

/-- The chain of aliases that starts at a command. -/
def aliasTrail (index : EntityIndex) (name : String) : Trail String :=
  Trail.follow (index.commands.map (·.name)) index.aliasLink name

/-- Brings in the command `target`, which the command `alias` is another name for. -/
def pullCommand (index : EntityIndex) (origins : List Origin) (set : ActiveSet)
    (pair : String × String) : Outcome ActiveSet :=
  let (referrer, target) := pair
  match index.command? target with
  | none => .error (.unknownCommand target referrer)
  | some place =>
      if (set.commandAt place).removed then .error (.unknownCommand target referrer)
      else .ok (set.requireCommand place origins)

/-- Brings in the commands along the chain of aliases of a command, if that is in use. -/
def closeCommand (index : EntityIndex) (set : ActiveSet) (placed : Nat × CommandDecl) :
    Outcome ActiveSet := do
  let (place, decl) := placed
  if (set.commandAt place).isActive then
    let trail := index.aliasTrail decl.name
    let closed ← (trail.path.zip trail.later).foldlM
      (index.pullCommand (set.commandAt place).origins) set
    match trail.ending with
    | .stops => return closed
    | .cycles target => throw (.cyclicAlias (trail.path ++ [target]))
    | .leaves target => throw (.unknownCommand target trail.last)
  else return set

/-- Closes the commands in use under their aliases. -/
def closeCommands (index : EntityIndex) (set : ActiveSet) : Outcome ActiveSet :=
  index.placed.foldlM index.closeCommand set

end EntityIndex

/-! ### Mentioned types -/

/-- The types that a command names, each with who names it. -/
def CommandDecl.mentions (decl : CommandDecl) : List (String × String) :=
  (if decl.aliasOf.isNone then [(decl.returnType, decl.name)] else []) ++
    decl.params.map fun p => (p.typeName, decl.name ++ "." ++ p.name)

namespace TypeTable

/-- The types that a member of `owner` names. -/
def memberMention (table : TypeTable) (owner : String) (field : FieldDecl) :
    Outcome (TypeId × String) := do
  let referrer := owner ++ "." ++ field.name
  let id ← table.require field.typeName referrer
  return (id, referrer)

/-- The types that an entry refers to, each with who refers to it. -/
def entryMentions (table : TypeTable) (entry : TypeEntry) : Outcome (List (TypeId × String)) :=
  let byEntry (ids : List (Option TypeId)) : Outcome (List (TypeId × String)) :=
    .ok ((ids.filterMap id).map fun id => (id, entry.name))
  let byMembers : Outcome (List (TypeId × String)) :=
    ((entry.decl.map (·.members)).getD []).mapM (table.memberMention entry.name)
  match entry.kind with
  | .aliasTo target => byEntry [some target]
  | .handle layout => byEntry [layout.parent]
  | .bitmask bits flags => byEntry [bits, flags]
  | .base underlying => byEntry [underlying]
  | .struct _ => byMembers
  | .union _ => byMembers
  | .functionPointer => .ok []
  | .enumeration _ => .ok []

/-- The types that the type at an id refers to, each with who refers to it. -/
def mentions (table : TypeTable) (id : TypeId) : Outcome (List (TypeId × String)) :=
  match table.get? id with
  | some entry => table.entryMentions entry
  | none => .ok []

end TypeTable

/-! ### Passing origins on -/

namespace ActiveSet

/-- All origins of types, with repetitions. -/
def typeOrigins (set : ActiveSet) : List Origin :=
  set.types.flatMap (·.origins)

/-- No type has an origin outside `world`. -/
def Within (world : List Origin) (set : ActiveSet) : Prop :=
  ∀ a ∈ set.types, ∀ o ∈ a.origins, o ∈ world

/-- How many origins of `world` an entity does not have. -/
def lackingAt (world : List Origin) (a : Activation) : Nat :=
  world.countP (· ∉ a.origins)

/-- How many origins of `world` the types do not have, all together. -/
def lacking (world : List Origin) (set : ActiveSet) : Nat :=
  set.types.foldr (fun a n => lackingAt world a + n) 0

/-- Whether a type would gain one of these origins. -/
def gains (set : ActiveSet) (id : TypeId) (origins : List Origin) : Bool :=
  match set.types[id.index]? with
  | none => false
  | some a => origins.any (· ∉ a.origins)

theorem within_typeOrigins (set : ActiveSet) : set.Within set.typeOrigins :=
  fun a ha _ ho => List.mem_flatMap.mpr ⟨a, ha, ho⟩

theorem mem_world_of_typeAt {world : List Origin} {set : ActiveSet} (h : set.Within world)
    (id : TypeId) : ∀ o ∈ (set.typeAt id).origins, o ∈ world := by
  intro o ho
  unfold typeAt at ho
  cases hget : set.types[id.index]? with
  | none => rw [hget] at ho; simp [Activation.idle] at ho
  | some a =>
      rw [hget] at ho
      exact h a (List.mem_of_getElem? hget) o ho

theorem countP_lt_countP {α : Type} {p q : α → Bool} {x : α} {list : List α}
    (himp : ∀ y ∈ list, p y → q y) (hx : x ∈ list) (hq : q x = true) (hp : p x = false) :
    list.countP p < list.countP q := by
  induction list with
  | nil => simp at hx
  | cons y ys ih =>
      have hle : ys.countP p ≤ ys.countP q :=
        List.countP_mono_left fun z hz => himp z (by simp [hz])
      have hy := himp y (by simp)
      rw [List.countP_cons, List.countP_cons]
      rcases List.mem_cons.mp hx with rfl | hx
      · simp only [hp, hq, if_true, Bool.false_eq_true, if_false]
        omega
      · have := ih (fun z hz => himp z (by simp [hz])) hx
        by_cases hpy : p y = true
        · simp only [hpy, hy hpy, if_true]
          omega
        · simp only [hpy, Bool.false_eq_true, if_false]
          omega

theorem lackingAt_require_lt {world origins : List Origin} {a : Activation}
    (hworld : ∀ o ∈ origins, o ∈ world) (hgain : origins.any (· ∉ a.origins) = true) :
    lackingAt world (a.require origins) < lackingAt world a := by
  obtain ⟨o, ho, hnew⟩ := List.any_eq_true.mp hgain
  refine countP_lt_countP (fun x _ hx => ?_) (hworld o ho) hnew ?_
  · simp only [Activation.require, decide_eq_true_eq, Origin.mem_insertAll, not_or] at hx ⊢
    exact hx.2
  · simp [Activation.require, Origin.mem_insertAll, ho]

/-- Lowering one summand lowers the sum. -/
theorem foldr_add_modify_lt {α : Type} {f : α → α} {g : α → Nat} {list : List α} {i : Nat} {a : α}
    (hget : list[i]? = some a) (hlt : g (f a) < g a) :
    (list.modify i f).foldr (fun x n => g x + n) 0 < list.foldr (fun x n => g x + n) 0 := by
  induction list generalizing i with
  | nil => simp at hget
  | cons x xs ih =>
      cases i with
      | zero =>
          simp only [List.getElem?_cons_zero, Option.some.injEq] at hget
          subst hget
          simpa using hlt
      | succ i => simpa using ih (by simpa using hget)

theorem mem_modify {α : Type} {f : α → α} {list : List α} {i : Nat} {x : α}
    (h : x ∈ list.modify i f) : x ∈ list ∨ ∃ a ∈ list, x = f a := by
  induction list generalizing i with
  | nil => simp at h
  | cons y ys ih =>
      cases i with
      | zero =>
          simp only [List.modify_zero_cons, List.mem_cons] at h
          rcases h with rfl | h
          · exact Or.inr ⟨y, by simp, rfl⟩
          · exact Or.inl (by simp [h])
      | succ i =>
          simp only [List.modify_succ_cons, List.mem_cons] at h
          rcases h with rfl | h
          · exact Or.inl (by simp)
          · rcases ih h with h | ⟨a, ha, rfl⟩
            · exact Or.inl (by simp [h])
            · exact Or.inr ⟨a, by simp [ha], rfl⟩

theorem within_requireType {world origins : List Origin} {set : ActiveSet} {id : TypeId}
    (h : set.Within world) (hworld : ∀ o ∈ origins, o ∈ world) :
    (set.requireType id origins).Within world := by
  intro a ha o ho
  rcases mem_modify ha with ha | ⟨b, hb, rfl⟩
  · exact h a ha o ho
  · simp only [Activation.require, Origin.mem_insertAll] at ho
    rcases ho with ho | ho
    · exact hworld o ho
    · exact h b hb o ho

theorem lacking_requireType_lt {world origins : List Origin} {set : ActiveSet} {id : TypeId}
    (hworld : ∀ o ∈ origins, o ∈ world) (hgain : set.gains id origins = true) :
    lacking world (set.requireType id origins) < lacking world set := by
  unfold gains at hgain
  split at hgain
  · simp at hgain
  · next a hget => exact foldr_add_modify_lt hget (lackingAt_require_lt hworld hgain)

end ActiveSet

/-! ### Closing the types -/

/-- What is in use so far, and the types whose origins are to be passed on, next one first. -/
structure Passing where
  set : ActiveSet
  pending : List TypeId
  deriving DecidableEq, Repr, Inhabited

/-- How much is left to do: the origins that can still be gained, and the types on the stack. -/
def Passing.work (world : List Origin) (state : Passing) : Nat :=
  state.set.lacking world + state.pending.length

namespace TypeTable

/-- Passes origins on to a type that is mentioned. -/
def pullType (table : TypeTable) (origins : List Origin) (state : Passing)
    (mention : TypeId × String) : Outcome Passing :=
  let (id, referrer) := mention
  if (state.set.typeAt id).removed then .error (.unknownType (table.nameOf id) referrer)
  else if state.set.gains id origins then
    .ok ⟨state.set.requireType id origins, id :: state.pending⟩
  else .ok state

/-- Passes origins on to a type that is mentioned by name. -/
def pullNamed (table : TypeTable) (origins : List Origin) (state : Passing)
    (mention : String × String) : Outcome Passing := do
  let (name, referrer) := mention
  let id ← table.require name referrer
  table.pullType origins state (id, referrer)

/-- A type that is put on the stack pays for its place with an origin that it gains. -/
theorem pullType_work {table : TypeTable} {world origins : List Origin}
    {state next : Passing} {mention : TypeId × String} (hwithin : state.set.Within world)
    (hworld : ∀ o ∈ origins, o ∈ world) (h : table.pullType origins state mention = .ok next) :
    next.set.Within world ∧ next.work world ≤ state.work world := by
  unfold pullType at h
  dsimp only at h
  split at h
  · simp at h
  · split at h
    · next hgain =>
        simp only [Except.ok.injEq] at h
        subst h
        have hless := ActiveSet.lacking_requireType_lt hworld hgain
        refine ⟨ActiveSet.within_requireType hwithin hworld, ?_⟩
        simp only [Passing.work, List.length_cons]
        omega
    · simp only [Except.ok.injEq] at h
      subst h
      exact ⟨hwithin, Nat.le_refl _⟩

theorem pullTypes_work {table : TypeTable} {world origins : List Origin}
    {mentions : List (TypeId × String)} (state : Passing) {next : Passing}
    (hwithin : state.set.Within world) (hworld : ∀ o ∈ origins, o ∈ world)
    (h : mentions.foldlM (table.pullType origins) state = .ok next) :
    next.set.Within world ∧ next.work world ≤ state.work world := by
  induction mentions generalizing state with
  | nil =>
      simp only [List.foldlM_nil, pure, Except.pure, Except.ok.injEq] at h
      subst h
      exact ⟨hwithin, Nat.le_refl _⟩
  | cons mention mentions ih =>
      rw [List.foldlM_cons] at h
      cases hstep : table.pullType origins state mention with
      | error e => simp [hstep, bind, Except.bind] at h
      | ok middle =>
          simp only [hstep, bind, Except.bind] at h
          obtain ⟨hmiddle, hless⟩ := pullType_work hwithin hworld hstep
          obtain ⟨hnext, hmore⟩ := ih middle hmiddle h
          exact ⟨hnext, Nat.le_trans hmore hless⟩

/-- Passes origins on until no type is pending.  No type has an origin outside `world`. -/
def settle (table : TypeTable) (world : List Origin) (state : Passing)
    (hwithin : state.set.Within world) : Outcome ActiveSet :=
  match _hpending : state.pending with
  | [] => .ok state.set
  | id :: pending =>
      match table.mentions id with
      | .error fault => .error fault
      | .ok mentions =>
          match hnext : mentions.foldlM (table.pullType (state.set.typeAt id).origins)
              ⟨state.set, pending⟩ with
          | .error fault => .error fault
          | .ok next =>
              have hwork := pullTypes_work ⟨state.set, pending⟩ hwithin
                (ActiveSet.mem_world_of_typeAt hwithin id) hnext
              settle table world next hwork.1
  termination_by state.work world
  decreasing_by
    have hle := hwork.2
    simp only [Passing.work, ‹state.pending = _›, List.length_cons] at hle ⊢
    omega

end TypeTable

/-! ### Closing everything -/

/-- Passes the origins of a command on to the types it mentions, if it is in use. -/
def pullMentions (table : TypeTable) (state : Passing) (placed : Nat × CommandDecl) :
    Outcome Passing :=
  let (place, decl) := placed
  let activation := state.set.commandAt place
  if activation.isActive then
    decl.mentions.foldlM (table.pullNamed activation.origins) state
  else .ok state

/-- The types in use, in order. -/
def ActiveSet.activeTypes (set : ActiveSet) (table : TypeTable) : List TypeId :=
  table.ids.filter fun id => (set.typeAt id).isActive

/-- Closes what is in use under mentions. -/
def closeMentions (set : ActiveSet) (table : TypeTable) (index : EntityIndex) :
    Outcome ActiveSet := do
  let commandsClosed ← index.closeCommands set
  let mentioned ← index.placed.foldlM (pullMentions table) ⟨commandsClosed, []⟩
  let pending := mentioned.set.activeTypes table ++ mentioned.pending
  table.settle mentioned.set.typeOrigins ⟨mentioned.set, pending⟩ mentioned.set.within_typeOrigins

end VulkanRegistry
