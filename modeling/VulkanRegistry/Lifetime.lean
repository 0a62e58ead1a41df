/-
Lifetimes of handles.

For every handle in use: the commands that create it or hand it out, the command that
destroys it, the pool it is taken from and the command that empties that pool.  Commands
are recognised by their names and by the shape of their parameters, and those that do not
fit are left out.

  * A creating command has one output of handles and at most one input structure besides
    the allocator.  Its first plain handle is the parent.  If it allocates and its
    structure holds a plain handle, that handle is a pool.
  * A destroying command takes a handle and an allocator, after an optional parent.
  * A freeing command takes a parent, a pool, a count and an array of handles.
  * A resetting command takes a parent and a pool.
-/
import VulkanRegistry.Command.Table

namespace VulkanRegistry

/-- How a command gets its handles. -/
inductive CreateKind
  | create
  /-- From a pool. -/
  | poolAllocate
  /-- They exist already. -/
  | get
  deriving DecidableEq, Repr, Inhabited

/-- A command that creates or hands out handles; parameters are told by their place. -/
structure CreateCommand where
  command : String
  parentParam : Option Nat
  /-- The structure that describes what to create. -/
  createInfo : Option TypeId
  createInfoParam : Option Nat
  /-- The member of that structure that names the pool. -/
  poolMember : Option String
  handleParam : Nat
  kind : CreateKind
  deriving DecidableEq, Repr, Inhabited

/-- A command that destroys handles or resets a pool. -/
structure DestroyCommand where
  command : String
  parentParam : Option Nat
  poolParam : Option Nat
  /-- The handle, unless a pool is reset. -/
  handleParam : Option Nat
  deriving DecidableEq, Repr, Inhabited

/-- The lifetime of the objects of one handle type. -/
structure HandleInfo where
  handle : TypeId
  /-- The parent in the sense of the first creating command. -/
  parent : Option TypeId
  pool : Option TypeId
  /-- The handle that is taken from this one, if this is a pool. -/
  poolElement : Option TypeId
  createCommands : List CreateCommand
  destroyCommand : Option DestroyCommand
  /-- The command that gives all of them back to their pool. -/
  resetCommand : Option DestroyCommand
  /-- The value that tells this kind of object. -/
  objectType : Option String
  deriving DecidableEq, Repr, Inhabited

/-- Nothing is known but the handle, its parent and its pool. -/
def HandleInfo.bare (handle : TypeId) (parent pool : Option TypeId) : HandleInfo :=
  ⟨handle, parent, pool, none, [], none, none, none⟩

/-- The lifetimes of all handles. -/
structure HandleInfoTable where
  infos : List HandleInfo
  deriving DecidableEq, Repr, Inhabited

namespace TypeTable

/-- A type is a handle. -/
def isHandle (types : TypeTable) (id : TypeId) : Bool :=
  (types.handle? id).isSome

/-- A type is a struct or union. -/
def isStruct (types : TypeTable) (id : TypeId) : Bool :=
  (types.struct? id).isSome

end TypeTable

namespace Lifetime

/-- The commands that hand out handles that exist already. -/
def getCommands : List String := [
  "vkEnumeratePhysicalDevices",
  "vkGetDeviceQueue",
  "vkGetDeviceQueue2",
  "vkGetSwapchainImagesKHR",
  "vkGetDisplayPlaneSupportedDisplaysKHR"]

/-- The commands that empty a pool. -/
def resetCommands : List String := ["vkResetDescriptorPool"]

/-- The structure of allocators. -/
def allocator : String := "VkAllocationCallbacks"

/-- The command that frees memory, which destroys in spite of its name. -/
def freeMemory : String := "vkFreeMemory"

/-- A command creates by its name. -/
def namedCreate (name : String) : Bool :=
  Text.startsWith name "vkCreate"

/-- A command allocates by its name. -/
def namedAllocate (name : String) : Bool :=
  Text.startsWith name "vkAllocate"

/-! ### Shapes of commands -/

/-- A parameter is a structure that a command reads, other than the allocator. -/
def isCreateInfo (types : TypeTable) (p : Member) : Bool :=
  p.singleIndirection? == some true && types.isStruct p.base && types.nameOf p.base != allocator

/-- A parameter is an output of handles. -/
def isHandleOutput (types : TypeTable) (p : Member) : Bool :=
  p.singleIndirection? == some false && types.isHandle p.base

/-- The places of the parameters of a shape. -/
def places (shape : Member → Bool) (params : List Member) : List Nat :=
  (params.zipIdx.filter fun (p, _) => shape p).map Prod.snd

/-- The type of the parameter at a place. -/
def typeAt? (params : List Member) (place : Nat) : Option TypeId :=
  (params[place]?).map (·.base)

/-- The member of a structure that holds a plain handle. -/
def poolMember? (types : TypeTable) (createInfo : Option TypeId) : Option Member :=
  ((createInfo.bind types.struct?).map (·.members)).getD [] |>.find?
    fun m => (types.plainHandle? m).isSome

/-- What a creating command is: the handle, its parent and its pool, and the command. -/
structure Creation where
  handle : TypeId
  parent : Option TypeId
  pool : Option TypeId
  create : CreateCommand
  deriving DecidableEq, Repr, Inhabited

/-- The kind of a command by its name, given the pool it would allocate from. -/
def createKind (name : String) (pool : Option Member) : CreateKind :=
  if namedCreate name then .create
  else if namedAllocate name then (if pool.isSome then .poolAllocate else .create)
  else .get

/-- Recognises a command that creates or hands out handles. -/
def creation? (types : TypeTable) (cmd : Command) : Option Creation :=
  match places (isHandleOutput types) cmd.params, places (isCreateInfo types) cmd.params with
  | [handleParam], infos =>
      if infos.length > 1 then none
      else do
        let handle ← typeAt? cmd.params handleParam
        let parentParam := cmd.params.findIdx? fun p => (types.plainHandle? p).isSome
        let createInfo := infos.head?.bind (typeAt? cmd.params)
        let kind := createKind cmd.name (poolMember? types createInfo)
        let pool := if kind = .poolAllocate then poolMember? types createInfo else none
        return {
          handle
          parent := parentParam.bind (typeAt? cmd.params)
          pool := pool.map (·.base)
          create := {
            command := cmd.name
            parentParam, createInfo
            createInfoParam := infos.head?
            poolMember := pool.map (·.name)
            handleParam, kind } }
  | _, _ => none

/-- A parameter is an allocator of some kind: a pointer to a structure. -/
def isAllocator (types : TypeTable) (p : Member) : Bool :=
  match p.modifiers with
  | [.pointer _] => types.isStruct p.base
  | _ => false

/-- Recognises a command that destroys a handle: the handle, and the command. -/
def destruction? (types : TypeTable) (cmd : Command) : Option (TypeId × DestroyCommand) :=
  let found (parentParam : Option Nat) (place : Nat) (object last : Member) :
      Option (TypeId × DestroyCommand) := do
    let handle ← types.plainHandle? object
    if isAllocator types last then
      some (handle, ⟨cmd.name, parentParam, none, some place⟩)
    else none
  match cmd.params with
  | [object, last] => found none 0 object last
  | [parent, object, last] =>
      if (types.plainHandle? parent).isSome then found (some 0) 1 object last else none
  | _ => none

/-- Recognises a command that gives handles back to a pool: the handle, and the command. -/
def freeing? (types : TypeTable) (cmd : Command) : Option (TypeId × DestroyCommand) :=
  match cmd.params with
  | [parent, pool, count, handles] =>
      if (types.plainHandle? parent).isSome && (types.plainHandle? pool).isSome &&
          count.isValue && types.nameOf count.base == "uint32_t" &&
          handles.length?.isSome && handles.modifiers.length == 1 && types.isHandle handles.base
      then some (handles.base, ⟨cmd.name, some 0, some 1, some 3⟩)
      else none
  | _ => none

/-- Recognises a command that empties a pool: the pool, and the command. -/
def reset? (types : TypeTable) (cmd : Command) : Option (TypeId × DestroyCommand) :=
  match cmd.params with
  | parent :: pool :: _ => do
      let _ ← types.plainHandle? parent
      let handle ← types.plainHandle? pool
      return (handle, ⟨cmd.name, some 0, some 1, none⟩)
  | _ => none

/-- Recognises what a command destroys or gives back. -/
def ending? (types : TypeTable) (cmd : Command) : Option (TypeId × DestroyCommand) :=
  if cmd.name == freeMemory || Text.startsWith cmd.name "vkDestroy" then destruction? types cmd
  else if Text.startsWith cmd.name "vkFree" then freeing? types cmd
  else none

/-! ### Object types -/

/-- The enumeration of the kinds of objects. -/
def objectEnumeration : String := "VkObjectType"

/-- The value that stands for no kind of object. -/
def unknownObject : String := "VK_OBJECT_TYPE_UNKNOWN"

/-- Writes a word with a capital letter. -/
def capitalized : List Char → List Char
  | [] => []
  | c :: cs => c.toUpper :: cs.map Char.toLower

/-- The words of the name of a handle; the tag of an author stays in capital letters if it
is the last word. -/
def handleWords : List (List Char) → List Char
  | [] => []
  | [word] =>
      let upper := word.map Char.toUpper
      if upper ∈ ["EXT".toList, "KHR".toList] then upper else capitalized word
  | word :: words => capitalized word ++ handleWords words

/-- The name of the handle whose kind of object a value spells. -/
def handleName (value : String) : String :=
  let cs := value.toList
  let tail := (Text.afterStart? "VK_OBJECT_TYPE_".toList cs).getD cs
  "Vk" ++ String.ofList (handleWords (tail.splitOnP (· == '_')))

end Lifetime

namespace HandleInfoTable

open Lifetime

/-- The lifetime of a handle. -/
def get? (table : HandleInfoTable) (handle : TypeId) : Option HandleInfo :=
  table.infos.find? (·.handle == handle)

/-- Whether the lifetime of a handle is recorded. -/
def contains (table : HandleInfoTable) (handle : TypeId) : Bool :=
  (table.get? handle).isSome

/-- Changes the lifetime of a handle. -/
def update (table : HandleInfoTable) (handle : TypeId) (f : HandleInfo → HandleInfo) :
    HandleInfoTable :=
  ⟨table.infos.map fun info => if info.handle = handle then f info else info⟩

/-- Adds a lifetime unless that of the handle is recorded. -/
def insert (table : HandleInfoTable) (info : HandleInfo) : HandleInfoTable :=
  if table.contains info.handle then table else ⟨table.infos ++ [info]⟩

/-- Records a creating command; the first one tells parent and pool. -/
def addCreation (table : HandleInfoTable) (c : Creation) : HandleInfoTable :=
  (table.insert (.bare c.handle c.parent c.pool)).update c.handle fun info =>
    { info with createCommands := info.createCommands ++ [c.create] }

/-- Records a command that destroys a handle; the first one counts. -/
def addEnding (table : HandleInfoTable) (found : TypeId × DestroyCommand) : HandleInfoTable :=
  table.update found.1 fun info =>
    { info with destroyCommand := info.destroyCommand <|> some found.2 }

/-- Records a command that empties a pool, for the first handle taken from it. -/
def addReset (table : HandleInfoTable) (found : TypeId × DestroyCommand) : HandleInfoTable :=
  match table.infos.find? (·.pool == some found.1) with
  | none => table
  | some taken => table.update taken.handle fun info =>
      { info with resetCommand := info.resetCommand <|> some found.2 }

/-- The handle that a value of the object enumeration means: its comment may name it. -/
def meantHandle? (table : HandleInfoTable) (types : TypeTable) (value : EnumValue) :
    Option TypeId :=
  let named (name : String) : Option TypeId := (types.lookup? name).map types.canonical
  (value.comment.bind named).filter table.contains <|> named (handleName value.name)

/-- Gives a handle its kind of object, unless it has one. -/
def addObjectType (types : TypeTable) (table : HandleInfoTable) (value : EnumValue) :
    HandleInfoTable :=
  match table.meantHandle? types value with
  | none => table
  | some handle => table.update handle fun info =>
      { info with objectType := info.objectType <|> some value.name }

/-- The values that can be kinds of objects. -/
def objectValues (types : TypeTable) : List EnumValue :=
  match (types.lookup? objectEnumeration).bind types.enum? with
  | none => []
  | some layout => layout.canonical.filter (·.name ≠ unknownObject)

/-- Gives every handle its kind of object: the one it declares, or else the first value
that means it. -/
def withObjectTypes (table : HandleInfoTable) (types : TypeTable) : HandleInfoTable :=
  let declared : HandleInfoTable := ⟨table.infos.map fun info =>
    { info with objectType := (types.handle? info.handle).bind (·.objectType) }⟩
  (objectValues types).foldl (addObjectType types) declared

/-- Gives every pool the last handle that is taken from it. -/
def withPoolElements (table : HandleInfoTable) : HandleInfoTable :=
  ⟨table.infos.map fun info =>
    { info with
      poolElement := ((table.infos.filter (·.pool == some info.handle)).getLast?).map (·.handle) }⟩

/-- The commands that create handles and those that hand them out, in this order. -/
def creatingCommands (commands : CommandTable) : List Command :=
  (commands.commands.filter fun cmd => namedCreate cmd.name || namedAllocate cmd.name) ++
    getCommands.filterMap commands.get?

/-- The handles in use, each without further knowledge. -/
def bareInfos (types : TypeTable) (isActive : TypeId → Bool) : List HandleInfo :=
  types.indexed.filterMap fun (id, entry) =>
    if isActive id then entry.kind.handleLayout?.map fun layout => .bare id layout.parent none
    else none

/-- The lifetimes of the handles in use. -/
def ofCommands (types : TypeTable) (commands : CommandTable) (isActive : TypeId → Bool) :
    HandleInfoTable :=
  let created := ((creatingCommands commands).filterMap (creation? types)).foldl addCreation ⟨[]⟩
  let all := (bareInfos types isActive).foldl insert created
  let ended := (commands.commands.filterMap (ending? types)).foldl addEnding all
  let reset := ((resetCommands.filterMap commands.get?).filterMap (reset? types)).foldl addReset ended
  (reset.withObjectTypes types).withPoolElements

/-! ### What a command does -/

/-- The handle that a command creates or hands out, and how. -/
def created? (table : HandleInfoTable) (cmd : Command) : Option (HandleInfo × CreateCommand) :=
  let outputs := cmd.params.filter (·.singleIndirection? == some false)
  (outputs.filterMap fun p => table.get? p.base).findSome? fun info =>
    (info.createCommands.find? (·.command == cmd.name)).map fun create => (info, create)

/-- The kind of a command that creates or hands out handles. -/
def createKind? (table : HandleInfoTable) (cmd : Command) : Option CreateKind :=
  (table.created? cmd).map (·.2.kind)

/-- The handle that a command destroys. -/
def destroyed? (table : HandleInfoTable) (cmd : Command) : Option HandleInfo :=
  (cmd.params.filterMap fun p => table.get? p.base).find? fun info =>
    info.destroyCommand.any (·.command == cmd.name)

/-- The pool that a command empties, and the handle that is taken from it. -/
def emptied? (table : HandleInfoTable) (cmd : Command) : Option (HandleInfo × HandleInfo) :=
  (cmd.params.filter Member.isValue).findSome? fun p => do
    let pool ← table.get? p.base
    let taken ← table.get? (← pool.poolElement)
    if taken.resetCommand.any (·.command == cmd.name) then some (pool, taken) else none

end HandleInfoTable

end VulkanRegistry
