/-
The table of commands.

Commands stand in the order of their insertion, each with its other names.  A name leads
to one command, whether it is the command's own or another one; a name that is taken is
not given again.
-/
import VulkanRegistry.Command.Dispatch
import VulkanRegistry.Member.Reading

namespace VulkanRegistry

/-- A command whose types are known. -/
structure Command where
  name : String
  returnType : TypeId
  /-- The parameters in the order of a call. -/
  params : List Member
  dispatch : DispatchClass
  successCodes : List String
  errorCodes : List String
  /-- The core version that brought the command in. -/
  feature : Option String
  /-- Other names, in the order of their declaration. -/
  aliases : List String
  deriving DecidableEq, Repr, Inhabited

namespace Command

/-- The first parameter of a name. -/
def param? (command : Command) (name : String) : Option Member :=
  command.params.find? (·.name == name)

/-- Whether a name is one of the command's. -/
def hasName (command : Command) (name : String) : Bool :=
  command.name == name || command.aliases.contains name

/-- Reads a command that is no alias. -/
def ofDecl (decl : CommandDecl) (types : TypeTable) (constants : ConstantTable) :
    Outcome Command := do
  let params ← Member.ofFields ⟨decl.name, .parameter, decl.params, types, constants⟩ decl.params
  let dispatch ← classify decl.name params types
  let returnType ← types.resolve decl.returnType decl.name
  return {
    name := decl.name
    returnType, params, dispatch
    successCodes := decl.successCodes
    errorCodes := decl.errorCodes
    feature := none
    aliases := [] }

end Command

/-- Commands in the order of their insertion. -/
structure CommandTable where
  commands : List Command
  deriving DecidableEq, Repr, Inhabited

namespace CommandTable

/-- No commands. -/
def empty : CommandTable := ⟨[]⟩

/-- The command of a name. -/
def get? (table : CommandTable) (name : String) : Option Command :=
  table.commands.find? (·.hasName name)

/-- Whether a name leads to a command. -/
def contains (table : CommandTable) (name : String) : Bool :=
  (table.get? name).isSome

/-- Adds a command unless its name is taken. -/
def insert (table : CommandTable) (command : Command) : CommandTable :=
  if table.contains command.name then table else ⟨table.commands ++ [command]⟩

/-- Changes the command of a name. -/
def modify (table : CommandTable) (name : String) (f : Command → Command) : CommandTable :=
  match table.commands.findIdx? (·.hasName name) with
  | some index => ⟨table.commands.modify index f⟩
  | none => table

/-- Gives the command of the name `target` another name, unless that is taken. -/
def insertAlias (table : CommandTable) (name target : String) : Outcome CommandTable :=
  if !table.contains target then .error (.unknownCommand target name)
  else if table.contains name then .ok table
  else .ok (table.modify target fun command => { command with aliases := command.aliases ++ [name] })

end CommandTable

end VulkanRegistry
