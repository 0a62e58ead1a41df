/-
How commands are dispatched.

A call travels through the chain of an instance or of a device, or through none, and the
first parameter decides: a plain handle leads, over the handles that own it, to the
device or the instance.  Swapchains belong to the device although their owner is a
surface.  Without parameters, or with a first one that is no plain handle, a command is
global.
-/
import VulkanRegistry.Trail
import VulkanRegistry.TypeTable.Basic

namespace VulkanRegistry

/-- The chain that a call travels through. -/
inductive DispatchClass
  | instanceScope
  | deviceScope
  | global
  deriving DecidableEq, Repr, Inhabited

namespace DispatchClass

/-- The name of a class. -/
def label : DispatchClass → String
  | .instanceScope => "instance"
  | .deviceScope => "device"
  | .global => "global"

/-- The class of the handles at which chains of owners end. -/
def ofRoot? (name : String) : Option DispatchClass :=
  if name = "VkDevice" ∨ name = "VkSwapchainKHR" then some .deviceScope
  else if name = "VkInstance" then some .instanceScope
  else none

end DispatchClass

namespace TypeTable

/-- The handle that owns a handle. -/
def owner? (table : TypeTable) (id : TypeId) : Option TypeId :=
  ((table.handle? id).bind (·.parent)).map table.canonical

/-- The chain of owners that starts at a handle. -/
def ownerTrail (table : TypeTable) (id : TypeId) : Trail TypeId :=
  Trail.follow table.ids table.owner? id

/-- The class of the commands that a handle dispatches. -/
def dispatchOf (table : TypeTable) (command : String) (handle : TypeId) : Outcome DispatchClass :=
  let trail := table.ownerTrail handle
  match trail.path.findSome? (DispatchClass.ofRoot? ∘ table.nameOf) with
  | some found => .ok found
  | none =>
      let name := table.nameOf handle
      match trail.ending with
      | .cycles _ => .error (.ambiguousDispatch command s!"handle parent chain of `{name}` loops")
      | _ =>
          .error (.ambiguousDispatch command
            s!"handle `{name}` reaches neither an instance nor a device")

/-- The handle that a member is a plain value of. -/
def plainHandle? (table : TypeTable) (m : Member) : Option TypeId :=
  if m.isValue && (table.handle? m.base).isSome then some m.base else none

end TypeTable

/-- The class of a command with these parameters. -/
def classify (command : String) (params : List Member) (types : TypeTable) :
    Outcome DispatchClass :=
  match params.head?.bind types.plainHandle? with
  | some handle => types.dispatchOf command handle
  | none => .ok .global

end VulkanRegistry
