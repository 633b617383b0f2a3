import MethodIL.Fault
import MethodIL.Tree.Basic
set_option autoImplicit false

/-!
# Protected regions

A protected region lists its handlers, and each of them names the region; a filter handler and its
filter block name each other, and both name the region.  The links are made and undone here, always
on both sides.
-/

namespace MethodIL

namespace Tree

/-- Set the type that a catch handler catches. -/
def setCatchType (t : Tree) (handler : NodeId) (token : Token) : Except EditFault Tree := do
  match ← t.blockKind handler with
  | .handler .catchClause region filterBlock _ =>
    return t.mapKind handler fun _ => .handler .catchClause region filterBlock (some token)
  | _ => throw (.notCatchHandler handler)

/-- Let a handler protect a region, behind the handlers that the region has. -/
def linkHandler (t : Tree) (region handler : NodeId) : Except EditFault Tree :=
  match t.blockKind? region with
  | some (.tryBlock handlers) => do
    match ← t.blockKind handler with
    | .handler kind none filterBlock catchType =>
      return (t.mapKind handler fun _ => .handler kind (some region) filterBlock catchType).mapKind
        region fun _ => .tryBlock (handlers ++ [handler])
    | .handler _ (some _) _ _ => throw (.handlerTaken handler)
    | _ => throw (.notHandler handler)
  | _ => .error (.notTry region)

/-- Let a filter block decide about a filter handler that protects a region. -/
def linkFilter (t : Tree) (filterBlock handler : NodeId) : Except EditFault Tree :=
  match t.blockKind? handler with
  | some (.handler .filterClause (some region) none catchType) => do
    match ← t.blockKind filterBlock with
    | .filter none none =>
      return (t.mapKind filterBlock fun _ => .filter (some region) (some handler)).mapKind
        handler fun _ => .handler .filterClause (some region) (some filterBlock) catchType
    | _ => throw (.notOpenFilter filterBlock)
  | _ => .error (.notOpenFilterHandler handler)

/-- Take a handler from the list of a protected region. -/
def dropHandler (t : Tree) (handler region : NodeId) : Tree :=
  t.mapKind region fun
    | .tryBlock handlers => .tryBlock (handlers.filter fun h => h ≠ handler)
    | kind => kind

/-- Make a filter block decide about nothing. -/
def clearFilter (t : Tree) (filterBlock : NodeId) : Tree :=
  t.mapKind filterBlock fun
    | .filter _ _ => .newFilter
    | kind => kind

/-- Undo all links of a handler: with its region and with its filter block. -/
def unlinkHandler (t : Tree) (handler : NodeId) : Except EditFault Tree := do
  match ← t.blockKind handler with
  | .handler kind region filterBlock catchType =>
    let cleared := t.mapKind handler fun _ => .handler kind none none catchType
    let dropped := region.elim cleared (cleared.dropHandler handler)
    return filterBlock.elim dropped dropped.clearFilter
  | _ => throw (.notHandler handler)

end Tree

end MethodIL
