set_option autoImplicit false

/-!
# Node names

Every node of a tree has a number that stays its own for the life of the tree.  Numbers that no
node has are legal to ask about.
-/

namespace MethodIL

/-- The number of a node. -/
structure NodeId where
  index : Nat
  deriving DecidableEq, Repr, Inhabited

namespace NodeId

/-- A node in messages and listings. -/
def text (id : NodeId) : String := s!"n{id.index}"

/-- A node inside a shown operand. -/
def describe (id : NodeId) : String := s!"NodeId({id.index})"

end NodeId

end MethodIL
