import MethodIL.Token
set_option autoImplicit false

/-!
# Exception clauses

A clause protects a range of code with a handler.  Its kind is encoded in flags, and one field
serves as the caught type of a catch clause and as the start of the filter of a filter clause;
the two readings are kept apart here.  All offsets and lengths count bytes from the start of the
code.
-/

namespace MethodIL

/-- The four kinds of handler. -/
inductive HandlerKind where
  | catchClause
  | filterClause
  | finallyClause
  | faultClause
  deriving DecidableEq, Repr, Inhabited

namespace HandlerKind

/-- The kind that clause flags stand for; of several known bits the lowest decides. -/
def ofFlags (flags : UInt16) : HandlerKind :=
  if flags &&& 1 != 0 then .filterClause
  else if flags &&& 2 != 0 then .finallyClause
  else if flags &&& 4 != 0 then .faultClause
  else .catchClause

/-- The clause flags of a kind. -/
def flags : HandlerKind → UInt16
  | .catchClause => 0
  | .filterClause => 1
  | .finallyClause => 2
  | .faultClause => 4

/-- The name of a kind in listings. -/
def name : HandlerKind → String
  | .catchClause => "catch"
  | .filterClause => "filter"
  | .finallyClause => "finally"
  | .faultClause => "fault"

/-- The handler finds the exception object on the stack. -/
def receivesException : HandlerKind → Bool
  | .catchClause | .filterClause => true
  | .finallyClause | .faultClause => false

theorem ofFlags_flags (kind : HandlerKind) : ofFlags kind.flags = kind := by
  cases kind <;> decide

end HandlerKind

/-- One row of the exception table. -/
structure Clause where
  flags : UInt16
  tryOffset : UInt32
  tryLength : UInt32
  handlerOffset : UInt32
  handlerLength : UInt32
  filterOffset : Option UInt32
  catchType : Option Token
  deriving DecidableEq, Repr

namespace Clause

/-- The kind of the handler. -/
def kind (c : Clause) : HandlerKind := .ofFlags c.flags

/-- The last field of the encoded clause: the caught type or the start of the filter. -/
def classOrFilter (c : Clause) : UInt32 :=
  match c.kind with
  | .catchClause => (c.catchType.map Token.value).getD 0
  | .filterClause => c.filterOffset.getD 0
  | .finallyClause | .faultClause => 0

/-- A clause from its encoded fields. -/
def ofFields (flags : UInt16) (tryOffset tryLength handlerOffset handlerLength : UInt32)
    (classOrFilter : UInt32) : Clause :=
  let kind := HandlerKind.ofFlags flags
  { flags, tryOffset, tryLength, handlerOffset, handlerLength
    filterOffset := if kind == .filterClause then some classOrFilter else none
    catchType := if kind == .catchClause then some ⟨classOrFilter⟩ else none }

/-- Every range of the clause fits the short row of the exception table. -/
def fitsSmall (c : Clause) : Bool :=
  c.tryOffset ≤ 0xFFFF && c.tryLength ≤ 0xFF && c.handlerOffset ≤ 0xFFFF && c.handlerLength ≤ 0xFF

end Clause

end MethodIL
