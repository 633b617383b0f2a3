import MethodIL.Fault
set_option autoImplicit false

/-!
# Signatures of call sites

What a call takes from the stack and what it leaves there depends on the method it calls.  The
stack analysis asks a `Resolver` for that, and for whether the analysed method returns a value.  A
`SignatureTable` is a resolver that has been told the answers.
-/

namespace MethodIL

/-- What the stack sees of a method at a call. -/
structure CallSite where
  /-- the declared parameters, without the instance -/
  parameters : UInt32
  hasThis : Bool
  returnsValue : Bool
  deriving DecidableEq, Repr, Inhabited

/-- The opcode creates the instance whose constructor it calls. -/
def Opcode.isNewObject (op : Opcode) : Bool := op.page == .single && op.code == 0x73

/-- The opcode takes the address of the method from the stack. -/
def Opcode.isIndirectCall (op : Opcode) : Bool := op.page == .single && op.code == 0x29

namespace CallSite

/-- How many values a call takes.  The instance counts unless the call creates it, and an indirect
call takes the address of the method too.  The sum is one of 32 bits and wraps around. -/
def pops (site : CallSite) (op : Opcode) : UInt32 :=
  if op.isNewObject then site.parameters
  else site.parameters + site.hasThis.toUInt32 + op.isIndirectCall.toUInt32

/-- How many values a call leaves: its result, or the instance it creates. -/
def pushes (site : CallSite) (op : Opcode) : UInt32 :=
  if op.isNewObject then 1 else site.returnsValue.toUInt32

/-- How many values the callee is declared to take, which may be more than 32 bits can tell. -/
def exactPops (site : CallSite) (op : Opcode) : Nat :=
  if op.isNewObject then site.parameters.toNat
  else site.parameters.toNat + site.hasThis.toNat + op.isIndirectCall.toNat

/-- The sum of `pops` does not fit 32 bits.  A build that checks its sums stops there. -/
def Overflows (site : CallSite) (op : Opcode) : Prop := UInt32.size ≤ site.exactPops op

instance (site : CallSite) (op : Opcode) : Decidable (site.Overflows op) :=
  inferInstanceAs (Decidable (_ ≤ _))

theorem toNat_pops (site : CallSite) (op : Opcode) :
    (site.pops op).toNat = site.exactPops op % UInt32.size := by
  unfold pops exactPops
  split
  case isTrue => exact (Nat.mod_eq_of_lt site.parameters.toNat_lt_size).symm
  case isFalse => cases site.hasThis <;> cases op.isIndirectCall <;> simp [Bool.toUInt32, UInt32.size]

/-- A sum that fits is exact, and no other is. -/
theorem overflows_iff {site : CallSite} {op : Opcode} :
    site.Overflows op ↔ (site.pops op).toNat ≠ site.exactPops op := by
  rw [toNat_pops, Ne, Nat.mod_eq_iff_lt (by decide), Nat.not_lt]
  rfl

end CallSite

/-- Answers to what the stack analysis cannot see in the code. -/
structure Resolver where
  callSite : Opcode → Token → Except Fault CallSite
  returnsValue : Bool

/-- Call sites by token; every token is listed once. -/
structure SignatureTable where
  sites : List (Token × CallSite)
  returnsValue : Bool
  deriving DecidableEq, Repr

namespace SignatureTable

/-- A table without call sites. -/
def new (returnsValue : Bool) : SignatureTable := ⟨[], returnsValue⟩

/-- The call site of a token. -/
def find? (table : SignatureTable) (token : Token) : Option CallSite :=
  (table.sites.find? fun entry => entry.1 == token).map Prod.snd

/-- List a call site in place of the one that was listed for the token. -/
def insert (table : SignatureTable) (token : Token) (site : CallSite) : SignatureTable :=
  { table with sites := (token, site) :: table.sites.filter fun entry => entry.1 != token }

/-- The number of tokens. -/
def size (table : SignatureTable) : Nat := table.sites.length

/-- No token is listed. -/
def isEmpty (table : SignatureTable) : Bool := table.sites.isEmpty

/-- The call site of a token, or the fault that it is not listed. -/
def callSite (table : SignatureTable) (token : Token) : Except Fault CallSite :=
  match table.find? token with
  | some site => .ok site
  | none => .error (.tokenNotFound token)

/-- Answers from a table; the opcode of a call does not matter. -/
def resolver (table : SignatureTable) : Resolver :=
  ⟨fun _ token => table.callSite token, table.returnsValue⟩

end SignatureTable

end MethodIL
