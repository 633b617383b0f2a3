import MethodIL.Operand
import MethodIL.Tree.NodeId
set_option autoImplicit false

/-!
# Faults

Everything that can go wrong, as causes.  A fault carries what it is about, and `Fault.message`
holds all of the wording.  Faults of the encoded form are `FormatFault`, refused edits `EditFault`,
trees without a layout `LayoutFault`, operands that do not suit their opcode `OperandFault`.
-/

namespace MethodIL

/-- Why an edit of a tree is refused. -/
inductive EditFault where
  | unknownNode (node : NodeId)
  | notBlock (node : NodeId)
  | notInstruction (node : NodeId)
  | notLabel (node : NodeId)
  | notBranch (node : NodeId)
  | notSwitch (node : NodeId)
  | notTry (node : NodeId)
  | notHandler (node : NodeId)
  | notCatchHandler (node : NodeId)
  | noParent (node : NodeId)
  | secondBody
  | linkedBlock
  | alreadyAttached (node : NodeId)
  | containsItself (node : NodeId)
  | removesRoot
  | ungroupsRoot
  | notAttached (node : NodeId)
  | stillTarget (label owner : NodeId)
  | linkedRegion (block : NodeId)
  | targetedInside (label block owner : NodeId)
  | linkedInside (region block outside : NodeId)
  | alreadyBound (label owner : NodeId)
  | groupsBody
  | groupsLinked
  | notFirstChild (node : NodeId)
  | notLastChild (node : NodeId)
  | noSharedParent (first last : NodeId)
  | outOfOrder (first last : NodeId)
  | handlerTaken (handler : NodeId)
  | notOpenFilterHandler (handler : NodeId)
  | notOpenFilter (filter : NodeId)
  /-- a caller's own objection to a tree -/
  | rejected (reason : String)
  deriving DecidableEq, Repr

/-- The wording of a refused edit. -/
def EditFault.message : EditFault → String
  | .unknownNode node => s!"unknown node {node.text}"
  | .notBlock node => s!"{node.text} is not a block"
  | .notInstruction node => s!"{node.text} is not an instruction"
  | .notLabel node => s!"{node.text} is not a label"
  | .notBranch node => s!"{node.text} is not a branch"
  | .notSwitch node => s!"{node.text} is not a switch"
  | .notTry node => s!"{node.text} is not a try block"
  | .notHandler node => s!"{node.text} is not a handler block"
  | .notCatchHandler node => s!"{node.text} is not a catch handler"
  | .noParent node => s!"{node.text} has no parent"
  | .secondBody => "a tree has exactly one body block"
  | .linkedBlock => "new blocks must be created unlinked"
  | .alreadyAttached node => s!"{node.text} is already attached"
  | .containsItself node => s!"{node.text} would contain itself"
  | .removesRoot => "the root block cannot be removed"
  | .ungroupsRoot => "the root block cannot be ungrouped"
  | .notAttached node => s!"{node.text} is not attached"
  | .stillTarget label owner => s!"{label.text} is still the target of {owner.text}"
  | .linkedRegion block => s!"{block.text} is a linked region, unlink its handlers first"
  | .targetedInside label block owner =>
      s!"{label.text} inside {block.text} is the target of {owner.text}"
  | .linkedInside region block outside =>
      s!"{region.text} inside {block.text} is linked to {outside.text}"
  | .alreadyBound label owner => s!"{label.text} is already bound to {owner.text}"
  | .groupsBody => "cannot group into a body block"
  | .groupsLinked => "grouping requires an unlinked kind"
  | .notFirstChild node => s!"{node.text} is not the first child of its block"
  | .notLastChild node => s!"{node.text} is not the last child of its block"
  | .noSharedParent first last => s!"{first.text} and {last.text} share no parent"
  | .outOfOrder first last => s!"{last.text} does not follow {first.text}"
  | .handlerTaken handler => s!"{handler.text} already belongs to a try block"
  | .notOpenFilterHandler handler =>
      s!"{handler.text} is not a linked filter handler without filter"
  | .notOpenFilter filter => s!"{filter.text} is not an unlinked filter block"
  | .rejected reason => reason

/-- The wording of a refused edit as a fault of its own. -/
def EditFault.fullMessage (fault : EditFault) : String :=
  "Tree structure violation - " ++ fault.message

/-- Why bytes or records do not describe a method body. -/
inductive FormatFault where
  | emptyData
  | unknownHeader (first : UInt8)
  | shortHeader (size : Nat)
  | shortSection (position size : Nat)
  | tooManyClauses (count : Nat)
  | oversizedCode (size : Nat)
  | oversizedInstruction (position : Nat)
  | wrongSize (opcode : Opcode) (position : Nat) (claimed actual : Nat)
  | codeBeyondLimit
  | emptyRange (offset : Nat)
  | offBoundary (offset : Nat)
  | targetOutside (target : Int) (codeSize : Nat)
  | clauseWithoutCode (clause : Nat)
  | handlerOverlap (clause : Nat)
  | clauseRegion (clause : Nat) (cause : EditFault)
  | filterWithoutOffset (clause : Nat)
  | filterBehindHandler (clause : Nat) (offset : Nat)
  | filterOverlap (clause : Nat)
  | oversizedHandler (clause : Nat)
  | regionInUse (clause : Nat) (region : NodeId)
  deriving DecidableEq

/-- An offset in messages. -/
def offsetText (offset : Nat) : String :=
  "0x" ++ Text.hexUpper 1 offset

/-- The wording of a format fault. -/
def FormatFault.message : FormatFault → String
  | .emptyData => "Provided data for body parsing is empty"
  | .unknownHeader first => s!"MethodHeader is neither FAT nor TINY - {first.toNat}"
  | .shortHeader size => s!"Fat header size {size} is too small"
  | .shortSection position size => s!"Data section at {position} has size {size}"
  | .tooManyClauses count => s!"{count} exception clauses exceed the fat section size"
  | .oversizedCode size => s!"Code size {size} exceeds u32"
  | .oversizedInstruction position => s!"Instruction at {position} is too large"
  | .wrongSize opcode position claimed actual =>
      s!"Instruction {opcode.mnemonic} at {offsetText position} claims {claimed} bytes, " ++
        s!"encodes to {actual}"
  | .codeBeyondLimit => "Code size exceeds 4 GiB"
  | .emptyRange offset => s!"Empty range at offset {offsetText offset}"
  | .offBoundary offset => s!"Offset {offsetText offset} is not on an instruction boundary"
  | .targetOutside target codeSize =>
      s!"Branch target {target} is outside the code (size {offsetText codeSize})"
  | .clauseWithoutCode clause => s!"Exception clause {clause} in a body without code"
  | .handlerOverlap clause => s!"Exception clause {clause}: try and handler ranges overlap"
  | .clauseRegion clause cause => s!"Exception clause {clause}: {cause.fullMessage}"
  | .filterWithoutOffset clause => s!"Exception clause {clause}: filter without offset"
  | .filterBehindHandler clause offset =>
      s!"Exception clause {clause}: filter at {offsetText offset} does not precede its handler"
  | .filterOverlap clause => s!"Exception clause {clause}: try and filter ranges overlap"
  | .oversizedHandler clause => s!"Exception clause {clause}: handler too long"
  | .regionInUse clause region =>
      s!"Exception clause {clause}: handler region {region.text} is already in use"

/-- Why a tree has no layout as code. -/
inductive LayoutFault where
  | danglingLabel (label : NodeId)
  | branchWithoutTarget (opcode : Opcode)
  | switchWithoutTargets
  | labelNotPlaced (label : NodeId)
  | oversizedSwitch (count : Nat)
  | codeBeyondLimit
  | distanceBeyondLimit
  | foreignHandler (handler region : NodeId)
  | outsideTree (region : NodeId)
  | emptyRegion (region : NodeId)
  | filterApart (filter : NodeId) (filterEnd handlerStart : Nat)
  | filterMissing (handler : NodeId)
  deriving DecidableEq

/-- The wording of a layout fault. -/
def LayoutFault.message : LayoutFault → String
  | .danglingLabel label => s!"{label.text} is a branch target without instruction after it"
  | .branchWithoutTarget opcode => s!"{opcode.mnemonic} without target"
  | .switchWithoutTargets => "switch without targets"
  | .labelNotPlaced label => s!"{label.text} is not placed in the tree"
  | .oversizedSwitch count => s!"switch with {count} targets"
  | .codeBeyondLimit => "code size exceeds 4 GiB"
  | .distanceBeyondLimit => "branch distance exceeds 2 GiB"
  | .foreignHandler handler region => s!"{handler.text} is not a handler of {region.text}"
  | .outsideTree region => s!"{region.text} is not part of the tree"
  | .emptyRegion region => s!"{region.text} is an empty region"
  | .filterApart filter filterEnd handlerStart =>
      s!"filter {filter.text} ends at {offsetText filterEnd}, " ++
        s!"its handler starts at {offsetText handlerStart}"
  | .filterMissing handler => s!"{handler.text} has no filter block"

/-- Why an operand does not suit its opcode. -/
inductive OperandFault where
  /-- the operand of an instruction in a code stream -/
  | mismatch (opcode : Opcode) (operand : Operand Int32)
  /-- the operand of an instruction in a tree -/
  | treeMismatch (opcode : Opcode) (operand : Operand NodeId)
  | offsetBeyondByte (opcode : Opcode) (offset : Int32)
  | wrongSize (opcode : Opcode) (written recorded : Nat)
  | oversizedSwitch (count : Nat)
  | incompatible (old new : Opcode)
  | withoutSignature (opcode : Opcode)
  deriving DecidableEq

/-- An operand of a code stream as messages show it: targets are offsets. -/
def Operand.describeOffsets : Operand Int32 → String :=
  Operand.describe (fun offset => s!"Branch({offset.toInt})") fun offsets =>
    "Switch(" ++ Text.bracketed (offsets.map fun offset => toString offset.toInt) ++ ")"

/-- An operand of a tree as messages show it: targets are labels. -/
def Operand.describeLabels : Operand NodeId → String :=
  Operand.describe (fun label => s!"Label({label.describe})") fun labels =>
    "Labels(" ++ Text.bracketed (labels.map NodeId.describe) ++ ")"

/-- The wording of an operand fault. -/
def OperandFault.message : OperandFault → String
  | .mismatch opcode operand =>
      s!"{opcode.mnemonic} expects {opcode.operandType.name}, got {operand.describeOffsets}"
  | .treeMismatch opcode operand =>
      s!"{opcode.mnemonic} expects {opcode.operandType.name}, got {operand.describeLabels}"
  | .offsetBeyondByte opcode offset =>
      s!"{opcode.mnemonic} offset {offset.toInt} does not fit a byte"
  | .wrongSize opcode written recorded =>
      s!"{opcode.mnemonic} encodes to {written} bytes but records {recorded}"
  | .oversizedSwitch count => s!"switch with {count} targets"
  | .incompatible old new => s!"cannot turn {old.mnemonic} into {new.mnemonic}"
  | .withoutSignature opcode => s!"{opcode.mnemonic} without a signature token"

/-- Everything that can go wrong. -/
inductive Fault where
  | malformed (cause : FormatFault)
  /-- the bytes end too early -/
  | outOfBounds
  | edit (cause : EditFault)
  | layout (cause : LayoutFault)
  /-- a stack height leaves the range of sixteen bits -/
  | stackBound (height : Int) (node : NodeId)
  | invalidOpcode (page code : UInt8)
  | unsupportedOperand (cause : OperandFault)
  | invalidMnemonic (mnemonic : String)
  /-- the signature of a call site is not known -/
  | tokenNotFound (token : Token)
  deriving DecidableEq

/-- The wording of a fault. -/
def Fault.message : Fault → String
  | .malformed cause => cause.message
  | .outOfBounds => "Out of Bound read would have occurred!"
  | .edit cause => cause.fullMessage
  | .layout cause => "Layout fault - " ++ cause.message
  | .stackBound height node => s!"Stack height {height} out of range at node {node.text}"
  | .invalidOpcode page code =>
      s!"Invalid opcode {Text.hexUpper 2 page.toNat}:{Text.hexUpper 2 code.toNat}"
  | .unsupportedOperand cause => "Unsupported operand - " ++ cause.message
  | .invalidMnemonic mnemonic => "Invalid mnemonic - " ++ mnemonic
  | .tokenNotFound token => "No call-site signature for token - " ++ token.text

/-- The opcode at a place of a code page, where the page is named by its byte: zero, or `0xFE`. -/
def Opcode.ofBytes (page code : UInt8) : Except Fault Opcode :=
  let found? :=
    if page == 0 then find? .single code
    else if page == 0xFE then find? .extended code
    else none
  match found? with
  | some op => .ok op
  | none => .error (.invalidOpcode page code)

/-- The opcode of a mnemonic. -/
def Opcode.ofMnemonic (mnemonic : String) : Except Fault Opcode :=
  match ofMnemonic? mnemonic with
  | some op => .ok op
  | none => .error (.invalidMnemonic mnemonic)

end MethodIL
