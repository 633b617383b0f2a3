import MethodIL.Tree.Order
set_option autoImplicit false

/-!
# Listings

A listing shows the body as indented lines.  Labels are named by their place among the labels of
the body; a label that is not part of the body goes by its node.
-/

namespace MethodIL

/-- The first line of a block. -/
def BlockKind.opening : BlockKind → String
  | .body | .plain => "\x7b"
  | .tryBlock _ => "try \x7b"
  | .filter .. => "filter \x7b"
  | .handler .catchClause _ _ (some token) => "catch " ++ token.text ++ " \x7b"
  | .handler .filterClause _ _ _ => "handler \x7b"
  | .handler kind _ _ _ => kind.name ++ " \x7b"

/-- The name of a label in a listing, given the labels of the body. -/
def labelName (labels : List NodeId) (label : NodeId) : String :=
  match labels.idxOf? label with
  | some index => s!"L{index}"
  | none => label.text

/-- An operation in a listing. -/
def Operation.listed (labels : List NodeId) (operation : Operation NodeId) : String :=
  operation.opcode.mnemonic ++ match operation.operand with
    | .none => ""
    | .immediate value => " " ++ value.text
    | .token token => " " ++ token.text
    | .branch label => " " ++ labelName labels label
    | .switch targets => " (" ++ Text.commaList (targets.map (labelName labels)) ++ ")"

namespace Tree

/-- One line of a listing. -/
def listedLine (level : Nat) (text : String) : String :=
  String.ofList (List.replicate (2 * level) ' ') ++ text ++ "\n"

/-- The lines of a node and all below it, down to `limit` levels. -/
def linesUpTo (t : Tree) (labels : List NodeId) : Nat → Nat → NodeId → List String
  | 0, _, _ => []
  | limit + 1, level, id =>
    match t.content? id with
    | none => []
    | some (.block kind children) =>
      listedLine level kind.opening ::
        (children.flatMap (linesUpTo t labels limit (level + 1)) ++ [listedLine level "\x7d"])
    | some (.label _) => [listedLine level (labelName labels id ++ ":")]
    | some (.instruction operation) => [listedLine level (operation.listed labels)]

/-- The listing of a body. -/
def listing (t : Tree) : String :=
  let lines := (t.children root).flatMap (t.linesUpTo t.labels t.size 0)
  s!".maxstack {t.header.maxStack.toNat}\n" ++ String.join lines

end Tree

end MethodIL
