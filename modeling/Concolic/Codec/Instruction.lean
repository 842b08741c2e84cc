import Concolic.Body.Instruction
import Concolic.Codec.Term

/-!
# Kinds of instructions as documents

Every kind but the lambda, whose method is declared elsewhere.
-/

namespace Concolic.InstKind

/-- The kinds that are a single word. -/
def words : List (String × InstKind) :=
  [("ArrayLoad", .arrayLoad), ("ArrayStore", .arrayStore), ("Branch", .branch), ("Call", .call),
    ("Cast", .cast), ("EnterMonitor", .enterMonitor), ("ExitMonitor", .exitMonitor),
    ("FieldLoad", .fieldLoad), ("FieldStore", .fieldStore), ("Jump", .jump),
    ("NewArray", .newArray), ("New", .new), ("Return", .ret), ("Throw", .throwing)]

/-- Reads the number of a preceding block with the value from there. -/
def incoming? (way : Json.Leeway) (j : Json) : Option (Nat × Value) := do
  let (block, v) ← j.pair? way
  some (← block.1.nat? 64, ← Value.ofJson? way v.1)

def ofJson? (way : Json.Leeway) : Json → Option InstKind
  | .str name => words.lookup name
  | j =>
    match j.tagged? with
    | some ("Binary", part) => (BinaryOp.ofJson? way part.1).map .binary
    | some ("Cmp", part) => (CompareOp.ofJson? way part.1).map .compare
    | some ("Unary", part) => (UnaryOp.ofJson? way part.1).map .unary
    | some ("Catch", part) => (Ty.ofJson? way part.1).map .catching
    | some ("InstanceOf", part) => (Ty.ofJson? way part.1).map .instanceOf
    | some ("Phi", part) => (part.1.list? (incoming? way)).map .phi
    | some ("Switch", part) => (part.1.list? Json.int32?).map .switch
    | some ("TableSwitch", part) => do
      let (least, most) ← part.1.pair? way
      some (.tableSwitch (← least.1.int32?) (← most.1.int32?))
    | _ => none

end Concolic.InstKind
