import Concolic.Term.Basic

/-!
# Instructions

An instruction belongs to a block of the body of a method and is known by its name there. Two
instructions are the same (`==`) if they have the same name and belong to the same method.
-/

namespace Concolic

/-- The method that implements a lambda, with the term of its body if it is a single expression. -/
structure LambdaBase where
  method : Method
  body : Option Term

inductive InstKind where
  | arrayLoad
  | arrayStore
  | binary (op : BinaryOp)
  | branch
  | call
  | cast
  | catching (exception : Ty)
  | compare (op : CompareOp)
  | enterMonitor
  | exitMonitor
  | fieldLoad
  | fieldStore
  | instanceOf (checked : Ty)
  | invokeDynamic (base : LambdaBase)
  | jump
  | newArray
  | new
  /-- The incoming value for each preceding block. -/
  | phi (incoming : List (Nat × Value))
  | ret
  | switch (keys : List Int32)
  | tableSwitch (least most : Int32)
  | throwing
  | unary (op : UnaryOp)

/-- The word for the kind. -/
def InstKind.name : InstKind → String
  | .arrayLoad => "array_load"
  | .arrayStore => "array_store"
  | .binary _ => "binary"
  | .branch => "branch"
  | .call => "call"
  | .cast => "cast"
  | .catching _ => "catch"
  | .compare _ => "cmp"
  | .enterMonitor => "enter_monitor"
  | .exitMonitor => "exit_monitor"
  | .fieldLoad => "field_load"
  | .fieldStore => "field_store"
  | .instanceOf _ => "instance_of"
  | .invokeDynamic _ => "invoke_dynamic"
  | .jump => "jump"
  | .newArray => "new_array"
  | .new => "new"
  | .phi _ => "phi"
  | .ret => "return"
  | .switch _ => "switch"
  | .tableSwitch _ _ => "table_switch"
  | .throwing => "throw"
  | .unary _ => "unary"

structure Instruction where
  name : String
  kind : InstKind
  method : Method
  /-- The number of the block. -/
  block : Nat
  /-- The place among all instructions of the body. -/
  position : Nat
  location : Location
  /-- The value that the instruction produces. -/
  result : Option Value

namespace Instruction

instance : BEq Instruction := ⟨fun i j => i.name == j.name && i.method == j.method⟩

def isReturn (i : Instruction) : Bool :=
  match i.kind with
  | .ret => true
  | _ => false

def text (i : Instruction) : String := i.name ++ " [" ++ i.kind.name ++ "] in " ++ i.method.key

end Instruction

end Concolic
