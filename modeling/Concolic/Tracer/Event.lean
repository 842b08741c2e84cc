import Concolic.Observed.Basic

/-!
# Events

What the instrumentation of a running program reports, one event for each executed instruction and
each entered method. Instructions and values are given by their names in the method that is being
executed, together with what was observed. Guard events precede an instruction that may fail and ask
for the conditions under which it does not.
-/

namespace Concolic

/-- A named value with what was observed of it. -/
structure Operand where
  name : String
  observed : Observed

/-- A method as a trace spells it. -/
structure MethodSpelling where
  owner : String
  name : String
  args : List String
  ret : String
deriving DecidableEq

/-- A field as a trace spells it. -/
structure FieldSpelling where
  owner : String
  name : String
  ty : String
deriving DecidableEq

/-- An event; instructions that produce a value have its name. Lists of observed values go with the
lists of names as far as both reach. -/
inductive Event where
  | methodEnter (method : MethodSpelling) (receiver : Option Observed) (args : List Observed)
  | arrayLoad (result array index : Operand)
  | arrayStore (instruction : String) (array index stored : Operand)
  | binary (result left right : Operand)
  | branch (instruction condition : String)
  | call (instruction : String) (method : MethodSpelling) (result callee : Option String)
      (arguments : List String) (observed : List Observed)
  | cast (result operand : Operand)
  | caught (exception : Operand)
  | compare (result : String) (left right : Operand)
  | enterMonitor (instruction : String) (operand : Operand)
  | exitMonitor (instruction : String) (operand : Operand)
  | fieldLoad (result : Operand) (field : FieldSpelling) (owner : Option String)
      (observedOwner : Observed)
  | fieldStore (instruction : String) (field : FieldSpelling) (stored : Operand)
      (owner : Option String) (observedOwner : Observed)
  | instanceOf (result operand : Operand)
  | invokeDynamic (result : Operand) (operands : List String) (observed : List Observed)
  | jump (instruction : String)
  | newArray (result : Operand) (dimensions : List String) (observed : List Observed)
  | new (result : String)
  | phi (result : Operand)
  | ret (instruction : String) (result : Option String) (observed : Observed)
  | switch (instruction : String) (key : Operand)
  | tableSwitch (instruction : String) (key : Operand)
  | throwing (instruction : String) (exception : Operand)
  | unary (result operand : Operand)
  | guardNull (instruction : String) (checked : Operand)
  | guardType (instruction : String) (checked : Operand)
  | guardExpectedType (instruction : String) (checked : Operand) (ty : String)
  | guardIndex (instruction : String) (array index : Operand)
  | guardLength (instruction : String) (length : Operand)

namespace Event

/-- The name of the event. -/
def name : Event → String
  | .methodEnter .. => "method_enter"
  | .arrayLoad .. => "array_load"
  | .arrayStore .. => "array_store"
  | .binary .. => "binary"
  | .branch .. => "branch"
  | .call .. => "call"
  | .cast .. => "cast"
  | .caught .. => "catch"
  | .compare .. => "cmp"
  | .enterMonitor .. => "enter_monitor"
  | .exitMonitor .. => "exit_monitor"
  | .fieldLoad .. => "field_load"
  | .fieldStore .. => "field_store"
  | .instanceOf .. => "instance_of"
  | .invokeDynamic .. => "invoke_dynamic"
  | .jump .. => "jump"
  | .newArray .. => "new_array"
  | .new .. => "new"
  | .phi .. => "phi"
  | .ret .. => "ret"
  | .switch .. => "switch"
  | .tableSwitch .. => "table_switch"
  | .throwing .. => "throwing"
  | .unary .. => "unary"
  | .guardNull .. => "nullity_constraints"
  | .guardType .. => "type_constraints"
  | .guardExpectedType .. => "expected_type_constraints"
  | .guardIndex .. => "array_index_constraints"
  | .guardLength .. => "array_length_constraints"

/-- The names of all events, in order. -/
def names : List String :=
  ["method_enter", "array_load", "array_store", "binary", "branch", "call", "cast", "catch", "cmp",
    "enter_monitor", "exit_monitor", "field_load", "field_store", "instance_of", "invoke_dynamic",
    "jump", "new_array", "new", "phi", "ret", "switch", "table_switch", "throwing", "unary",
    "nullity_constraints", "type_constraints", "expected_type_constraints",
    "array_index_constraints", "array_length_constraints"]

/-- The event asks for a guard. -/
def isGuard : Event → Bool
  | .guardNull .. | .guardType .. | .guardExpectedType .. | .guardIndex .. | .guardLength .. => true
  | _ => false

/-- What handling the event is called in a failure. -/
def task (e : Event) : String := if e.isGuard then "add_" ++ e.name else e.name

end Event

end Concolic
