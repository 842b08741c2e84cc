import Concolic.Codec.Observed
import Concolic.Tracer.Event

/-!
# Events as documents

An event is written as a record of its fields with the name of the event as one more field.
-/

namespace Concolic.Event

/-! ## Writing -/

def toFields : Event → List (String × Json)
  | .methodEnter m receiver args =>
    [("class", .str m.owner), ("method", .str m.name), ("arg_types", .strings m.args),
      ("ret_type", .str m.ret), ("instance", .ofOption Observed.toJson receiver),
      ("args", .arr (args.map Observed.toJson))]
  | .arrayLoad result array index =>
    [("value", .str result.name), ("array_ref", .str array.name), ("index", .str index.name),
      ("concrete_value", result.observed.toJson), ("concrete_ref", array.observed.toJson),
      ("concrete_index", index.observed.toJson)]
  | .arrayStore inst array index stored =>
    [("inst", .str inst), ("array_ref", .str array.name), ("index", .str index.name),
      ("value", .str stored.name), ("concrete_ref", array.observed.toJson),
      ("concrete_index", index.observed.toJson), ("concrete_value", stored.observed.toJson)]
  | .binary result left right =>
    [("value", .str result.name), ("lhv", .str left.name), ("rhv", .str right.name),
      ("concrete_value", result.observed.toJson), ("concrete_lhv", left.observed.toJson),
      ("concrete_rhv", right.observed.toJson)]
  | .branch inst condition => [("inst", .str inst), ("condition", .str condition)]
  | .call inst m result callee arguments observed =>
    [("inst", .str inst), ("class", .str m.owner), ("method", .str m.name),
      ("arg_types", .strings m.args), ("ret_type", .str m.ret),
      ("return_value", .ofOption .str result), ("callee", .ofOption .str callee),
      ("arguments", .strings arguments),
      ("concrete_arguments", .arr (observed.map Observed.toJson))]
  | .cast result operand | .instanceOf result operand | .unary result operand =>
    [("value", .str result.name), ("operand", .str operand.name),
      ("concrete_value", result.observed.toJson), ("concrete_operand", operand.observed.toJson)]
  | .caught exception =>
    [("exception", .str exception.name), ("concrete_exception", exception.observed.toJson)]
  | .compare result left right =>
    [("value", .str result), ("lhv", .str left.name), ("rhv", .str right.name),
      ("concrete_lhv", left.observed.toJson), ("concrete_rhv", right.observed.toJson)]
  | .enterMonitor inst operand | .exitMonitor inst operand =>
    [("inst", .str inst), ("operand", .str operand.name),
      ("concrete_operand", operand.observed.toJson)]
  | .fieldLoad result field owner observedOwner =>
    [("value", .str result.name), ("owner", .ofOption .str owner), ("class", .str field.owner),
      ("field", .str field.name), ("ty", .str field.ty),
      ("concrete_value", result.observed.toJson), ("concrete_owner", observedOwner.toJson)]
  | .fieldStore inst field stored owner observedOwner =>
    [("inst", .str inst), ("owner", .ofOption .str owner), ("class", .str field.owner),
      ("field", .str field.name), ("ty", .str field.ty), ("value", .str stored.name),
      ("concrete_value", stored.observed.toJson), ("concrete_owner", observedOwner.toJson)]
  | .invokeDynamic result operands observed =>
    [("value", .str result.name), ("operands", .strings operands),
      ("concrete_value", result.observed.toJson),
      ("concrete_operands", .arr (observed.map Observed.toJson))]
  | .jump inst => [("inst", .str inst)]
  | .newArray result dimensions observed =>
    [("value", .str result.name), ("dimensions", .strings dimensions),
      ("concrete_value", result.observed.toJson),
      ("concrete_dimensions", .arr (observed.map Observed.toJson))]
  | .new result => [("value", .str result)]
  | .phi result => [("value", .str result.name), ("concrete_value", result.observed.toJson)]
  | .ret inst result observed =>
    [("inst", .str inst), ("return_value", .ofOption .str result),
      ("concrete_value", observed.toJson)]
  | .switch inst o | .tableSwitch inst o | .guardNull inst o | .guardType inst o =>
    [("inst", .str inst), ("value", .str o.name), ("concrete_value", o.observed.toJson)]
  | .throwing inst exception =>
    [("inst", .str inst), ("exception", .str exception.name),
      ("concrete_exception", exception.observed.toJson)]
  | .guardExpectedType inst checked ty =>
    [("inst", .str inst), ("value", .str checked.name), ("ty", .str ty),
      ("concrete_value", checked.observed.toJson)]
  | .guardIndex inst array index =>
    [("inst", .str inst), ("array", .str array.name), ("index", .str index.name),
      ("concrete_array", array.observed.toJson), ("concrete_index", index.observed.toJson)]
  | .guardLength inst length =>
    [("inst", .str inst), ("length", .str length.name),
      ("concrete_length", length.observed.toJson)]

def toJson (e : Event) : Json := .obj (("event", .str e.name) :: e.toFields)

/-! ## Reading -/

/-- The fields of an alternative may be an array, and an empty object may stand for nothing. -/
def leeway : Json.Leeway := { surplus := false, listed := true, hollow := true }

def observed? (j : Json) : Option Observed := Observed.ofJson? leeway j

def operand? (name observed : Json) : Option Operand := do some ⟨← name.str?, ← observed? observed⟩

def method? (owner name args ret : Json) : Option MethodSpelling := do
  some ⟨← owner.str?, ← name.str?, ← args.list? Json.str?, ← ret.str?⟩

def field? (owner name ty : Json) : Option FieldSpelling := do
  some ⟨← owner.str?, ← name.str?, ← ty.str?⟩

/-- A name that may be missing. -/
def name? (j : Option Json) : Option (Option String) := Json.optional? Json.str? j

/-- Reads an event with an instruction and one operand. -/
def single? (make : String → Operand → Event) (names : List String) (j : Json) : Option Event := do
  match ← j.slots? leeway names with
  | [some inst, some name, some observed] => some (make (← inst.str?) (← operand? name observed))
  | _ => none

/-- Reads an event with a result and one operand. -/
def unary? (make : Operand → Operand → Event) (j : Json) : Option Event := do
  match ← j.slots? leeway ["value", "operand", "concrete_value", "concrete_operand"] with
  | [some result, some name, some observed, some operand] =>
    some (make (← operand? result observed) (← operand? name operand))
  | _ => none

/-- Reads the fields of the event of a name. -/
def ofFields? (name : String) (j : Json) : Option Event :=
  match name with
  | "method_enter" => do
    match ← j.slots? leeway ["class", "method", "arg_types", "ret_type", "instance", "args"] with
    | [some owner, some name, some args, some returned, receiver, some observed] =>
      some (.methodEnter (← method? owner name args returned)
        (← Json.optional? observed? receiver) (← observed.list? observed?))
    | _ => none
  | "array_load" => do
    match ← j.slots? leeway
      ["value", "array_ref", "index", "concrete_value", "concrete_ref", "concrete_index"] with
    | [some result, some array, some index, some v, some a, some i] =>
      some (.arrayLoad (← operand? result v) (← operand? array a) (← operand? index i))
    | _ => none
  | "array_store" => do
    match ← j.slots? leeway
      ["inst", "array_ref", "index", "value", "concrete_ref", "concrete_index",
        "concrete_value"] with
    | [some inst, some array, some index, some stored, some a, some i, some v] =>
      some (.arrayStore (← inst.str?) (← operand? array a) (← operand? index i)
        (← operand? stored v))
    | _ => none
  | "binary" => do
    match ← j.slots? leeway
      ["value", "lhv", "rhv", "concrete_value", "concrete_lhv", "concrete_rhv"] with
    | [some result, some left, some right, some v, some l, some r] =>
      some (.binary (← operand? result v) (← operand? left l) (← operand? right r))
    | _ => none
  | "branch" => do
    match ← j.slots? leeway ["inst", "condition"] with
    | [some inst, some condition] => some (.branch (← inst.str?) (← condition.str?))
    | _ => none
  | "call" => do
    match ← j.slots? leeway
      ["inst", "class", "method", "arg_types", "ret_type", "return_value", "callee", "arguments",
        "concrete_arguments"] with
    | [some inst, some owner, some name, some args, some returned, result, callee, some arguments,
        some observed] =>
      some (.call (← inst.str?) (← method? owner name args returned) (← name? result)
        (← name? callee) (← arguments.list? Json.str?) (← observed.list? observed?))
    | _ => none
  | "cast" => unary? .cast j
  | "instance_of" => unary? .instanceOf j
  | "unary" => unary? .unary j
  | "catch" => do
    match ← j.slots? leeway ["exception", "concrete_exception"] with
    | [some name, some observed] => some (.caught (← operand? name observed))
    | _ => none
  | "cmp" => do
    match ← j.slots? leeway ["value", "lhv", "rhv", "concrete_lhv", "concrete_rhv"] with
    | [some result, some left, some right, some l, some r] =>
      some (.compare (← result.str?) (← operand? left l) (← operand? right r))
    | _ => none
  | "enter_monitor" => single? .enterMonitor ["inst", "operand", "concrete_operand"] j
  | "exit_monitor" => single? .exitMonitor ["inst", "operand", "concrete_operand"] j
  | "field_load" => do
    match ← j.slots? leeway
      ["value", "owner", "class", "field", "ty", "concrete_value", "concrete_owner"] with
    | [some result, owner, some cls, some name, some ty, some v, some o] =>
      some (.fieldLoad (← operand? result v) (← field? cls name ty) (← name? owner)
        (← observed? o))
    | _ => none
  | "field_store" => do
    match ← j.slots? leeway
      ["inst", "owner", "class", "field", "ty", "value", "concrete_value", "concrete_owner"] with
    | [some inst, owner, some cls, some name, some ty, some stored, some v, some o] =>
      some (.fieldStore (← inst.str?) (← field? cls name ty) (← operand? stored v)
        (← name? owner) (← observed? o))
    | _ => none
  | "invoke_dynamic" => do
    match ← j.slots? leeway ["value", "operands", "concrete_value", "concrete_operands"] with
    | [some result, some operands, some v, some observed] =>
      some (.invokeDynamic (← operand? result v) (← operands.list? Json.str?)
        (← observed.list? observed?))
    | _ => none
  | "jump" => (j.only? leeway "inst" Json.str?).map .jump
  | "new_array" => do
    match ← j.slots? leeway ["value", "dimensions", "concrete_value", "concrete_dimensions"] with
    | [some result, some dimensions, some v, some observed] =>
      some (.newArray (← operand? result v) (← dimensions.list? Json.str?)
        (← observed.list? observed?))
    | _ => none
  | "new" => (j.only? leeway "value" Json.str?).map .new
  | "phi" => do
    match ← j.slots? leeway ["value", "concrete_value"] with
    | [some name, some observed] => some (.phi (← operand? name observed))
    | _ => none
  | "ret" => do
    match ← j.slots? leeway ["inst", "return_value", "concrete_value"] with
    | [some inst, result, some observed] =>
      some (.ret (← inst.str?) (← name? result) (← observed? observed))
    | _ => none
  | "switch" => single? .switch ["inst", "value", "concrete_value"] j
  | "table_switch" => single? .tableSwitch ["inst", "value", "concrete_value"] j
  | "throwing" => single? .throwing ["inst", "exception", "concrete_exception"] j
  | "nullity_constraints" => single? .guardNull ["inst", "value", "concrete_value"] j
  | "type_constraints" => single? .guardType ["inst", "value", "concrete_value"] j
  | "expected_type_constraints" => do
    match ← j.slots? leeway ["inst", "value", "ty", "concrete_value"] with
    | [some inst, some name, some ty, some observed] =>
      some (.guardExpectedType (← inst.str?) (← operand? name observed) (← ty.str?))
    | _ => none
  | "array_index_constraints" => do
    match ← j.slots? leeway ["inst", "array", "index", "concrete_array", "concrete_index"] with
    | [some inst, some array, some index, some a, some i] =>
      some (.guardIndex (← inst.str?) (← operand? array a) (← operand? index i))
    | _ => none
  | "array_length_constraints" => single? .guardLength ["inst", "length", "concrete_length"] j
  | _ => none

/-- Reads an event. Its name is a field of the record, or the first element if it is an array. -/
def ofJson? : Json → Option Event
  | .obj fields => do
    match ← Json.slot? fields "event" with
    | some name => ofFields? (← name.1.str?) (.obj fields)
    | none => none
  | .arr (name :: fields) => do ofFields? (← name.str?) (.arr fields)
  | _ => none

/-- Reads an event from a text that is one document. -/
def read (s : String) : Result Event :=
  match (Json.read? s).bind ofJson? with
  | some e => .ok e
  | none => .error .unreadable

end Concolic.Event
