import Concolic.Codec.Value
import Concolic.Description.Basic

/-!
# Descriptions as documents
-/

namespace Concolic.Description

mutual

def toJson : Description → Json
  | .null => .str "Null"
  | .bool b => .tag "Bool" (.bool b)
  | .byte n => .tag "Byte" (.int n.toInt)
  | .char unit => .tag "Char" (.nat unit.toNat)
  | .short n => .tag "Short" (.int n.toInt)
  | .int n => .tag "Int" (.int n.toInt)
  | .long n => .tag "Long" (.int n.toInt)
  | .float x => .tag "Float" (.single x)
  | .double x => .tag "Double" (.double x)
  | .string s => .tag "String" (.str s)
  | .classLit t => .tag "Class" t.toJson
  | .object id name fields =>
    .tag "Object" (.obj [("id", .nat id.toNat), ("class", .str name),
      ("fields", .arr (toJsonFields fields))])
  | .array id element length elements =>
    .tag "Array" (.obj [("id", .nat id.toNat), ("element", element.toJson),
      ("length", .nat length), ("elements", .arr (toJsonAll elements))])

def toJsonFields : List (String × Description) → List Json
  | [] => []
  | (name, d) :: fields => .arr [.str name, d.toJson] :: toJsonFields fields

def toJsonAll : List Description → List Json
  | [] => []
  | d :: ds => d.toJson :: toJsonAll ds

end

/-- Reads everything but objects and arrays. -/
def ofScalar? (way : Json.Leeway) (name : String) (j : Json) : Option Description :=
  match name with
  | "Bool" => j.bool?.map .bool
  | "Byte" => j.int8?.map .byte
  | "Char" => j.uint16?.map .char
  | "Short" => j.int16?.map .short
  | "Int" => j.int32?.map .int
  | "Long" => j.int64?.map .long
  | "Float" => j.single?.map .float
  | "Double" => j.double?.map .double
  | "String" => j.str?.map .string
  | "Class" => (Ty.ofJson? way j).map .classLit
  | _ => none

def ofJson? (way : Json.Leeway) (j : Json) : Option Description :=
  if j.word? way = some "Null" then some .null
  else
    match j.tagged? with
    | some ("Object", body) =>
      match body.1.record? way ["id", "class", "fields"] with
      | some [some id, some name, some fields] => do
        let fields ← fields.1.mapElements? fun part =>
          match part.1.pair? way with
          | some (name, value) => do
            have : sizeOf value.1 < sizeOf j :=
              Nat.lt_trans value.2 (Nat.lt_trans part.2 (Nat.lt_trans fields.2 body.2))
            some (← name.1.str?, ← ofJson? way value.1)
          | _ => none
        some (.object (← id.1.uint64?) (← name.1.str?) fields)
      | _ => none
    | some ("Array", body) =>
      match body.1.record? way ["id", "element", "length", "elements"] with
      | some [some id, some element, some length, some elements] => do
        let elements ← elements.1.mapElements? fun part =>
          have : sizeOf part.1 < sizeOf j :=
            Nat.lt_trans part.2 (Nat.lt_trans elements.2 body.2)
          ofJson? way part.1
        some (.array (← id.1.uint64?) (← Ty.ofJson? way element.1) (← length.1.nat? 64) elements)
      | _ => none
    | some (name, body) => ofScalar? way name body.1
    | none => none
termination_by sizeOf j

end Concolic.Description
