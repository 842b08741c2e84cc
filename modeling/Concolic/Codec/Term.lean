import Concolic.Codec.Value
import Concolic.Predicate.Basic

/-!
# Operators, terms and predicates as documents

A term is written as its kind, its type and, if it has any, its subterms. Reading checks no types.
-/

namespace Concolic

def BinaryOp.ofJson? (way : Json.Leeway) (j : Json) : Option BinaryOp :=
  (j.word? way).bind BinaryOp.ofName?

def UnaryOp.ofJson? (way : Json.Leeway) (j : Json) : Option UnaryOp :=
  (j.word? way).bind UnaryOp.ofName?

def CompareOp.ofJson? (way : Json.Leeway) (j : Json) : Option CompareOp :=
  (j.word? way).bind CompareOp.ofName?

namespace Kind

/-- The kinds that are a single word. -/
def words : List (String × Kind) :=
  [("Null", .null), ("This", .receiver), ("StaticClassRef", .staticRef),
    ("ArrayIndex", .arrayIndex), ("ArrayLoad", .arrayLoad), ("ArrayLength", .arrayLength),
    ("ArrayContains", .arrayContains), ("FieldLoad", .fieldLoad), ("Neg", .neg),
    ("Equals", .equals), ("Cast", .cast), ("Concat", .concat), ("Substring", .substring),
    ("IndexOf", .indexOf), ("CharAt", .charAt), ("StringLength", .stringLength),
    ("StringContains", .stringContains), ("StartsWith", .startsWith), ("EndsWith", .endsWith),
    ("StringParse", .stringParse), ("ToString", .toText), ("ForAll", .forAll), ("Exists", .forSome),
    ("Ite", .ite), ("Lambda", .lambda), ("ClassAccess", .classAccess), ("Bound", .bound),
    ("Undef", .undef)]

def toJson : Kind → Json
  | .argument index => .tag "Argument" (.obj [("index", .nat index)])
  | .value name => .tag "Value" (.obj [("name", .str name)])
  | .returnValue m => .tag "ReturnValue" (.obj [("method", m.toJson)])
  | .call m => .tag "Call" (.obj [("method", m.toJson)])
  | .field name => .tag "Field" (.obj [("name", .str name)])
  | .instanceOf checked => .tag "InstanceOf" (.obj [("checked", checked.toJson)])
  | .binary op => .tag "Binary" (.str op.name)
  | .compare op => .tag "Cmp" (.str op.name)
  | .constBool b => .tag "ConstBool" (.bool b)
  | .constByte n => .tag "ConstByte" (.int n.toInt)
  | .constChar unit => .tag "ConstChar" (.nat unit.toNat)
  | .constShort n => .tag "ConstShort" (.int n.toInt)
  | .constInt n => .tag "ConstInt" (.int n.toInt)
  | .constLong n => .tag "ConstLong" (.int n.toInt)
  | .constFloat x => .tag "ConstFloat" (.single x)
  | .constDouble x => .tag "ConstDouble" (.double x)
  | .constString s => .tag "ConstString" (.str s)
  | .constClass t => .tag "ConstClass" t.toJson
  | .null => .str "Null"
  | .receiver => .str "This"
  | .staticRef => .str "StaticClassRef"
  | .arrayIndex => .str "ArrayIndex"
  | .arrayLoad => .str "ArrayLoad"
  | .arrayLength => .str "ArrayLength"
  | .arrayContains => .str "ArrayContains"
  | .fieldLoad => .str "FieldLoad"
  | .neg => .str "Neg"
  | .equals => .str "Equals"
  | .cast => .str "Cast"
  | .concat => .str "Concat"
  | .substring => .str "Substring"
  | .indexOf => .str "IndexOf"
  | .charAt => .str "CharAt"
  | .stringLength => .str "StringLength"
  | .stringContains => .str "StringContains"
  | .startsWith => .str "StartsWith"
  | .endsWith => .str "EndsWith"
  | .stringParse => .str "StringParse"
  | .toText => .str "ToString"
  | .forAll => .str "ForAll"
  | .forSome => .str "Exists"
  | .ite => .str "Ite"
  | .lambda => .str "Lambda"
  | .classAccess => .str "ClassAccess"
  | .bound => .str "Bound"
  | .undef => .str "Undef"

def ofJson? (way : Json.Leeway) (j : Json) : Option Kind :=
  match (j.word? way).bind (words.lookup ·) with
  | some kind => some kind
  | none =>
    match j.tagged? with
    | some ("Argument", part) => (part.1.only? way "index" (·.nat? 64)).map .argument
    | some ("Value", part) => (part.1.only? way "name" Json.str?).map .value
    | some ("ReturnValue", part) =>
      (part.1.only? way "method" (Method.ofJson? way)).map .returnValue
    | some ("Call", part) => (part.1.only? way "method" (Method.ofJson? way)).map .call
    | some ("Field", part) => (part.1.only? way "name" Json.str?).map .field
    | some ("InstanceOf", part) => (part.1.only? way "checked" (Ty.ofJson? way)).map .instanceOf
    | some ("Binary", part) => (BinaryOp.ofJson? way part.1).map .binary
    | some ("Cmp", part) => (CompareOp.ofJson? way part.1).map .compare
    | some ("ConstBool", part) => part.1.bool?.map .constBool
    | some ("ConstByte", part) => part.1.int8?.map .constByte
    | some ("ConstChar", part) => part.1.uint16?.map .constChar
    | some ("ConstShort", part) => part.1.int16?.map .constShort
    | some ("ConstInt", part) => part.1.int32?.map .constInt
    | some ("ConstLong", part) => part.1.int64?.map .constLong
    | some ("ConstFloat", part) => part.1.single?.map .constFloat
    | some ("ConstDouble", part) => part.1.double?.map .constDouble
    | some ("ConstString", part) => part.1.str?.map .constString
    | some ("ConstClass", part) => (Ty.ofJson? way part.1).map .constClass
    | _ => none

end Kind

namespace Term

mutual

def toJson : Term → Json
  | ⟨kind, ty, subterms⟩ =>
    let rest := if subterms.isEmpty then [] else [("subterms", Json.arr (toJsonAll subterms))]
    .obj (("kind", kind.toJson) :: ("type", ty.toJson) :: rest)

def toJsonAll : List Term → List Json
  | [] => []
  | t :: ts => t.toJson :: toJsonAll ts

end

/-- The fields of a written term; the subterms may be missing. -/
def slots? (way : Json.Leeway) (j : Json) : Option (List (Option (Json.Part j))) :=
  match j.record? way ["kind", "type", "subterms"] with
  | some slots => some slots
  | none =>
    (j.record? way ["kind", "type"]).bind fun slots => if j matches .arr _ then some slots else none

def ofJson? (way : Json.Leeway) (j : Json) : Option Term :=
  match slots? way j with
  | some [some kind, some ty] | some [some kind, some ty, none] => do
    some ⟨← Kind.ofJson? way kind.1, ← Ty.ofJson? way ty.1, []⟩
  | some [some kind, some ty, some subterms] => do
    let children ← subterms.1.mapElements? fun part =>
      have : sizeOf part.1 < sizeOf j := Nat.lt_trans part.2 subterms.2
      ofJson? way part.1
    some ⟨← Kind.ofJson? way kind.1, ← Ty.ofJson? way ty.1, children⟩
  | _ => none
termination_by sizeOf j

end Term

namespace PredicateKind

/-- The kinds that are a single word. -/
def words : List (String × PredicateKind) :=
  [("Equality", .equality), ("Inequality", .inequality), ("DefaultSwitch", .defaultSwitch),
    ("ArrayStore", .arrayStore), ("FieldStore", .fieldStore),
    ("ArrayInitializer", .arrayInitializer), ("FieldInitializer", .fieldInitializer),
    ("New", .new), ("NewArray", .newArray), ("NewInitializer", .newInitializer),
    ("NewArrayInitializer", .newArrayInitializer), ("Catch", .caught), ("Throw", .thrown),
    ("EnterMonitor", .enterMonitor), ("ExitMonitor", .exitMonitor), ("BoundStore", .boundStore),
    ("GenerateArray", .generateArray)]

def toJson : PredicateKind → Json
  | .call hasResult => .tag "Call" (.obj [("has_lhv", .bool hasResult)])
  | .equality => .str "Equality"
  | .inequality => .str "Inequality"
  | .defaultSwitch => .str "DefaultSwitch"
  | .arrayStore => .str "ArrayStore"
  | .fieldStore => .str "FieldStore"
  | .arrayInitializer => .str "ArrayInitializer"
  | .fieldInitializer => .str "FieldInitializer"
  | .new => .str "New"
  | .newArray => .str "NewArray"
  | .newInitializer => .str "NewInitializer"
  | .newArrayInitializer => .str "NewArrayInitializer"
  | .caught => .str "Catch"
  | .thrown => .str "Throw"
  | .enterMonitor => .str "EnterMonitor"
  | .exitMonitor => .str "ExitMonitor"
  | .boundStore => .str "BoundStore"
  | .generateArray => .str "GenerateArray"

def ofJson? (way : Json.Leeway) (j : Json) : Option PredicateKind :=
  match (j.word? way).bind (words.lookup ·) with
  | some kind => some kind
  | none =>
    match j.tagged? with
    | some ("Call", part) => (part.1.only? way "has_lhv" Json.bool?).map .call
    | _ => none

end PredicateKind

def Role.ofJson? (way : Json.Leeway) (j : Json) : Option Role :=
  (j.word? way).bind Role.ofName?

namespace Predicate

def toJson (p : Predicate) : Json :=
  .obj [("kind", p.kind.toJson), ("type", .str p.role.name), ("location", p.location.toJson),
    ("operands", .arr (p.operands.map Term.toJson))]

/-- Without a location it is unknown. -/
def ofJson? (way : Json.Leeway) (j : Json) : Option Predicate := do
  match ← j.slots? way ["kind", "type", "location", "operands"] with
  | [some kind, some role, location, some operands] =>
    let location ← match location with
      | some location => Location.ofJson? way location
      | none => some .unknown
    some ⟨← PredicateKind.ofJson? way kind, ← Role.ofJson? way role, location,
      ← operands.list? (Term.ofJson? way)⟩
  | _ => none

end Predicate

end Concolic
