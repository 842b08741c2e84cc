import Concolic.Constant

/-!
# Observed values

The concrete values that the instrumentation of a running program reports. Text, objects and arrays
carry an identity: two references to one object carry the same one.

`Observed.same` is equality as the running program has it for numbers: a floating-point value that
is no number equals nothing, and the two zeros are equal.
-/

namespace Concolic

inductive Observed where
  | null
  | bool (b : Bool)
  | byte (n : Int8)
  | char (unit : UInt16)
  | short (n : Int16)
  | int (n : Int32)
  | long (n : Int64)
  | float (x : Single)
  | double (x : Double)
  | text (id : UInt64) (s : String)
  | object (id : UInt64) (className : String) (fields : List (String × Observed))
  | array (id : UInt64) (element : Ty) (elements : List Observed)

namespace Observed

/-- An object of a class whose name may have dots. -/
def ofClass (id : UInt64) (className : String) (fields : List (String × Observed)) : Observed :=
  .object id (slashed className) fields

/-- A primitive boxed in an object, as it is reported where an object is expected. -/
def boxed (id : UInt64) (className : String) (v : Observed) : Observed :=
  ofClass id className [("value", v)]

def isNull : Observed → Bool
  | .null => true
  | _ => false

def isReference : Observed → Bool
  | .null | .text _ _ | .object _ _ _ | .array _ _ _ => true
  | _ => false

/-- The type of the value at run time; `null` has none. -/
def type? : Observed → Option Ty
  | .null => none
  | .bool _ => some .bool
  | .byte _ => some .byte
  | .char _ => some .char
  | .short _ => some .short
  | .int _ => some .int
  | .long _ => some .long
  | .float _ => some .float
  | .double _ => some .double
  | .text _ _ => some .string
  | .object _ name _ => some (.ofClassName name)
  | .array _ element _ => some (.array element)

/-- The value of an integral primitive; truth values count as 0 and 1. -/
def int? : Observed → Option Int64
  | .bool b => some (if b then 1 else 0)
  | .byte n => some n.toInt64
  | .char unit => some (Int64.ofNat unit.toNat)
  | .short n => some n.toInt64
  | .int n => some n.toInt64
  | .long n => some n
  | _ => none

/-- The value of a primitive as a double. -/
def double? (v : Observed) : Option Double :=
  match v with
  | .float x => some (x.convert .double)
  | .double x => some x
  | v => v.int?.map fun n => Fp.ofInt .double n.toInt

/-- The length of an array. -/
def length? : Observed → Option Nat
  | .array _ _ elements => some elements.length
  | _ => none

/-- The value of a field of an object. -/
def field? (v : Observed) (name : String) : Option Observed :=
  match v with
  | .object _ _ fields => (fields.find? (·.1 == name)).map Prod.snd
  | _ => none

mutual

/-- Equality of values, numbers compared as numbers. -/
def same : Observed → Observed → Bool
  | .null, .null => true
  | .bool a, .bool b => a == b
  | .byte a, .byte b => a == b
  | .char a, .char b => a == b
  | .short a, .short b => a == b
  | .int a, .int b => a == b
  | .long a, .long b => a == b
  | .float a, .float b => a.equal b
  | .double a, .double b => a.equal b
  | .text i s, .text j t => i == j && s == t
  | .object i c fs, .object j d gs => i == j && c == d && sameFields fs gs
  | .array i t vs, .array j u ws => i == j && t == u && sameAll vs ws
  | _, _ => false

def sameFields : List (String × Observed) → List (String × Observed) → Bool
  | [], [] => true
  | (m, v) :: fs, (n, w) :: gs => m == n && v.same w && sameFields fs gs
  | _, _ => false

def sameAll : List Observed → List Observed → Bool
  | [], [] => true
  | v :: vs, w :: ws => v.same w && sameAll vs ws
  | _, _ => false

end

instance : BEq Observed := ⟨same⟩

mutual

/-- The value as nested constructors, the way error messages show it. -/
def debug : Observed → String
  | .null => "Null"
  | .bool b => "Bool(" ++ boolText b ++ ")"
  | .byte n => "Byte(" ++ toString n.toInt ++ ")"
  | .char unit => "Char(" ++ toString unit.toNat ++ ")"
  | .short n => "Short(" ++ toString n.toInt ++ ")"
  | .int n => "Int(" ++ toString n.toInt ++ ")"
  | .long n => "Long(" ++ toString n.toInt ++ ")"
  | .float x => "Float(" ++ x.text ++ ")"
  | .double x => "Double(" ++ x.text ++ ")"
  | .text id s => "Str \x7b id: " ++ toString id.toNat ++ ", value: " ++ Text.quote s ++ " \x7d"
  | .object id name fields =>
    "Object(RuntimeObject \x7b id: " ++ toString id.toNat ++ ", class: " ++ Text.quote name ++
      ", fields: " ++ bracketed (debugFields fields) ++ " \x7d)"
  | .array id element elements =>
    "Array(RuntimeArray \x7b id: " ++ toString id.toNat ++ ", element: " ++ element.debug ++
      ", elements: " ++ bracketed (debugAll elements) ++ " \x7d)"

def debugFields : List (String × Observed) → List String
  | [] => []
  | (name, v) :: fields => ("(" ++ Text.quote name ++ ", " ++ v.debug ++ ")") :: debugFields fields

def debugAll : List Observed → List String
  | [] => []
  | v :: vs => v.debug :: debugAll vs

end

end Observed

end Concolic
