import Concolic.Observed.Basic

/-!
# Descriptions

A description is a bounded copy of an observed value, detached from the running program. It keeps
the identity of objects and arrays, and for an array its full length beside the elements that were
kept.
-/

namespace Concolic

inductive Description where
  /-- `null`, and what stands for a value that was cut off. -/
  | null
  | bool (b : Bool)
  | byte (n : Int8)
  | char (unit : UInt16)
  | short (n : Int16)
  | int (n : Int32)
  | long (n : Int64)
  | float (x : Single)
  | double (x : Double)
  | string (s : String)
  | classLit (t : Ty)
  | object (id : UInt64) (className : String) (fields : List (String × Description))
  | array (id : UInt64) (element : Ty) (length : Nat) (elements : List Description)

namespace Description

def ty : Description → Ty
  | .null => .null
  | .bool _ => .bool
  | .byte _ => .byte
  | .char _ => .char
  | .short _ => .short
  | .int _ => .int
  | .long _ => .long
  | .float _ => .float
  | .double _ => .double
  | .string _ => .string
  | .classLit _ => .classLiteral
  | .object _ name _ => .ofClassName name
  | .array _ element _ _ => .array element

def isNull : Description → Bool
  | .null => true
  | _ => false

def bool? : Description → Option Bool
  | .bool b => some b
  | _ => none

/-- The value of an integral primitive; truth values count as 0 and 1. -/
def int? : Description → Option Int64
  | .bool b => some (if b then 1 else 0)
  | .byte n => some n.toInt64
  | .char unit => some (Int64.ofNat unit.toNat)
  | .short n => some n.toInt64
  | .int n => some n.toInt64
  | .long n => some n
  | _ => none

/-- The value of a primitive as a double. -/
def double? (d : Description) : Option Double :=
  match d with
  | .float x => some (x.convert .double)
  | .double x => some x
  | d => d.int?.map fun n => Fp.ofInt .double n.toInt

/-- The description of a field of an object. -/
def field? (d : Description) (name : String) : Option Description :=
  match d with
  | .object _ _ fields => (fields.find? (·.1 == name)).map Prod.snd
  | _ => none

def text : Description → String
  | .null => "null"
  | .bool b => boolText b
  | .byte n => toString n.toInt ++ "b"
  | .char unit => String.ofList (['\'', '\\', 'u'] ++ Text.hexDigits 4 unit.toNat ++ ['\''])
  | .short n => toString n.toInt ++ "s"
  | .int n => toString n.toInt
  | .long n => toString n.toInt ++ "L"
  | .float x => x.text ++ "f"
  | .double x => x.text
  | .string s => "\"" ++ Text.escape s ++ "\""
  | .classLit t => t.text ++ ".class"
  | .object id name _ => name ++ "#" ++ toString id.toNat
  | .array id element length _ =>
    element.text ++ "[" ++ toString length ++ "]#" ++ toString id.toNat

mutual

/-- Equality of descriptions, numbers compared as numbers. -/
def same : Description → Description → Bool
  | .null, .null => true
  | .bool a, .bool b => a == b
  | .byte a, .byte b => a == b
  | .char a, .char b => a == b
  | .short a, .short b => a == b
  | .int a, .int b => a == b
  | .long a, .long b => a == b
  | .float a, .float b => a.equal b
  | .double a, .double b => a.equal b
  | .string a, .string b => a == b
  | .classLit a, .classLit b => a == b
  | .object i c fs, .object j d gs => i == j && c == d && sameFields fs gs
  | .array i t m ds, .array j u n es => i == j && t == u && m == n && sameAll ds es
  | _, _ => false

def sameFields : List (String × Description) → List (String × Description) → Bool
  | [], [] => true
  | (m, d) :: fs, (n, e) :: gs => m == n && d.same e && sameFields fs gs
  | _, _ => false

def sameAll : List Description → List Description → Bool
  | [], [] => true
  | d :: ds, e :: es => d.same e && sameAll ds es
  | _, _ => false

end

instance : BEq Description := ⟨same⟩

end Description

end Concolic
