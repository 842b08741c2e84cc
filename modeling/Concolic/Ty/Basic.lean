import Concolic.Text.Escape

/-!
# Types

The types of a class-based byte-code language: primitives, class types, arrays, the type of `null`,
and typed references. A reference is what indexing an array or selecting a field yields; it must be
loaded from or stored to and is not itself a value of a program.

A type has two spellings. `text` is the source spelling (`int[]`, `java/lang/String`), `descriptor`
the compact one of method signatures (`[I`, `Ljava/lang/String;`). Class names are stored with
slashes between packages; `ofClassName` accepts dots as well.
-/

namespace Concolic

/-- A class name with slashes for dots. -/
def slashed (name : String) : String :=
  String.ofList (name.toList.map fun c => if c = '.' then '/' else c)

inductive Ty where
  | void
  | bool
  | byte
  | char
  | short
  | int
  | long
  | float
  | double
  | null
  | object (className : String)
  | array (element : Ty)
  | reference (referenced : Ty)
deriving DecidableEq

namespace Ty

/-- The root of every class hierarchy. -/
def rootClass : String := "java/lang/Object"

def stringClass : String := "java/lang/String"

/-- The class of class literals. -/
def classClass : String := "java/lang/Class"

def root : Ty := .object rootClass

def string : Ty := .object stringClass

def classLiteral : Ty := .object classClass

def ofClassName (name : String) : Ty := .object (slashed name)

/-! ## Classification -/

def isIntegral : Ty → Bool
  | .byte | .char | .short | .int | .long => true
  | _ => false

def isReal : Ty → Bool
  | .float | .double => true
  | _ => false

def isNumeric (t : Ty) : Bool := t.isIntegral || t.isReal

def isPrimitive (t : Ty) : Bool := t.isNumeric || t == .bool

/-- Types whose values are references to the heap, `null` included. -/
def isPointer : Ty → Bool
  | .object _ | .array _ | .reference _ | .null => true
  | _ => false

def isString (t : Ty) : Bool := t == string

/-- The number of bits of a primitive. -/
def bits? : Ty → Option Nat
  | .bool => some 1
  | .byte => some 8
  | .char | .short => some 16
  | .int | .float => some 32
  | .long | .double => some 64
  | _ => none

def element? : Ty → Option Ty
  | .array t => some t
  | _ => none

def referenced? : Ty → Option Ty
  | .reference t => some t
  | _ => none

def className? : Ty → Option String
  | .object name => some name
  | _ => none

/-! ## Spellings -/

/-- The source spelling. -/
def text : Ty → String
  | .void => "void"
  | .bool => "boolean"
  | .byte => "byte"
  | .char => "char"
  | .short => "short"
  | .int => "int"
  | .long => "long"
  | .float => "float"
  | .double => "double"
  | .null => "null"
  | .object name => name
  | .array t => t.text ++ "[]"
  | .reference t => "&" ++ t.text

/-- The signature spelling. `null` is spelled as the root class, a reference as its target. -/
def descriptor : Ty → String
  | .void => "V"
  | .bool => "Z"
  | .byte => "B"
  | .char => "C"
  | .short => "S"
  | .int => "I"
  | .long => "J"
  | .float => "F"
  | .double => "D"
  | .null => "L" ++ rootClass ++ ";"
  | .object name => "L" ++ name ++ ";"
  | .array t => "[" ++ t.descriptor
  | .reference t => t.descriptor

/-- The type as nested constructors, the way error messages show lists of types. -/
def debug : Ty → String
  | .void => "Void"
  | .bool => "Bool"
  | .byte => "Byte"
  | .char => "Char"
  | .short => "Short"
  | .int => "Int"
  | .long => "Long"
  | .float => "Float"
  | .double => "Double"
  | .null => "Null"
  | .object name => "Class(" ++ Text.quote name ++ ")"
  | .array t => "Array(" ++ t.debug ++ ")"
  | .reference t => "Reference(" ++ t.debug ++ ")"

end Ty

/-- A list in brackets, its items separated by commas. -/
def bracketed (items : List String) : String := "[" ++ String.intercalate ", " items ++ "]"

end Concolic
