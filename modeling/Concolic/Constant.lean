import Concolic.Fp.Decimal
import Concolic.Ty.Parse

/-!
# Literals

The constants that instructions use. `parse?` reads the literals that a trace may name: `null`,
truth values, quoted text, class literals, and numbers, where a final `L` makes a long, a final `f`
or `F` a float, digits alone an int, and everything else a double.
-/

namespace Concolic

inductive Constant where
  | null
  | bool (b : Bool)
  | byte (n : Int8)
  | char (unit : UInt16)
  | short (n : Int16)
  | int (n : Int32)
  | long (n : Int64)
  | float (x : Single)
  | double (x : Double)
  | string (s : String)
  | classLit (t : Ty)
deriving DecidableEq

/-- The words for the truth values. -/
def boolText (b : Bool) : String := if b then "true" else "false"

/-- Reads decimal digits with an optional sign. -/
def readInt? (cs : List Char) : Option Int :=
  let (negative, ds) := Fp.splitSign cs
  if ds.isEmpty || !ds.all Char.isDigit then none
  else some (if negative then -(Fp.ofDigits ds : Int) else Fp.ofDigits ds)

/-- Reads an integer of at most 32 bits. -/
def readInt32? (cs : List Char) : Option Int32 := do
  let n ← readInt? cs
  if Int32.minValue.toInt ≤ n ∧ n ≤ Int32.maxValue.toInt then some (Int32.ofInt n) else none

/-- Reads an integer of at most 64 bits. -/
def readInt64? (cs : List Char) : Option Int64 := do
  let n ← readInt? cs
  if Int64.minValue.toInt ≤ n ∧ n ≤ Int64.maxValue.toInt then some (Int64.ofInt n) else none

namespace Constant

def ty : Constant → Ty
  | .null => .null
  | .bool _ => .bool
  | .byte _ => .byte
  | .char _ => .char
  | .short _ => .short
  | .int _ => .int
  | .long _ => .long
  | .float _ => .float
  | .double _ => .double
  | .string _ => .string
  | .classLit _ => .classLiteral

def text : Constant → String
  | .null => "null"
  | .bool b => boolText b
  | .byte n => toString n.toInt
  | .char unit => Text.quoteUnit unit
  | .short n => toString n.toInt
  | .int n => toString n.toInt
  | .long n => toString n.toInt ++ "L"
  | .float x => x.text ++ "f"
  | .double x => x.text
  | .string s => "\"" ++ Text.escape s ++ "\""
  | .classLit t => t.text ++ ".class"

/-- Reads a numeric literal. Its last character decides the width. -/
def parseNumber? (cs : List Char) : Option Constant :=
  match cs.reverse with
  | 'L' :: front => (readInt64? front.reverse).map .long
  | 'f' :: front | 'F' :: front =>
    (Fp.parse? .single (String.ofList front.reverse)).map .float
  | _ =>
    match readInt32? cs with
    | some n => some (.int n)
    | none => (Fp.parse? .double (String.ofList cs)).map .double

/-- The text between a leading and a final quote. -/
def unquote? (cs : List Char) : Option (List Char) :=
  match cs with
  | '"' :: rest =>
    match rest.reverse with
    | '"' :: inner => some inner.reverse
    | _ => none
  | _ => none

/-- The text before a final `.class`. -/
def classLiteral? (cs : List Char) : Option (List Char) :=
  if ".class".toList.isSuffixOf cs then some (cs.take (cs.length - 6)) else none

/-- The first character of a numeric literal. -/
def startsNumber : List Char → Bool
  | c :: _ => c.isDigit || c == '-'
  | [] => false

def parseChars? (cs : List Char) : Option Constant :=
  match unquote? cs with
  | some inner => some (.string (String.ofList inner))
  | none =>
    match classLiteral? cs with
    | some name => (Ty.parseChars name).toOption.map .classLit
    | none => if startsNumber cs then parseNumber? cs else none

/-- The constant that a literal denotes. -/
def parse? (s : String) : Option Constant :=
  match s with
  | "null" => some .null
  | "true" => some (.bool true)
  | "false" => some (.bool false)
  | s => parseChars? s.toList

end Constant

end Concolic
