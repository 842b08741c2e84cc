import Concolic.Codec.Ty
import Concolic.Json.Read
import Concolic.Value

/-!
# Methods, constants, values and locations as documents

The modifiers of a method are written as text: the names of the known ones, then the other bits as
one hexadecimal number, separated by vertical bars.
-/

namespace Concolic

namespace Method

/-- The modifiers with a name. -/
def flagNames : List (String × UInt32) :=
  [("STATIC", staticFlag), ("FINAL", finalFlag), ("NATIVE", nativeFlag), ("ABSTRACT", abstractFlag)]

/-- The bits that have a name. -/
def namedBits : UInt32 := flagNames.foldl (fun bits f => bits ||| f.2) 0

def flagsText (flags : UInt32) : String :=
  let named := (flagNames.filter fun f => flags &&& f.2 == f.2).map Prod.fst
  let others := flags &&& ~~~namedBits
  let unnamed := if others == 0 then [] else ["0x" ++ String.ofList (Text.hexDigits 0 others.toNat)]
  String.intercalate " | " (named ++ unnamed)

/-- Reads hexadecimal digits with an optional plus, at most 32 bits. -/
def hexBits? (cs : List Char) : Option UInt32 := do
  let ds := match cs with
    | '+' :: ds => ds
    | ds => ds
  let digits ← ds.mapM Json.hexDigit?
  let n := digits.foldl (fun n d => 16 * n + d) 0
  if digits.isEmpty || UInt32.size ≤ n then none else some (UInt32.ofNat n)

/-- Reads one modifier. -/
def flag? (cs : List Char) : Option UInt32 :=
  match cs with
  | '0' :: 'x' :: ds => hexBits? ds
  | cs => flagNames.lookup (String.ofList cs)

/-- The parts of a text between vertical bars. -/
def splitBars : List Char → List (List Char)
  | [] => [[]]
  | c :: cs =>
    if c == '|' then [] :: splitBars cs
    else
      match splitBars cs with
      | part :: parts => (c :: part) :: parts
      | [] => [[c]]

/-- Reads modifiers; blank text has none. -/
def parseFlags? (s : String) : Option UInt32 :=
  if (Text.trimChars s.toList).isEmpty then some 0
  else do
    let flags ← (splitBars s.toList).mapM fun part => flag? (Text.trimChars part)
    some (flags.foldl (· ||| ·) 0)

end Method

namespace Signature

def toJson (s : Signature) : Json :=
  .obj [("args", .arr (s.args.map Ty.toJson)), ("ret", s.ret.toJson)]

def ofJson? (way : Json.Leeway) (j : Json) : Option Signature := do
  match ← j.slots? way ["args", "ret"] with
  | [some args, some ret] => some ⟨← args.list? (Ty.ofJson? way), ← Ty.ofJson? way ret⟩
  | _ => none

end Signature

namespace Method

def toJson (m : Method) : Json :=
  .obj [("class", .str m.owner), ("name", .str m.name), ("desc", m.signature.toJson),
    ("flags", .str (flagsText m.flags))]

def ofJson? (way : Json.Leeway) (j : Json) : Option Method := do
  match ← j.slots? way ["class", "name", "desc", "flags"] with
  | [some owner, some name, some signature, some flags] =>
    some ⟨← owner.str?, ← name.str?, ← Signature.ofJson? way signature,
      ← parseFlags? (← flags.str?)⟩
  | _ => none

end Method

def FieldRef.toJson (f : FieldRef) : Json :=
  .obj [("class", .str f.owner), ("name", .str f.name), ("ty", f.ty.toJson),
    ("is_static", .bool f.isStatic)]

namespace Constant

def toJson : Constant → Json
  | .null => .str "Null"
  | .bool b => .tag "Bool" (.bool b)
  | .byte n => .tag "Byte" (.int n.toInt)
  | .char unit => .tag "Char" (.nat unit.toNat)
  | .short n => .tag "Short" (.int n.toInt)
  | .int n => .tag "Int" (.int n.toInt)
  | .long n => .tag "Long" (.int n.toInt)
  | .float x => .tag "Float" (.single x)
  | .double x => .tag "Double" (.double x)
  | .string s => .tag "String" (.str s)
  | .classLit t => .tag "Class" t.toJson

def ofJson? (way : Json.Leeway) (j : Json) : Option Constant :=
  if j.word? way = some "Null" then some .null
  else
    match j.tagged? with
    | some ("Bool", part) => part.1.bool?.map .bool
    | some ("Byte", part) => part.1.int8?.map .byte
    | some ("Char", part) => part.1.uint16?.map .char
    | some ("Short", part) => part.1.int16?.map .short
    | some ("Int", part) => part.1.int32?.map .int
    | some ("Long", part) => part.1.int64?.map .long
    | some ("Float", part) => part.1.single?.map .float
    | some ("Double", part) => part.1.double?.map .double
    | some ("String", part) => part.1.str?.map .string
    | some ("Class", part) => (Ty.ofJson? way part.1).map .classLit
    | _ => none

end Constant

namespace Value

def toJson : Value → Json
  | .receiver t => .tag "This" t.toJson
  | .argument index t => .tag "Argument" (.obj [("index", .nat index), ("ty", t.toJson)])
  | .constant c => .tag "Constant" c.toJson
  | .result name t => .tag "Local" (.obj [("name", .str name), ("ty", t.toJson)])

def ofJson? (way : Json.Leeway) (j : Json) : Option Value := do
  match ← j.tagged? with
  | ("This", part) => (Ty.ofJson? way part.1).map .receiver
  | ("Argument", part) =>
    match ← part.1.carried? way ["index", "ty"] with
    | [some index, some t] => some (.argument (← index.nat? 64) (← Ty.ofJson? way t))
    | _ => none
  | ("Constant", part) => (Constant.ofJson? way part.1).map .constant
  | ("Local", part) =>
    match ← part.1.carried? way ["name", "ty"] with
    | [some name, some t] => some (.result (← name.str?) (← Ty.ofJson? way t))
    | _ => none
  | _ => none

end Value

namespace Location

def toJson (l : Location) : Json :=
  .obj [("file", .ofOption .str l.file), ("line", .nat l.line.toNat)]

def ofJson? (way : Json.Leeway) (j : Json) : Option Location := do
  match ← j.slots? way ["file", "line"] with
  | [file, some line] => some ⟨← Json.optional? Json.str? file, ← line.uint32?⟩
  | _ => none

end Location

end Concolic
