import Concolic.Json.Basic
import Concolic.Text.Escape

/-!
# Writing JSON

A document as text without blanks. Computed numbers have the fewest digits that tell them apart; a
number that is infinite or no number is written as `null`, and so is what has no value.
-/

namespace Concolic.Json

/-- A character inside a text: quote, backslash and control characters are escaped. -/
def writeChar (c : Char) : List Char :=
  match c with
  | '"' => ['\\', '"']
  | '\\' => ['\\', '\\']
  | '\n' => ['\\', 'n']
  | '\r' => ['\\', 'r']
  | '\t' => ['\\', 't']
  | '\x08' => ['\\', 'b']
  | '\x0c' => ['\\', 'f']
  | c => if c.toNat < 0x20 then '\\' :: 'u' :: Text.hexDigits 4 c.toNat else [c]

def writeString (s : String) : String :=
  String.ofList ('"' :: s.toList.flatMap writeChar ++ ['"'])

def writeDecimal (negative : Bool) (x : Fp.Decimal) : String :=
  (if negative then "-" else "") ++ toString x.digits ++ "e" ++ toString x.exponent

/-- Of two equally near decimals the even one is written. -/
def layout : Fp.Layout := { Fp.Layout.standard with tie := .even }

def writeFp {f : Fp.Format} (x : Fp f) : String := if x.isFinite then x.render layout else "null"

mutual

def write : Json → String
  | .null | .valueless => "null"
  | .bool b => if b then "true" else "false"
  | .int n => toString n
  | .decimal negative x => writeDecimal negative x
  | .single x => writeFp x
  | .double x => writeFp x
  | .str s => writeString s
  | .arr elements => "[" ++ String.intercalate "," (writeAll elements) ++ "]"
  | .obj fields => "\x7b" ++ String.intercalate "," (writeFields fields) ++ "\x7d"

def writeAll : List Json → List String
  | [] => []
  | j :: js => j.write :: writeAll js

def writeFields : List (String × Json) → List String
  | [] => []
  | (name, j) :: fields => (writeString name ++ ":" ++ j.write) :: writeFields fields

end

end Concolic.Json
